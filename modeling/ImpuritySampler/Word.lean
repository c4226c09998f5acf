/-!
# Words

Counts, ticks and whole numbers in files are words of 64 bits. They are written as natural numbers
that stay below a limit.
-/

set_option autoImplicit false

namespace ImpuritySampler

def wordLimit : Nat := Nat.pow 2 64

end ImpuritySampler
