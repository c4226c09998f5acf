/-!
# Binary searches

Both searches halve a range of places and end after logarithmically many looks. The sequence that is
searched is only read at places below its length.
-/

set_option autoImplicit false

namespace ImpuritySampler.Search

def lowerBoundFrom {n : Nat} (ticks : Fin n → Nat) (value lo hi : Nat) (h : hi ≤ n) : Nat :=
  if hlt : lo < hi then
    let mid := lo + (hi - lo) / 2
    have hm : mid < hi := by omega
    if value < ticks ⟨mid, Nat.lt_of_lt_of_le hm h⟩ then
      lowerBoundFrom ticks value (mid + 1) hi h
    else
      lowerBoundFrom ticks value lo mid (Nat.le_of_lt (Nat.lt_of_lt_of_le hm h))
  else lo
termination_by hi - lo

/-- The first place of a decreasing sequence whose tick count is not above `value`; the length if
there is none. -/
def lowerBound {n : Nat} (ticks : Fin n → Nat) (value : Nat) : Nat :=
  lowerBoundFrom ticks value 0 n (Nat.le_refl n)

def halve (p : Nat → Bool) (size base : Nat) : Nat :=
  if 1 < size then
    let mid := base + size / 2
    halve p (size - size / 2) (if p mid then mid else base)
  else base
termination_by size

def partitionPoint (p : Nat → Bool) (n : Nat) : Nat :=
  if n = 0 then 0
  else
    let base := halve p n 0
    if p base then base + 1 else base

end ImpuritySampler.Search
