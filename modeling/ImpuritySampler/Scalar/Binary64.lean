import ImpuritySampler.Scalar
import ImpuritySampler.Word

/-!
# Binary floating point as scalars

The instance that runs. Only comparisons, the four operations and conversions of 64-bit words are
used, so rounding to naturals is exact: the difference from the truncated value has no error.
-/

set_option autoImplicit false

namespace ImpuritySampler.Binary64

def ofNat (n : Nat) : Float :=
  if n < wordLimit then n.toUInt64.toFloat else Float.ofNat n

def floor (x : Float) : Nat := x.toUInt64.toNat

def round (x : Float) : Nat :=
  let n := floor x
  if 0.5 ≤ x - ofNat n ∧ n + 1 < wordLimit then n + 1 else n

instance : Scalar Float where
  zero := 0
  one := 1
  natCast := ofNat
  decidableLT := inferInstance
  decidableLE := inferInstance
  exp := Float.exp
  isFinite := Float.isFinite
  floor := floor
  round := round

end ImpuritySampler.Binary64
