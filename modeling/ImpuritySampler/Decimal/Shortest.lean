import ImpuritySampler.Decimal.Binary

/-!
# The fewest digits that read back

The reals that round to a float form an interval, closed exactly if the mantissa is even. Grids of
one, two and more digits are tried in turn; on each one only the two neighbours of the value can lie
in the interval, and the first grid with a hit wins.
-/

set_option autoImplicit false

namespace ImpuritySampler.Decimal

structure Digits where
  value : Nat
  exponent : Int
deriving DecidableEq

def readsBack (mantissa : Nat) (exponent : Int) (scale : Int) (candidate : Nat) : Bool :=
  -- the gap below a power of two is half as wide, but for the smallest exponent
  let below := if mantissa = hiddenBit ∧ exponent ≠ -1074 then 1 else 2
  let lo := Quotient.scaled (4 * mantissa - below) (exponent - 2) scale
  let hi := Quotient.scaled (4 * mantissa + 2) (exponent - 2) scale
  if mantissa % 2 = 0 then lo.num ≤ candidate * lo.den ∧ candidate * hi.den ≤ hi.num
  else lo.num < candidate * lo.den ∧ candidate * hi.den < hi.num

def hit? (tie : Tie) (mantissa : Nat) (exponent : Int) (scale : Int) : Option Nat :=
  let q := Quotient.scaled mantissa exponent scale
  let n := q.num / q.den
  let lower := readsBack mantissa exponent scale n
  let upper := readsBack mantissa exponent scale (n + 1)
  if lower && upper then some (q.nearest tie)
  else if lower then some n
  else if upper then some (n + 1)
  else none

def shortestFrom (tie : Tie) (mantissa : Nat) (exponent magnitude : Int) : Nat → Nat → Digits
  | 0, count =>
    ⟨(Quotient.scaled mantissa exponent (magnitude - count)).nearest tie, magnitude - count⟩
  | fuel + 1, count =>
    match hit? tie mantissa exponent (magnitude - count) with
    | some n => ⟨n, magnitude - count⟩
    | none => shortestFrom tie mantissa exponent magnitude fuel (count + 1)

/-- The shortest digits of `mantissa * 2 ^ exponent`, a positive float; seventeen always suffice. -/
def shortest (tie : Tie) (mantissa : Nat) (exponent : Int) : Digits :=
  let magnitude := (Quotient.scaled mantissa exponent 0).magnitude
  let d := shortestFrom tie mantissa exponent magnitude 16 1
  -- the upper neighbour on the coarsest grid can be ten
  if d.value = 10 then ⟨1, d.exponent + 1⟩ else d

end ImpuritySampler.Decimal
