/-!
# Scalars

The numbers that weights, energies and real times are made of. Every rule of the sampler is written
over this class, so that one text is both the program, over binary floating point, and the object of
exact statements, over an ordered field.
-/

set_option autoImplicit false

namespace ImpuritySampler

/-- Arithmetic, order, the exponential, and the three passages between scalars and naturals. -/
class Scalar (α : Type) extends Add α, Sub α, Mul α, Div α, Neg α, Zero α, One α, NatCast α,
    OfScientific α, LT α, LE α where
  decidableLT : DecidableLT α
  decidableLE : DecidableLE α
  exp : α → α
  /-- Neither infinite nor undefined. -/
  isFinite : α → Bool
  /-- The largest natural number not above the scalar; zero for negative or undefined ones. -/
  floor : α → Nat
  /-- The nearest natural number, halves going up; zero for negative or undefined ones. -/
  round : α → Nat

attribute [reducible, instance] Scalar.decidableLT Scalar.decidableLE

namespace Scalar

variable {α : Type} [Scalar α]

/-- Equality as the order sees it: the two zeros of floating point are the same, an undefined value
is the same as nothing, itself included. -/
def Same (a b : α) : Prop := a ≤ b ∧ b ≤ a

instance (a b : α) : Decidable (Same a b) := inferInstanceAs (Decidable (_ ∧ _))

def abs (a : α) : α := if a < 0 then -a else a

def clamp (lo hi a : α) : α := if a < lo then lo else if hi < a then hi else a

/-- Relative difference below which two real times, or two periods, count as the same. -/
def tolerance : α := 1e-12

/-- The sum from the left. It starts at the neutral element of addition, which in floating point is
the negative zero. -/
def sum (l : List α) : α := l.foldl (· + ·) (-0)

def dot (n : Nat) (f g : Nat → α) : α :=
  (List.range n).foldl (fun total k => total + f k * g k) 0

end Scalar
end ImpuritySampler
