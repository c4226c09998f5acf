import ImpuritySampler.Scalar

/-!
# Signs

The sign of a weight is kept apart from its size: traces, determinants and configurations carry one
of two signs, and products of signs are exact in any arithmetic.
-/

set_option autoImplicit false

namespace ImpuritySampler

inductive Sign where
  | plus
  | minus
deriving DecidableEq

namespace Sign

def mul : Sign → Sign → Sign
  | plus, s => s
  | minus, plus => minus
  | minus, minus => plus

instance : Mul Sign := ⟨mul⟩

def ofParity (n : Nat) : Sign := if n % 2 = 0 then plus else minus

/-- Zero and undefined scalars count as positive. -/
def ofScalar {α : Type} [Scalar α] (a : α) : Sign := if a < 0 then minus else plus

/-- Every scalar that is not positive, zero included, counts as negative. -/
def ofPositive {α : Type} [Scalar α] (a : α) : Sign := if 0 < a then plus else minus

def apply {α : Type} [Scalar α] : Sign → α → α
  | plus, a => a
  | minus, a => -a

def toScalar {α : Type} [Scalar α] (s : Sign) : α := s.apply 1

theorem mul_assoc (a b c : Sign) : a * b * c = a * (b * c) := by
  cases a <;> cases b <;> cases c <;> rfl

theorem mul_comm (a b : Sign) : a * b = b * a := by
  cases a <;> cases b <;> rfl

theorem mul_self (a : Sign) : a * a = plus := by
  cases a <;> rfl

end Sign
end ImpuritySampler
