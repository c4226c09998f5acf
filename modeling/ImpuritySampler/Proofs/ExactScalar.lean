import Mathlib
import ImpuritySampler.Sign

/-!
# Exact arithmetic

An ordered field in which naturals can be read off and which has an exponential. Every such field
is a kind of scalar, so that the rules of the sampler are evaluated in it without rounding and
without exceptional values. The real numbers are the intended case. The rationals, with a constant
exponential, are a second one in which closed statements can be computed.

Division by zero is zero here. It occurs where the last hole between two segments that touch at its
far side is closed: the merged segment has no length, the ratio of the chances divides by it, and
the weight is zero, while the quotient of binary floating point is infinite.
-/

set_option autoImplicit false

namespace ImpuritySampler

/-- An ordered field with an exponential that turns sums into products. -/
class ExactScalar (α : Type) extends Field α, LinearOrder α, IsStrictOrderedRing α,
    FloorSemiring α where
  exp : α → α
  exp_add : ∀ a b : α, exp (a + b) = exp a * exp b
  exp_pos : ∀ a : α, 0 < exp a

namespace ExactScalar

variable {α : Type} [ExactScalar α]

instance toScalar : Scalar α where
  toAdd := inferInstance
  toSub := inferInstance
  toMul := inferInstance
  toDiv := inferInstance
  toNeg := inferInstance
  toZero := inferInstance
  toOne := inferInstance
  toNatCast := inferInstance
  toOfScientific := inferInstance
  toLT := inferInstance
  toLE := inferInstance
  decidableLT := inferInstance
  decidableLE := inferInstance
  exp := exp
  isFinite := fun _ => true
  floor := fun a => ⌊a⌋₊
  round := fun a => ⌊a + 1 / 2⌋₊

noncomputable instance real : ExactScalar ℝ where
  exp := Real.exp
  exp_add := Real.exp_add
  exp_pos := Real.exp_pos

instance rational : ExactScalar ℚ where
  exp := fun _ => 1
  exp_add := fun _ _ => (one_mul 1).symm
  exp_pos := fun _ => one_pos

end ExactScalar

namespace Scalar

variable {α : Type} [ExactScalar α]

theorem same_iff {a b : α} : Same a b ↔ a = b := antisymm_iff

theorem dot_eq_sum (n : ℕ) (f g : ℕ → α) : dot n f g = ∑ k : Fin n, f k * g k := by
  rw [Fin.sum_univ_eq_sum_range (fun k => f k * g k), dot]
  induction n with
  | zero => rfl
  | succ n ih =>
    rw [List.range_succ, List.foldl_append, ih, Finset.sum_range_succ]
    rfl

theorem exp_pos (a : α) : 0 < exp a := ExactScalar.exp_pos a

theorem exp_add (a b : α) : exp (a + b) = exp a * exp b := ExactScalar.exp_add a b

theorem exp_zero : exp (0 : α) = 1 := by
  have hadd := exp_add (0 : α) 0
  rw [add_zero] at hadd
  exact (mul_eq_left₀ (exp_pos (0 : α)).ne').mp hadd.symm

theorem prod_exp (c : α) (l : List α) : (l.map fun a => exp (c * a)).prod = exp (c * l.sum) := by
  induction l with
  | nil => rw [List.map_nil, List.prod_nil, List.sum_nil, mul_zero, exp_zero]
  | cons a l ih => rw [List.map_cons, List.prod_cons, ih, List.sum_cons, mul_add, exp_add]

end Scalar

namespace Sign

variable {α : Type} [ExactScalar α]

theorem apply_parity (n : ℕ) (a : α) : (ofParity n).apply a = (-1) ^ n * a := by
  rcases Nat.even_or_odd n with h | h
  · rw [ofParity, if_pos (Nat.even_iff.mp h), h.neg_one_pow, one_mul]
    rfl
  · rw [ofParity, if_neg (by rw [Nat.odd_iff.mp h]; decide), h.neg_one_pow, neg_one_mul]
    rfl

end Sign
end ImpuritySampler
