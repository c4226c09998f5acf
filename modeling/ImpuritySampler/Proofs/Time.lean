import ImpuritySampler.Proofs.ExactScalar
import ImpuritySampler.Time
import ImpuritySampler.Word

/-!
# Ways around the cycle

The way forward from one tick to another, what is left of it after a part of it, and its length as a
number.
-/

set_option autoImplicit false

namespace ImpuritySampler

theorem ticksPerPeriod_pos : 0 < ticksPerPeriod := by decide

namespace Time

def behind (left d : ℕ) : ℕ := gap left d % ticksPerPeriod

theorem gap_lt {a : ℕ} (ha : a < ticksPerPeriod) (b : ℕ) : gap a b < ticksPerPeriod := by
  unfold gap
  split <;> omega

theorem gap_pos {a b : ℕ} (hb : b < ticksPerPeriod) (h : a ≠ b) : 0 < gap a b := by
  unfold gap
  split <;> omega

theorem gap_add_gap {a b : ℕ} (ha : a < ticksPerPeriod) (hb : b < ticksPerPeriod) (h : a ≠ b) :
    gap a b + gap b a = ticksPerPeriod := by
  unfold gap
  split_ifs <;> omega

theorem behind_eq {left : ℕ} (hl : left < ticksPerPeriod) (d : ℕ) :
    behind left d = gap left d := Nat.mod_eq_of_lt (gap_lt hl d)

theorem behind_final {d : ℕ} (hd : d < ticksPerPeriod) :
    behind ticksPerPeriod d = if d = 0 then 0 else ticksPerPeriod - d := by
  rw [behind, gap_of_le hd.le]
  split_ifs with h
  · rw [h, Nat.sub_zero, Nat.mod_self]
  · exact Nat.mod_eq_of_lt (by omega)

theorem gap_behind {left x d : ℕ} (hl : left < ticksPerPeriod) (hx : x < ticksPerPeriod)
    (hd : d ≤ gap left x) : gap (behind left d) x = gap left x - d := by
  rw [behind_eq hl]
  unfold gap at *
  split_ifs at * <;> omega

theorem between_iff {x p q t : ℕ} (hx : x < ticksPerPeriod) (hp : p < ticksPerPeriod)
    (hq : q < ticksPerPeriod) (ht : t < ticksPerPeriod) (hpq : gap p x ≤ gap q x) :
    gap t p < gap q p ↔ gap p x ≤ gap t x ∧ gap t x < gap q x := by
  unfold gap at *
  split_ifs at * <;> omega

theorem gap_eq_sub {x p q : ℕ} (hx : x < ticksPerPeriod) (hp : p < ticksPerPeriod)
    (hq : q < ticksPerPeriod) (h : gap p x ≤ gap q x) : gap q p = gap q x - gap p x := by
  unfold gap at *
  split_ifs at * <;> omega

theorem behind_lt (left d : ℕ) : behind left d < ticksPerPeriod :=
  Nat.mod_lt _ ticksPerPeriod_pos

section Scale

variable {α : Type} [ExactScalar α] {beta : α}

theorem scale_zero : scale 0 beta = 0 := by simp [scale]

theorem scale_add (m n : ℕ) (beta : α) : scale (m + n) beta = scale m beta + scale n beta := by
  simp only [scale, Nat.cast_add]
  ring

theorem scale_final : scale ticksPerPeriod beta = beta := by
  have h : (ticksPerPeriod : α) ≠ 0 := Nat.cast_ne_zero.mpr ticksPerPeriod_pos.ne'
  rw [scale, div_self h, one_mul]

theorem scale_strictMono (hb : 0 < beta) {m n : ℕ} (h : m < n) : scale m beta < scale n beta := by
  have hp : (0 : α) < ticksPerPeriod := Nat.cast_pos.mpr ticksPerPeriod_pos
  exact mul_lt_mul_of_pos_right (div_lt_div_of_pos_right (Nat.cast_lt.mpr h) hp) hb

theorem scale_le_scale (hb : 0 < beta) {m n : ℕ} : scale m beta ≤ scale n beta ↔ m ≤ n := by
  have hmono : StrictMono fun n => scale n beta := fun _ _ h => scale_strictMono hb h
  exact hmono.le_iff_le

theorem scale_eq_zero (hb : 0 < beta) {n : ℕ} : scale n beta = 0 ↔ n = 0 := by
  refine ⟨fun h => ?_, fun h => by rw [h, scale_zero]⟩
  by_contra hn
  have hlt := scale_strictMono hb (Nat.pos_of_ne_zero hn)
  rw [scale_zero, h] at hlt
  exact lt_irrefl _ hlt

theorem scale_nonneg (hb : 0 < beta) (n : ℕ) : 0 ≤ scale n beta := by
  rcases Nat.eq_zero_or_pos n with rfl | h
  · rw [scale_zero]
  · have hlt := scale_strictMono hb h
    rw [scale_zero] at hlt
    exact hlt.le

theorem scale_lt (hb : 0 < beta) {n : ℕ} (h : n < ticksPerPeriod) : scale n beta < beta :=
  (scale_strictMono hb h).trans_eq scale_final

/-- The number of a way forward: around the end of the axis it takes a whole period more. -/
theorem scale_gap {m n : ℕ} (hn : n < ticksPerPeriod) (beta : α) : scale (gap m n) beta =
    if n ≤ m then scale m beta - scale n beta else beta - (scale n beta - scale m beta) := by
  split_ifs with h
  · rw [gap_of_le h, eq_sub_iff_add_eq, ← scale_add, Nat.sub_add_cancel h]
  · have hsum : gap m n + n = ticksPerPeriod + m := by
      rw [gap_of_lt (not_le.mp h)]
      omega
    rw [sub_sub_eq_add_sub, eq_sub_iff_add_eq, ← scale_add, hsum, scale_add, scale_final]

end Scale

/-- A period on whose cycle no length but that of zero ticks counts as zero. In floating point, a
length of few ticks underflows if the period is extremely small. -/
class Resolved {α : Type} [Scalar α] (beta : α) : Prop where
  same : Scalar.Same beta beta
  zero : 0 < beta → ∀ n < wordLimit, Scalar.Same (scale n beta) 0 ↔ n = 0

instance {α : Type} [ExactScalar α] (beta : α) : Resolved beta where
  same := Scalar.same_iff.mpr rfl
  zero := fun hb _ _ => Scalar.same_iff.trans (scale_eq_zero hb)

end Time

end ImpuritySampler
