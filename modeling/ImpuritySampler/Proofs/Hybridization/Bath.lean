import ImpuritySampler.Proofs.Level.Weight

/-!
# Baths

A level is evaluated in one of two forms, by the sign of its energy. Both are one function of the
energy, and in either the exponents stay at or below zero for every time on the axis, its ends
included. The value of a bath is a sum over its levels, of either sign. The matrix elements continue
it to differences of times, which run from minus one period to one period.
-/

set_option autoImplicit false

namespace ImpuritySampler

open Time

theorem Scalar.sum_eq {α : Type} [ExactScalar α] (l : List α) : Scalar.sum l = l.sum := by
  rw [Scalar.sum, neg_zero, List.sum_eq_foldl]

namespace BathLevel

variable {α : Type}

def Couples (level : BathLevel α) (a b : ℕ) : Prop :=
  a < level.couplings.length ∧ b < level.couplings.length

def opposite [Neg α] (level : BathLevel α) : BathLevel α := { level with energy := -level.energy }

theorem value_eq [Scalar α] {level : BathLevel α} {a b : ℕ} (h : level.Couples a b)
    (beta tau : α) : level.value beta tau a b =
      .ok (-level.couplings.getD a 0 * level.couplings.getD b 0 *
        propagator level.energy beta tau) := by
  rw [value, Outcome.nth_of_lt h.1, Outcome.nth_of_lt h.2, List.getD_eq_getElem _ _ h.1,
    List.getD_eq_getElem _ _ h.2]
  rfl

section Exact

variable [ExactScalar α]

theorem propagator_zero (e beta : α) : propagator e beta 0 = vacancy beta e := by
  rw [propagator_eq, mul_zero, Scalar.exp_zero, one_mul]

theorem propagator_final (e beta : α) : propagator e beta beta = occupancy beta e := by
  rw [propagator_eq, ← exp_mul_vacancy, neg_mul_comm, mul_comm e, neg_mul]

theorem propagator_neg (e beta tau : α) :
    propagator (-e) beta tau = propagator e beta (beta - tau) := by
  have hexp : Scalar.exp (-e * (beta - tau)) =
      Scalar.exp (-beta * e) * Scalar.exp (e * tau) := by
    rw [← Scalar.exp_add]
    congr 1
    ring
  have hinverse : Scalar.exp (-beta * e) * Scalar.exp (-beta * -e) = 1 := by
    rw [← Scalar.exp_add, ← mul_add, add_neg_cancel, mul_zero, Scalar.exp_zero]
  rw [propagator_eq, propagator_eq, vacancy, vacancy, neg_neg, hexp, mul_one_div, mul_one_div,
    div_eq_div_iff (partition_pos beta (-e)).ne' (partition_pos beta e).ne']
  linear_combination (-Scalar.exp (e * tau)) * hinverse

end Exact

end BathLevel

@[reducible]
noncomputable def ExactScalar.realWith (exp : ℝ → ℝ) : Scalar ℝ :=
  { (ExactScalar.toScalar : Scalar ℝ) with exp := exp }

namespace BathLevel

variable {e beta tau : ℝ}

/-- No level needs the exponential of a positive number. -/
theorem propagator_realWith {exp : ℝ → ℝ} (hexp : ∀ x ≤ 0, exp x = Real.exp x) (hb : 0 < beta)
    (h0 : 0 ≤ tau) (h1 : tau ≤ beta) :
    @propagator ℝ (ExactScalar.realWith exp) e beta tau = propagator e beta tau := by
  change (if 0 ≤ e then exp (-e * tau) / (1 + exp (-beta * e))
    else exp (e * (beta - tau)) / (exp (beta * e) + 1)) = _
  rw [propagator]
  split_ifs with he
  · rw [hexp (-e * tau) (mul_nonpos_of_nonpos_of_nonneg (neg_nonpos.mpr he) h0),
      hexp (-beta * e) (mul_nonpos_of_nonpos_of_nonneg (neg_nonpos.mpr hb.le) he)]
    rfl
  · rw [hexp (e * (beta - tau)) (mul_nonpos_of_nonpos_of_nonneg (not_le.mp he).le
        (sub_nonneg.mpr h1)),
      hexp (beta * e) (mul_nonpos_of_nonneg_of_nonpos hb.le (not_le.mp he).le)]
    rfl

theorem propagator_pos (e beta tau : ℝ) : 0 < propagator e beta tau := by
  rw [propagator_eq]
  exact mul_pos (Scalar.exp_pos _) (vacancy_pos beta e)

theorem propagator_lt_one (h0 : 0 ≤ tau) (h1 : tau ≤ beta) : propagator e beta tau < 1 := by
  have hbound : ∀ x y : ℝ, x ≤ 0 → Real.exp x < 1 + Real.exp y := fun x y hx =>
    (Real.exp_le_one_iff.mpr hx).trans_lt (lt_add_of_pos_right 1 (Real.exp_pos y))
  rw [propagator]
  split_ifs with he
  · apply (div_lt_one (partition_pos beta e)).mpr
    exact hbound _ _ (mul_nonpos_of_nonpos_of_nonneg (neg_nonpos.mpr he) h0)
  · apply (div_lt_one (add_pos (Scalar.exp_pos _) one_pos)).mpr
    rw [add_comm (Scalar.exp (beta * e))]
    exact hbound _ _ (mul_nonpos_of_nonpos_of_nonneg (not_le.mp he).le (sub_nonneg.mpr h1))

end BathLevel

namespace Hybridization

open BathLevel

/-- The function between two orbitals that gives every level a weight by its energy. -/
def bathSum {α : Type} [ExactScalar α] (levels : List (BathLevel α)) (a b : ℕ) (weight : α → α) :
    α :=
  -(levels.map fun v => v.couplings.getD a 0 * v.couplings.getD b 0 * weight v.energy).sum

section Exact

variable {α : Type} [ExactScalar α] {beta tau : α} {levels : List (BathLevel α)} {a b : ℕ}

theorem bathSum_add (f g : α → α) :
    bathSum levels a b f + bathSum levels a b g = bathSum levels a b fun e => f e + g e := by
  simp only [bathSum, ← neg_add, ← List.sum_map_add, mul_add]

theorem bathSum_opposite (f : α → α) :
    bathSum (levels.map opposite) a b f = bathSum levels a b fun e => f (-e) := by
  rw [bathSum, bathSum, List.map_map]
  rfl

theorem bath_value (h : ∀ v ∈ levels, v.Couples a b) :
    (bath beta levels).value tau a b =
      .ok (bathSum levels a b fun e => propagator e beta tau) := by
  rw [value, Outcome.mapM_eq_ok fun v hv => value_eq (h v hv) beta tau, Outcome.ok_bind,
    Outcome.pure_eq, Scalar.sum_eq]
  rw [bathSum, List.sum_neg, List.map_map]
  simp only [Function.comp_def, neg_mul]

/-- A matrix element is the antiperiodic continuation of the function to differences of times. -/
theorem element_eq (hb : 0 < beta) (h : Hybridization α) {x y : Key α}
    (hx : x.time.IsPoint beta) (hy : y.time.IsPoint beta) :
    h.element x y = if y.time.value ≤ x.time.value
      then h.value (x.time.value - y.time.value) x.orbital y.orbital
      else (-·) <$> h.value (beta - (y.time.value - x.time.value)) x.orbital y.orbital := by
  have hx' : x.time.value = scale x.time.ticks beta := by rw [Time.value, hx.period]
  have hy' : y.time.value = scale y.time.ticks beta := by rw [Time.value, hy.period]
  rw [hx', hy', if_congr (scale_le_scale hb) rfl rfl, element, Time.sub_eq hx hy, Outcome.ok_bind,
    Time.value, scale_gap hy.lt]
  split_ifs with h
  · exact bind_pure _
  · exact bind_pure_comp _ _

end Exact

noncomputable def bathFunction (beta : ℝ) (levels : List (BathLevel ℝ)) (a b : ℕ) (tau : ℝ) : ℝ :=
  bathSum levels a b fun e => Real.exp (-e * tau) / (1 + Real.exp (-beta * e))

variable {beta tau : ℝ} {levels : List (BathLevel ℝ)} {a b : ℕ}

theorem bathFunction_eq (beta : ℝ) (levels : List (BathLevel ℝ)) (a b : ℕ) (tau : ℝ) :
    bathFunction beta levels a b tau = bathSum levels a b fun e => propagator e beta tau := by
  simp only [propagator_eq, vacancy, mul_one_div]
  rfl

theorem bath_eq (h : ∀ v ∈ levels, v.Couples a b) :
    (bath beta levels).value tau a b = .ok (bathFunction beta levels a b tau) := by
  rw [bath_value h, bathFunction_eq]

theorem bath_realWith {exp : ℝ → ℝ} (hexp : ∀ x ≤ 0, exp x = Real.exp x) (hb : 0 < beta)
    (h0 : 0 ≤ tau) (h1 : tau ≤ beta) :
    @value ℝ (ExactScalar.realWith exp) (bath beta levels) tau a b =
      (bath beta levels).value tau a b := by
  have hlevel : (fun v => @BathLevel.value ℝ (ExactScalar.realWith exp) v beta tau a b) =
      fun v => v.value beta tau a b := by
    funext v
    unfold BathLevel.value
    rw [propagator_realWith hexp hb h0 h1]
  exact congrArg (fun f => levels.mapM f >>= fun xs => pure (Scalar.sum xs)) hlevel

theorem bathFunction_zero_add_final (beta : ℝ) (levels : List (BathLevel ℝ)) (a b : ℕ) :
    bathFunction beta levels a b 0 + bathFunction beta levels a b beta =
      bathSum levels a b fun _ => 1 := by
  simp only [bathFunction_eq, bathSum_add, propagator_zero, propagator_final,
    add_comm (vacancy _ _), occupancy_add_vacancy]

theorem bathFunction_opposite (beta : ℝ) (levels : List (BathLevel ℝ)) (a b : ℕ) (tau : ℝ) :
    bathFunction beta (levels.map opposite) a b tau =
      bathFunction beta levels a b (beta - tau) := by
  simp only [bathFunction_eq, bathSum_opposite, propagator_neg]

/-- Over the real numbers, a bath has its closed form at every time on the axis, whatever the signs
of its energies. No exponential of a positive number is taken, and every level has a weight between
zero and one. The values at both ends of the axis add up to the couplings, opposite energies reflect
the function, and the matrix elements continue it with a change of sign after a period. -/
theorem bath_closed_form (hb : 0 < beta) (h : ∀ v ∈ levels, v.Couples a b) :
    (∀ tau, 0 ≤ tau → tau ≤ beta →
      (bath beta levels).value tau a b = .ok (bathFunction beta levels a b tau) ∧
      (∀ exp : ℝ → ℝ, (∀ x ≤ 0, exp x = Real.exp x) →
        @value ℝ (ExactScalar.realWith exp) (bath beta levels) tau a b =
          .ok (bathFunction beta levels a b tau)) ∧
      (∀ v ∈ levels, 0 < propagator v.energy beta tau ∧ propagator v.energy beta tau < 1) ∧
      (bath beta (levels.map opposite)).value tau a b =
        .ok (bathFunction beta levels a b (beta - tau))) ∧
    bathFunction beta levels a b 0 + bathFunction beta levels a b beta =
      bathSum levels a b (fun _ => 1) ∧
    ∀ s t : Time ℝ, s.IsPoint beta → t.IsPoint beta →
      (bath beta levels).element ⟨s, a⟩ ⟨t, b⟩ =
        .ok (if t.value ≤ s.value then bathFunction beta levels a b (s.value - t.value)
          else -bathFunction beta levels a b (beta - (t.value - s.value))) := by
  have hopposite : ∀ v ∈ levels.map opposite, v.Couples a b := by
    intro v hv
    obtain ⟨w, hw, rfl⟩ := List.mem_map.mp hv
    exact h w hw
  refine ⟨fun tau h0 h1 => ⟨bath_eq h, fun exp hexp => ?_, fun v _ => ?_, ?_⟩,
    bathFunction_zero_add_final beta levels a b, fun s t hs ht => ?_⟩
  · rw [bath_realWith hexp hb h0 h1, bath_eq h]
  · exact ⟨propagator_pos v.energy beta tau, propagator_lt_one h0 h1⟩
  · rw [bath_eq hopposite, bathFunction_opposite]
  · rw [element_eq hb _ hs ht]
    split_ifs
    · exact bath_eq h
    · rw [bath_eq h]
      rfl

theorem bath_closed_form_two_levels :
    (0 : ℝ) < 2 ∧ (∀ v ∈ [⟨1, [1, 2]⟩, ⟨-1, [3, 4]⟩], BathLevel.Couples (α := ℝ) v 0 1) ∧
    ∃ first last : ℝ, (bath 2 [⟨1, [1, 2]⟩, ⟨-1, [3, 4]⟩]).value 0 0 1 = .ok first ∧
      (bath 2 [⟨1, [1, 2]⟩, ⟨-1, [3, 4]⟩]).value 2 0 1 = .ok last ∧ first + last = -14 := by
  have hcouples : ∀ v ∈ [⟨1, [1, 2]⟩, ⟨-1, [3, 4]⟩], BathLevel.Couples (α := ℝ) v 0 1 := by
    simp [Couples]
  obtain ⟨hvalue, hends, -⟩ := bath_closed_form two_pos hcouples
  refine ⟨two_pos, hcouples, _, _, (hvalue 0 le_rfl two_pos.le).1, (hvalue 2 two_pos.le le_rfl).1,
    hends.trans ?_⟩
  norm_num [bathSum]

end Hybridization

end ImpuritySampler
