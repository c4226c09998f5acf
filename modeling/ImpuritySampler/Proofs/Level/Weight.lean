import ImpuritySampler.Proofs.Determinant.Undo
import ImpuritySampler.Proofs.Level.Stairs
import ImpuritySampler.Proofs.Line.Alternate
import ImpuritySampler.Proofs.LocalRatio.Undo
import ImpuritySampler.Proofs.Shift.Determinant

/-!
# The determinant of one level

With a single bath level, an element is a factor of its creation, a factor of its annihilation, and
one of two values, which depends on the order of the two alone. As creations and annihilations
alternate, these values are stairs: the determinant is the product of the factors, with the sign of
the trace and the chance to find the level filled at the end of the axis, or empty.
-/

set_option autoImplicit false

namespace ImpuritySampler

open Matrix Time

variable {α : Type} [ExactScalar α] {beta e v tau : α}

namespace BathLevel

def vacancy (beta e : α) : α := 1 / (1 + Scalar.exp (-beta * e))

def occupancy (beta e : α) : α := Scalar.exp (-beta * e) / (1 + Scalar.exp (-beta * e))

theorem partition_pos (beta e : α) : 0 < 1 + Scalar.exp (-beta * e) :=
  add_pos one_pos (Scalar.exp_pos _)

theorem vacancy_pos (beta e : α) : 0 < vacancy beta e := one_div_pos.mpr (partition_pos beta e)

theorem occupancy_pos (beta e : α) : 0 < occupancy beta e :=
  div_pos (Scalar.exp_pos _) (partition_pos beta e)

theorem occupancy_add_vacancy (beta e : α) : occupancy beta e + vacancy beta e = 1 := by
  rw [occupancy, vacancy, ← add_div, add_comm, div_self (partition_pos beta e).ne']

theorem exp_mul_vacancy (beta e : α) :
    Scalar.exp (-beta * e) * vacancy beta e = occupancy beta e := mul_one_div _ _

theorem propagator_eq (e beta tau : α) :
    propagator e beta tau = Scalar.exp (-e * tau) * vacancy beta e := by
  rw [propagator]
  split_ifs with h
  · rw [vacancy, mul_one_div]
  · have hinverse := LocalRatio.exp_neg_mul_exp (beta * e)
    have hnum : Scalar.exp (e * (beta - tau)) =
        Scalar.exp (-e * tau) * Scalar.exp (beta * e) := by
      rw [← Scalar.exp_add]
      congr 1
      ring
    rw [← neg_mul] at hinverse
    rw [vacancy, mul_one_div, hnum,
      div_eq_div_iff (add_pos (Scalar.exp_pos _) one_pos).ne' (partition_pos beta e).ne',
      mul_assoc, mul_add, mul_one, mul_comm (Scalar.exp (beta * e)) (Scalar.exp (-beta * e)),
      hinverse]

end BathLevel

open BathLevel

theorem exp_gap {m n : ℕ} (hn : n < ticksPerPeriod) (beta e : α) :
    Scalar.exp (-e * scale (gap m n) beta) =
      Scalar.exp (-e * scale m beta) * Scalar.exp (e * scale n beta) *
        if n ≤ m then 1 else Scalar.exp (-beta * e) := by
  rw [scale_gap hn]
  split_ifs with h
  · rw [mul_one, ← Scalar.exp_add]
    congr 1
    ring
  · rw [← Scalar.exp_add, ← Scalar.exp_add]
    congr 1
    ring

namespace Hybridization

def single (beta e v : α) : Hybridization α := .bath beta [⟨e, [v]⟩]

theorem single_value (beta e v tau : α) :
    (single beta e v).value tau 0 0 =
      .ok (-(v * v * (Scalar.exp (-e * tau) * vacancy beta e))) := by
  have hvalue : (single beta e v).value tau 0 0 = .ok (-0 + -v * v * propagator e beta tau) := rfl
  rw [hvalue, propagator_eq, neg_zero, zero_add, neg_mul, neg_mul]

/-- An element is a factor of each key and a value for their order. -/
theorem single_element {x y : Key α} (hx : x.time.IsPoint beta ∧ x.orbital = 0)
    (hy : y.time.IsPoint beta ∧ y.orbital = 0) :
    (single beta e v).element x y =
      .ok (v * Scalar.exp (-e * scale x.time.ticks beta) *
        (v * Scalar.exp (e * scale y.time.ticks beta) *
          if y.time.ticks ≤ x.time.ticks then -vacancy beta e else occupancy beta e)) := by
  rw [element, Time.sub_eq hx.1 hy.1, Outcome.ok_bind, hx.2, hy.2, Time.value, single_value,
    Outcome.ok_bind, Outcome.pure_eq, exp_gap hy.1.lt]
  congr 1
  split_ifs
  · ring
  · rw [← exp_mul_vacancy]
    ring

end Hybridization

theorem Keyed.prod_exp {keys : List (Key α)} {n : ℕ} {x : Fin n → Key α} {m : Line α}
    {time : Segment α → Time α} (h : Keyed beta keys (m.map fun s => (time s).ticks))
    (hx : keys = List.ofFn x) (hm : ∀ s ∈ m, (time s).period = beta) (v c : α) :
    ∏ i, v * Scalar.exp (c * scale (x i).time.ticks beta) =
      v ^ n * Scalar.exp (c * (m.map fun s => (time s).value).sum) := by
  have hvalue : (m.map fun s => (time s).value) =
      (m.map fun s => (time s).ticks).map fun t => scale t beta := by
    rw [List.map_map]
    refine List.map_congr_left fun s hs => ?_
    rw [Function.comp_apply, Time.value, hm s hs]
  rw [Finset.prod_mul_distrib, Finset.prod_const, Finset.card_univ, Fintype.card_fin,
    h.prod_eq hx fun t => Scalar.exp (c * scale t beta), hvalue, ← Scalar.prod_exp]
  simp only [List.map_map]
  rfl

def Determinant.OneLevel (beta : α) (d : LineDeterminant α) : Prop :=
  ∃ e v, v ≠ 0 ∧ d.element = (Hybridization.single beta e v).element

namespace Line

variable {l : Line α} {D : LineDeterminant α}

/-- The chance to find the level as it is at the end of the axis. -/
def ending (l : Line α) (beta e : α) : α := if l.wraps then vacancy beta e else occupancy beta e

theorem ending_pos (l : Line α) (beta e : α) : 0 < l.ending beta e := by
  rw [ending]
  split_ifs
  · exact vacancy_pos beta e
  · exact occupancy_pos beta e

theorem det_order {n : ℕ} {l : Line α} (hn : l.length = n) (hl : l ≠ []) (beta e : α) :
    l.traceSign.toScalar * (of fun i j : Fin n => if (if l.wraps then i ≤ j else i < j) then
      -vacancy beta e else occupancy beta e).det = l.ending beta e := by
  obtain ⟨k, rfl⟩ : ∃ k, n = k + 1 := Nat.exists_eq_succ_of_ne_zero fun h =>
    hl (List.eq_nil_of_length_eq_zero (hn.trans h))
  have hsub : occupancy beta e - -vacancy beta e = 1 := by
    rw [sub_neg_eq_add, occupancy_add_vacancy]
  rw [traceSign_eq, ending]
  cases l.wraps with
  | true =>
    simp only [if_true]
    rw [det_stairs_above hsub, Sign.toScalar_ofParity, hn, ← mul_assoc, ← pow_add,
      mul_neg, ← neg_mul, ← neg_one_mul, ← pow_succ',
      (show Even (k + 1 + k + 1) by grind).neg_one_pow, one_mul]
  | false =>
    simp only [if_neg Bool.false_ne_true]
    exact (one_mul _).trans (det_stairs hsub)

/-- The determinant of one level has the sign of the trace. -/
theorem HeldBy.single_det (h : l.HeldBy beta D) (hv : l.Valid beta) (ht : Tidy l) (hl : l ≠ [])
    (hD : D.element = (Hybridization.single beta e v).element) :
    ∃ A : Matrix (Fin l.length) (Fin l.length) α, D.HasMatrix A ∧
      l.traceSign.toScalar * A.det = v ^ (2 * l.length) *
        Scalar.exp (e * ((l.map (·.annihilation.value)).sum - (l.map (·.creation.value)).sum)) *
        l.ending beta e := by
  have hrows := h.rows
  have hcols := h.cols
  rw [ht.bounded] at hrows hcols
  obtain ⟨x, hx⟩ := exists_ofFn (n := l.length) (l := D.rowKeys)
    (by simpa using hrows.perm.length_eq)
  obtain ⟨y, hy⟩ := exists_ofFn (n := l.length) (l := D.colKeys)
    (by simpa using hcols.perm.length_eq)
  have horder : ∀ i j : Fin l.length, (y j).time.ticks ≤ (x i).time.ticks ↔
      if l.wraps then i ≤ j else i < j := fun i j =>
    h.alternate ht (by simp [hx]) (by simp [hy])
  have hpoint : ∀ s ∈ l, s.annihilation.IsPoint beta ∧ s.creation.IsPoint beta := fun s hs =>
    (hv.onCycle s hs).points (ht.not_whole hs)
  refine ⟨of fun i j => v * Scalar.exp (-e * scale (x i).time.ticks beta) *
    of (fun i j => v * Scalar.exp (e * scale (y j).time.ticks beta) *
      of (fun i j : Fin l.length => if (if l.wraps then i ≤ j else i < j) then
        -vacancy beta e else occupancy beta e) i j) i j,
    Determinant.hasMatrix_ofFn hx hy fun i j => ?_, ?_⟩
  · rw [hD, Hybridization.single_element (hrows.points _ (hx ▸ List.mem_ofFn.mpr ⟨i, rfl⟩))
      (hcols.points _ (hy ▸ List.mem_ofFn.mpr ⟨j, rfl⟩)), if_congr (horder i j) rfl rfl]
    rfl
  · rw [det_mul_column, det_mul_row,
      hrows.prod_exp hx (fun s hs => (hpoint s hs).2.period), hcols.prod_exp hy
        (fun s hs => (hpoint s hs).1.period), ← det_order rfl hl]
    have hexp : ∀ a c : α, Scalar.exp (e * (a - c)) = Scalar.exp (-e * c) * Scalar.exp (e * a) :=
      fun a c => by
        rw [← Scalar.exp_add]
        congr 1
        ring
    rw [hexp, two_mul, pow_add]
    ring

theorem HeldBy.single_pos (h : l.HeldBy beta D) (hv : l.Valid beta) (hD : D.OneLevel beta) {n : ℕ}
    {A : Matrix (Fin n) (Fin n) α} (hA : D.HasMatrix A) : 0 < l.traceSign.toScalar * A.det := by
  obtain ⟨e, v, hne, helement⟩ := hD
  by_cases hl : l.bounded = []
  · obtain rfl : n = 0 := by
      rw [← (Determinant.hasMatrix_iff.mp hA).1]
      simpa [hl] using h.rows.perm.length_eq
    rw [hv.traceSign_bounded hl, Matrix.det_fin_zero, mul_one]
    exact one_pos
  · have ht : Tidy l := hv.shape.resolve_left fun ⟨s, hs, hw⟩ => hl (by rw [hs, bounded_whole hw])
    obtain ⟨B, hB, hdet⟩ := h.single_det hv ht (fun hnil => hl (by rw [hnil]; rfl)) helement
    obtain ⟨rfl, rfl⟩ := hA.unique hB rfl rfl rfl
    rw [hdet]
    exact mul_pos (mul_pos (Even.pow_pos (even_two_mul _) hne) (Scalar.exp_pos _))
      (l.ending_pos beta e)

end Line

end ImpuritySampler
