import ImpuritySampler.Proofs.Params
import ImpuritySampler.Proofs.Segment.Occupation

/-!
# Elements of the hybridization matrix

A hybridization of one orbital has a value at every distance on the cycle, so that there is a matrix
element between any two points. The rules of parameters give this for baths. A table needs in
addition that it can be interpolated.
-/

set_option autoImplicit false

namespace ImpuritySampler

section Readings

variable {α : Type} [Scalar α]

theorem BathLevel.value_defined {level : BathLevel α} (h : level.couplings.length = 1)
    (b tau : α) : ∃ x, level.value b tau 0 0 = .ok x := by
  have hget := Outcome.nth_of_lt (α := α) (l := level.couplings) (i := 0) (h ▸ Nat.zero_lt_one)
  rw [value, hget, Outcome.ok_bind, Outcome.ok_bind]
  exact ⟨_, rfl⟩

theorem Hybridization.bath_defined {levels : List (BathLevel α)}
    (h : ∀ v ∈ levels, v.couplings.length = 1) (b tau : α) :
    ∃ x, (Hybridization.bath b levels).value tau 0 0 = .ok x := by
  obtain ⟨xs, hxs⟩ := Outcome.exists_mapM fun v hv => BathLevel.value_defined (h v hv) b tau
  exact ⟨_, by rw [Hybridization.value, hxs, Outcome.ok_bind, Outcome.pure_eq]⟩

/-- One orbital, and a value at every distance on the cycle. -/
inductive Hybridization.Readable (beta : α) : Hybridization α → Prop where
  | bath (b : α) (levels : List (BathLevel α)) (h : ∀ v ∈ levels, v.couplings.length = 1) :
    Readable beta (.bath b levels)
  | tabulated (f : MeshFunction α) (h : f.Readable beta 1) : Readable beta (.tabulated f)

variable {beta : α} {h : Hybridization α}

theorem Hybridization.Readable.value (hr : h.Readable beta) {k : ℕ} (hk : k < ticksPerPeriod) :
    ∃ x, h.value (Time.scale k beta) 0 0 = .ok x := by
  cases hr with
  | bath b levels hl => exact Hybridization.bath_defined hl b _
  | tabulated f hf => exact ⟨_, hf.value hk Nat.zero_lt_one Nat.zero_lt_one⟩

theorem Hybridization.Readable.element [Time.Resolved beta] (hr : h.Readable beta) {x y : Key α}
    (hx : x.time.IsPoint beta ∧ x.orbital = 0) (hy : y.time.IsPoint beta ∧ y.orbital = 0) :
    ∃ v, h.element x y = .ok v := by
  obtain ⟨v, hv⟩ := hr.value (Time.gap_lt hx.1.lt y.time.ticks)
  rw [Hybridization.element, Time.sub_eq hx.1 hy.1, Outcome.ok_bind, hx.2, hy.2, Time.value, hv]
  exact ⟨_, rfl⟩

theorem Params.Sound.readable [Scalar.Tolerant α] {p : Params α} (hs : p.Sound)
    (ht : ∀ f, .tabulated f ∈ p.hybridization → f.Square ∧ Scalar.Same f.beta f.beta)
    (hh : h ∈ p.hybridization) : h.Readable p.beta := by
  cases h with
  | bath b levels => exact .bath b levels (hs.levels b levels hh)
  | tabulated f => exact .tabulated f (hs.tabulated (hs.periods _ hh) (ht f hh) (hs.blocks _ hh))

end Readings

namespace Hybridization

noncomputable def level : Hybridization ℝ := .bath 1 [⟨0, [1]⟩]

theorem level_value (tau : ℝ) : level.value tau 0 0 = .ok (-(1 / 2)) := by
  have hvalue : level.value tau 0 0 = .ok (-0 + -1 * 1 * BathLevel.propagator 0 1 tau) := rfl
  rw [hvalue, BathLevel.propagator, if_pos le_rfl, neg_zero, zero_mul, mul_zero, Scalar.exp_zero]
  norm_num

theorem level_element {x y : Key ℝ} (hx : x.time.IsPoint 1 ∧ x.orbital = 0)
    (hy : y.time.IsPoint 1 ∧ y.orbital = 0) :
    level.element x y = .ok (if y.time.ticks ≤ x.time.ticks then -(1 / 2) else 1 / 2) := by
  rw [element, Time.sub_eq hx.1 hy.1, Outcome.ok_bind, hx.2, hy.2, level_value, Outcome.ok_bind,
    Outcome.pure_eq, neg_neg]

end Hybridization

end ImpuritySampler
