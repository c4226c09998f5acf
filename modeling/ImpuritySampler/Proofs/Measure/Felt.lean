import ImpuritySampler.Proofs.Line.Occupation
import ImpuritySampler.Proofs.Move.Attempt
import ImpuritySampler.Measure.Green

/-!
# What an annihilation feels

The improved estimator reads the occupations below an annihilation and the slopes of the kernels at
its distance from all other operators. On a consistent state all of them are there, if the tables of
the slopes are those of all pairs of colors.
-/

set_option autoImplicit false

namespace ImpuritySampler

open Outcome

variable {α : Type} [ExactScalar α]

/-- A model whose slopes can be read. -/
structure Model.Graded (m : Model α) : Prop where
  beta : 0 < m.beta
  shape : m.interaction.HasShape m.colors m.colors
  slope : ∀ r, m.retarded = some r → r.slope.Readable m.beta m.colors
  spinSlope : ∀ f, m.spinSlope = some f → f.Readable m.beta m.colors

/-- A state of a model that can be measured. -/
structure State.Ready (m : Model α) (s : State α) : Prop where
  matched : s.Matched m.beta
  colors : s.config.colors = m.colors
  tables : s.Tabulated

theorem Model.graded_of_ofParams {p : Params α} {m : Model α} (h : ofParams p = .ok m)
    (hr : ∀ r, p.retarded = some r → r.slope.Square)
    (hf : ∀ f, p.spinSlope = some f → f.Square) : m.Graded := by
  obtain ⟨hnone, rfl⟩ := ofParams_eq_ok.mp h
  refine ⟨(Params.sound hnone).beta, ⟨rfl, rfl⟩, fun r (hretarded : p.retarded = some r) => ?_,
    fun f (hspin : p.kernel? .spinSlope = some f) =>
      Params.kernel_readable hnone hspin (hf f hspin).numbered⟩
  have hslope : p.kernel? .retardedSlope = some r.slope := by
    rw [Params.kernel?, hretarded, Option.map_some]
  exact Params.kernel_readable hnone hslope (hr r hretarded).numbered

namespace LocalRatio

theorem flat_slopes : ∀ r, flat.retarded = some r → r.slope.Square := by
  intro r hr
  cases hr
  exact MeshFunction.constant_square _ _ _

theorem flat_spinless : ∀ f, flat.spinSlope = some f → f.Square := fun _ hf => nomatch hf

theorem flat_graded : flatModel.Graded :=
  Model.graded_of_ofParams ofParams_flat flat_slopes flat_spinless

end LocalRatio

theorem MeshFunction.Readable.value_zero {f : MeshFunction α} {beta : α} {n a b : ℕ}
    (h : f.Readable beta n) (ha : a < n) (hbn : b < n) :
    ∃ x, f.value 0 a b = .ok x := by
  have hvalue := h.value ticksPerPeriod_pos ha hbn
  rw [Time.scale_zero] at hvalue
  exact ⟨_, hvalue⟩

namespace Green

variable {m : Model α} {s : State α} {color other : ℕ} {t : Time α}

section Parts

variable (m : Model α) (color : ℕ) (t : Time α) (l : Line α) (other : ℕ) (occupation felt : α)

def instantaneousPart : Outcome α α :=
  if other = color then .ok felt
  else do pure (felt + (← m.coupling other color) * occupation)

def retardedPart : Outcome α α :=
  match m.retarded with
  | none => .ok felt
  | some r => do
    let x ← l.coupling t .plus r.slope other color
    if other = color then pure (felt - x - ((2 : ℕ) : α) * (← r.slope.value 0 other other))
    else pure (felt - x)

def spinPart : Outcome α α :=
  match m.spinSlope with
  | none => .ok felt
  | some slope => do
    let y ← slope.value 0 other color
    let x ← l.coupling t .plus slope other color
    pure (felt - ((4 : ℕ) : α) * y * occupation - ((2 : ℕ) : α) * x)

theorem feltFrom_eq : feltFrom m color t l other felt = (do
    let occupied ← l.occupiedBelow t
    let occupation : α := if occupied then 1 else 0
    let felt ← instantaneousPart m color other occupation felt
    let felt ← retardedPart m color t l other felt
    spinPart m color t l other occupation felt) := by
  rw [feltFrom]
  refine bind_congr fun occupied => ?_
  cases hr : m.retarded <;> cases hf : m.spinSlope <;> by_cases hother : other = color <;>
    simp only [instantaneousPart, retardedPart, spinPart, hr, hf, hother, if_true, if_false,
      ok_bind, pure_eq, bind_assoc]

end Parts

theorem feltFrom_defined (hm : m.Graded) {l : Line α} (hl : ∀ s ∈ l, s.OnCycle m.beta)
    (hcolor : color < m.colors) (hother : other < m.colors) (ht : t.IsPoint m.beta) (total : α) :
    ∃ x, feltFrom m color t l other total = .ok x := by
  have hb := hm.beta
  rw [feltFrom_eq]
  refine exists_bind ⟨_, Line.occupiedBelow_eq hb hl ht⟩ fun _ _ => exists_bind ?_ fun _ _ =>
    exists_bind ?_ fun _ _ => ?_
  · rw [instantaneousPart, Model.coupling_eq hm.shape hother hcolor]
    split_ifs <;> exact ⟨_, rfl⟩
  · rw [retardedPart]
    cases hr : m.retarded with
    | none => exact ⟨_, rfl⟩
    | some r =>
      have hslope := hm.slope r hr
      obtain ⟨x, hx⟩ := Line.coupling_defined hslope hb hl ht .plus hother hcolor
      obtain ⟨y, hy⟩ := hslope.value_zero hother hother
      simp only [hx, hy, ok_bind]
      split_ifs <;> exact ⟨_, rfl⟩
  · rw [spinPart]
    cases hf : m.spinSlope with
    | none => exact ⟨_, rfl⟩
    | some f =>
      have hslope := hm.spinSlope f hf
      obtain ⟨x, hx⟩ := Line.coupling_defined hslope hb hl ht .plus hother hcolor
      obtain ⟨y, hy⟩ := hslope.value_zero hother hcolor
      simp only [hx, hy, ok_bind]
      exact ⟨_, rfl⟩

theorem felt_defined (hm : m.Graded) (hs : s.Ready m) (hcolor : color < m.colors)
    (ht : t.IsPoint m.beta) : ∃ x, felt s m color t = .ok x := by
  rw [felt, Configuration.zipIdx_lines, List.foldlM_map]
  refine exists_foldlM_of_steps (fun k hk total => ?_) 0
  have hk := List.mem_range.mp hk
  exact feltFrom_defined hm (hs.matched.valid.onCycle.lineAt hk) hcolor (hs.colors ▸ hk) ht total

end Green

end ImpuritySampler
