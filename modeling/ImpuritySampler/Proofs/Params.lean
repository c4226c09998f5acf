import ImpuritySampler.Proofs.MeshFunction
import ImpuritySampler.Model

/-!
# What the rules of parameters say

Parameters without a problem, and the model that is taken from them.
-/

set_option autoImplicit false

namespace ImpuritySampler

namespace Params

section Rules

variable {α : Type} [Scalar α] {p : Params α} {name : KernelName} {f : MeshFunction α}

omit [Scalar α] in
theorem problemWhen_eq_none {q : Prop} [Decidable q] {problem : Problem α} :
    problemWhen q problem = none ↔ ¬q := by
  by_cases h : q <;> simp [problemWhen, h]

theorem lineProblem_none {beta : α} {color : ℕ} {h : Hybridization α}
    (hn : lineProblem? beta color h = none) : ¬differentBeta h.beta beta = true ∧ h.dim = 1 ∧
      ∀ b levels, h = .bath b levels → ∀ v ∈ levels, v.couplings.length = 1 := by
  rw [lineProblem?.eq_def, Option.orElse_eq_none, Option.orElse_eq_none, problemWhen_eq_none,
    problemWhen_eq_none] at hn
  obtain ⟨hbeta, hdim, hlevels⟩ := hn
  refine ⟨hbeta, not_not.mp hdim, ?_⟩
  rintro b levels rfl v hv
  obtain ⟨i, hi⟩ := List.mem_iff_getElem?.mp hv
  have hlevel := List.findSome?_eq_none_iff.mp hlevels (v, i)
    (List.mem_zipIdx_iff_getElem?.mpr hi)
  exact not_not.mp (problemWhen_eq_none.mp hlevel)

def kernel? (p : Params α) : KernelName → Option (MeshFunction α)
  | .retarded => p.retarded.map Retarded.kernel
  | .retardedSlope => p.retarded.map Retarded.slope
  | .spinSlope => p.spinSlope

theorem kernelProblem_none (h : p.kernelProblem? name f = none) :
    ¬differentBeta f.beta p.beta = true ∧ f.dim = p.colors := by
  rw [kernelProblem?, Option.orElse_eq_none, problemWhen_eq_none, problemWhen_eq_none] at h
  exact ⟨h.1, not_not.mp h.2⟩

theorem lines_checked (h : p.problem? = none) : p.hybridization.length = p.colors ∧
    ∀ c hyb, p.hybridization[c]? = some hyb → lineProblem? p.beta c hyb = none := by
  simp only [problem?, Option.orElse_eq_none] at h
  obtain ⟨-, -, -, hhybridization, -⟩ := h
  rw [hybridizationProblem?, Option.orElse_eq_none, problemWhen_eq_none, not_not] at hhybridization
  exact ⟨hhybridization.1, fun c hyb hc => List.findSome?_eq_none_iff.mp hhybridization.2 (hyb, c)
    (List.mem_zipIdx_iff_getElem?.mpr hc)⟩

theorem kernel_checked (h : p.problem? = none) (hf : p.kernel? name = some f) :
    p.kernelProblem? name f = none := by
  simp only [problem?, Option.orElse_eq_none] at h
  obtain ⟨-, -, -, -, hkernels, -⟩ := h
  rw [kernelsProblem?, Option.orElse_eq_none] at hkernels
  obtain ⟨hretarded, hspin⟩ := hkernels
  cases name with
  | retarded =>
    obtain ⟨r, hr, rfl⟩ := Option.map_eq_some_iff.mp hf
    rw [hr, Option.bind_some, Option.orElse_eq_none] at hretarded
    exact hretarded.1
  | retardedSlope =>
    obtain ⟨r, hr, rfl⟩ := Option.map_eq_some_iff.mp hf
    rw [hr, Option.bind_some, Option.orElse_eq_none] at hretarded
    exact hretarded.2
  | spinSlope =>
    rw [show p.spinSlope = some f from hf] at hspin
    exact hspin

/-- The rules for the model itself; those for the controls of a run are left out. -/
structure Sound (p : Params α) : Prop where
  beta : 0 < p.beta
  finite : Scalar.isFinite p.beta = true
  colors : 0 < p.colors
  symmetric : ∀ c < p.colors, ∀ d < c, Scalar.Same (p.coupling c d) (p.coupling d c)
  hybridizations : p.hybridization.length = p.colors
  periods : ∀ h ∈ p.hybridization, ¬differentBeta h.beta p.beta = true
  blocks : ∀ h ∈ p.hybridization, h.dim = 1
  levels : ∀ b levels, .bath b levels ∈ p.hybridization → ∀ v ∈ levels, v.couplings.length = 1

theorem interaction_symmetric (h : p.interactionProblem? = none) :
    ∀ c < p.colors, ∀ d < c, Scalar.Same (p.coupling c d) (p.coupling d c) := by
  intro c hc d hd
  have hrow := List.findSome?_eq_none_iff.mp h c (List.mem_range.mpr hc)
  rw [Option.orElse_eq_none] at hrow
  have hentry := List.findSome?_eq_none_iff.mp hrow.2 d (List.mem_range.mpr hd)
  exact not_not.mp (problemWhen_eq_none.mp hentry)

theorem sound (h : p.problem? = none) : p.Sound := by
  obtain ⟨hcount, hlines⟩ := lines_checked h
  have hline : ∀ hyb ∈ p.hybridization, ∃ color, lineProblem? p.beta color hyb = none := by
    intro hyb hh
    obtain ⟨i, hi⟩ := List.mem_iff_getElem?.mp hh
    exact ⟨i, hlines i hyb hi⟩
  have hrules := h
  simp only [problem?, Option.orElse_eq_none] at hrules
  obtain ⟨hbeta, hshape, hinteraction, -⟩ := hrules
  rw [betaProblem?, problemWhen_eq_none, not_not] at hbeta
  rw [shapeProblem?, Option.orElse_eq_none, problemWhen_eq_none] at hshape
  refine ⟨hbeta.1, hbeta.2, Nat.pos_of_ne_zero hshape.1, interaction_symmetric hinteraction,
    hcount, fun hyb hh => ?_, fun hyb hh => ?_, fun b levels hh => ?_⟩
  · obtain ⟨color, hc⟩ := hline hyb hh
    exact (lineProblem_none hc).1
  · obtain ⟨color, hc⟩ := hline hyb hh
    exact (lineProblem_none hc).2.1
  · obtain ⟨color, hc⟩ := hline _ hh
    exact (lineProblem_none hc).2.2 b levels rfl

/-- A table whose period is a number and passes for that of the model covers the axis. -/
theorem Sound.covers [Scalar.Tolerant α] (hs : p.Sound) (hf : ¬differentBeta f.beta p.beta = true)
    (hnumber : Scalar.Same f.beta f.beta) {tau : α} (hlow : 0 ≤ tau)
    (hhigh : tau ≤ Time.reach p.beta) : f.Covers tau :=
  Scalar.Tolerant.covers hs.beta hs.finite hnumber (fun h => hf (decide_eq_true h)) hlow hhigh

theorem Sound.tabulated [Scalar.Tolerant α] (hs : p.Sound)
    (hf : ¬differentBeta f.beta p.beta = true) (hf' : f.Square ∧ Scalar.Same f.beta f.beta)
    {n : ℕ} (hn : f.dim = n) : f.Readable p.beta n := by
  obtain ⟨⟨hpoints, hsquare⟩, hnumber⟩ := hf'
  refine ⟨hpoints, hn, hsquare.trans hn, fun k hk => ?_⟩
  obtain ⟨hlow, hhigh⟩ := Scalar.Tolerant.distance hs.beta hs.finite hk
  exact hs.covers hf hnumber hlow hhigh

theorem kernel_readable [Scalar.Tolerant α] (h : p.problem? = none) (hf : p.kernel? name = some f)
    (hs : f.Square ∧ Scalar.Same f.beta f.beta) : f.Readable p.beta p.colors := by
  obtain ⟨hbeta, hdim⟩ := kernelProblem_none (kernel_checked h hf)
  exact (sound h).tabulated hbeta hs hdim

end Rules

end Params

section Models

variable {α : Type} [Scalar α]

theorem Model.ofParams_eq_ok {p : Params α} {m : Model α} :
    ofParams p = .ok m ↔ p.problem? = none ∧
      m = ⟨p.beta, p.mu, Grid.ofFn p.colors p.colors p.coupling, p.retarded, p.spinSlope⟩ := by
  rw [ofParams]
  cases p.problem? with
  | none => simp [eq_comm]
  | some problem => simp

theorem Model.coupling_eq {m : Model α}
    (h : m.interaction.HasShape m.colors m.colors) {k d : ℕ} (hk : k < m.colors)
    (hd : d < m.colors) : m.coupling k d = .ok (m.interaction.entry k d) := by
  obtain ⟨x, hx⟩ : ∃ x, m.interaction.get? k d = some x := by
    have hlt : k * m.interaction.cols + d < m.interaction.data.size := by
      rw [m.interaction.size_eq]
      exact Grid.place_lt (h.1 ▸ hk) (h.2 ▸ hd)
    exact ⟨m.interaction.data[k * m.interaction.cols + d], by
      rw [Grid.get?, if_pos ⟨h.1 ▸ hk, h.2 ▸ hd⟩, Array.getElem?_eq_getElem hlt]⟩
  rw [Model.coupling, Grid.entry, hx, Option.getD_some]

/-- A model whose tables can be read at all colors and all distances on its cycle. -/
structure Model.Regular (m : Model α) : Prop where
  beta : 0 < m.beta
  shape : m.interaction.HasShape m.colors m.colors
  kernel : ∀ r, m.retarded = some r → r.kernel.Readable m.beta m.colors

namespace Model

theorem of_ofParams {p : Params α} {m : Model α} (h : ofParams p = .ok m) : p.Sound ∧
    m = ⟨p.beta, p.mu, Grid.ofFn p.colors p.colors p.coupling, p.retarded, p.spinSlope⟩ := by
  obtain ⟨hnone, hm⟩ := ofParams_eq_ok.mp h
  exact ⟨Params.sound hnone, hm⟩

theorem regular_of_ofParams [Scalar.Tolerant α] {p : Params α} {m : Model α}
    (h : ofParams p = .ok m)
    (hk : ∀ r, p.retarded = some r → r.kernel.Square ∧ Scalar.Same r.kernel.beta r.kernel.beta) :
    m.Regular := by
  obtain ⟨hnone, rfl⟩ := ofParams_eq_ok.mp h
  refine ⟨(Params.sound hnone).beta, ⟨rfl, rfl⟩, fun r (hr : p.retarded = some r) => ?_⟩
  have hkernel : p.kernel? .retarded = some r.kernel := by rw [Params.kernel?, hr, Option.map_some]
  exact Params.kernel_readable hnone hkernel (hk r hr)

end Model

end Models

variable {α : Type} [ExactScalar α]

namespace Params

open Scalar

theorem Sound.coupling_comm {p : Params α} (h : p.Sound) {c d : ℕ} (hc : c < p.colors)
    (hd : d < p.colors) : p.coupling c d = p.coupling d c := by
  rcases lt_trichotomy d c with hlt | rfl | hlt
  · exact same_iff.mp (h.symmetric c hc d hlt)
  · rfl
  · exact (same_iff.mp (h.symmetric d hd c hlt)).symm

theorem differentBeta_self {beta : α} (hb : 0 < beta) : differentBeta beta beta = false := by
  have h : ¬tolerance * beta < Scalar.abs (beta - beta) := by
    rw [sub_self, Scalar.abs, if_neg (lt_irrefl 0), not_lt, tolerance_eq]
    positivity
  exact decide_eq_false h

theorem single_problem {mu : α} {h : Hybridization α} {r : Option (Retarded α)}
    (hline : lineProblem? 1 0 h = none)
    (hkernels : ({ ofModel 1 [mu] [[0]] [h] with retarded := r } : Params α).kernelsProblem? =
      none) : ({ ofModel 1 [mu] [[0]] [h] with retarded := r } : Params α).problem? = none := by
  have hbeta : ({ ofModel 1 [mu] [[0]] [h] with retarded := r } : Params α).betaProblem? = none :=
    problemWhen_eq_none.mpr (not_not.mpr ⟨one_pos, rfl⟩)
  have hshape : ({ ofModel 1 [mu] [[0]] [h] with retarded := r } : Params α).shapeProblem? =
      none := by
    rw [shapeProblem?, Option.orElse_eq_none, problemWhen_eq_none, problemWhen_eq_none]
    refine ⟨Nat.one_ne_zero, not_not.mpr ⟨rfl, ?_⟩⟩
    simp [ofModel, colors]
  have hinteraction : ({ ofModel 1 [mu] [[0]] [h] with retarded := r } :
      Params α).interactionProblem? = none := by
    refine List.findSome?_eq_none_iff.mpr fun c hc => ?_
    obtain rfl : c = 0 := by simpa [ofModel, colors] using hc
    rw [Option.orElse_eq_none, problemWhen_eq_none]
    exact ⟨not_not.mpr (same_iff.mpr rfl), rfl⟩
  have hlines : ({ ofModel 1 [mu] [[0]] [h] with retarded := r } :
      Params α).hybridizationProblem? = none := by
    rw [hybridizationProblem?, Option.orElse_eq_none]
    refine ⟨rfl, List.findSome?_eq_none_iff.mpr fun x hx => ?_⟩
    obtain rfl : x = (h, 0) := by simpa [ofModel] using hx
    exact hline
  simp only [problem?, Option.orElse_eq_none, hbeta, hshape, hinteraction, hlines, hkernels,
    true_and]
  rfl

end Params

end ImpuritySampler
