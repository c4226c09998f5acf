import ImpuritySampler.Proofs.Binary64.Tolerance
import ImpuritySampler.Proofs.Hybridization

/-!
# Values that parameters provide

A model can be taken from parameters that obey the rules. Its hybridizations and kernels have a
value at a time exactly if their tables cover the time, have two points to interpolate between,
and have a column for each orbital. The rules ask for the rows alone: a table that comes from a
file, and has not been made from values, may lack the other two. Times in reach are covered by
every table whose period is a number; one whose period is undefined obeys the rules and covers
nothing.
-/

set_option autoImplicit false

namespace ImpuritySampler

variable {α : Type} [Scalar α]

theorem Hybridization.value_defined {beta tau : α} {color : ℕ} {h : Hybridization α}
    (hn : Params.lineProblem? beta color h = none) : (∃ x, h.value tau 0 0 = .ok x) ↔
      ∀ f, h = .tabulated f → f.Covers tau ∧ 2 ≤ f.points ∧ 0 < f.values.cols := by
  obtain ⟨-, hdim, hlevels⟩ := Params.lineProblem_none hn
  cases h with
  | bath b levels =>
    refine iff_of_true (bath_defined (hlevels b levels rfl) b tau) fun f hf => ?_
    cases hf
  | tabulated f =>
    have hrows : 0 < f.values.rows := lt_of_lt_of_eq Nat.zero_lt_one hdim.symm
    refine MeshFunction.value_defined.trans ⟨fun h g hg => ?_, fun h => ?_⟩
    · cases hg
      exact ⟨h.1, h.2.1, h.2.2.2⟩
    · obtain ⟨hcovers, hpoints, hcols⟩ := h f rfl
      exact ⟨hcovers, hpoints, hrows, hcols⟩

theorem Params.kernel?_of_ofParams {p : Params α} {m : Model α} (h : Model.ofParams p = .ok m)
    {name : KernelName} {f : MeshFunction α} (hf : m.kernel name = .ok f) :
    p.kernel? name = some f := by
  obtain ⟨-, rfl⟩ := Model.ofParams_eq_ok.mp h
  rw [Model.kernel] at hf
  split at hf
  · next g hg =>
    cases hf
    cases name <;> exact hg
  · cases hf

theorem Params.table_covers [Scalar.Tolerant α] {p : Params α} {m : Model α} {f : MeshFunction α}
    {tau : α} (hm : Model.ofParams p = .ok m)
    (hf : .tabulated f ∈ p.hybridization ∨ ∃ name, m.kernel name = .ok f)
    (hnumber : Scalar.Same f.beta f.beta) (hlow : 0 ≤ tau) (hhigh : tau ≤ Time.reach p.beta) :
    f.Covers tau := by
  obtain ⟨hnone, -⟩ := Model.ofParams_eq_ok.mp hm
  have hs := sound hnone
  rcases hf with hf | ⟨name, hf⟩
  · exact hs.covers (hs.periods _ hf) hnumber hlow hhigh
  · have hchecked := kernel_checked hnone (kernel?_of_ofParams hm hf)
    exact hs.covers (kernelProblem_none hchecked).1 hnumber hlow hhigh

/-- Parameters that obey the rules make a model, and fail to provide a value exactly at times and
pairs of colors that a table does not reach. If the arithmetic is tolerant, a table whose period is
a number covers all times from zero to the reach of the cycle, which in binary floating point is its
period (`Binary64.le_reach`). A table whose period is undefined passes the rules as well, and has no
value at any time (`IsUndefined.not_differentBeta`, `IsUndefined.value`). -/
theorem Params.values_defined {p : Params α} (h : p.problem? = none) :
    ∃ m, Model.ofParams p = .ok m ∧
      (∀ a < p.colors, ∃ hyb, p.hybridization[a]? = some hyb ∧ ∀ tau,
        (∃ x, hyb.value tau 0 0 = .ok x) ↔
          ∀ f, hyb = .tabulated f → f.Covers tau ∧ 2 ≤ f.points ∧ 0 < f.values.cols) ∧
      (∀ name f, m.kernel name = .ok f → ∀ a < p.colors, ∀ b < p.colors, ∀ tau,
        (∃ x, f.value tau a b = .ok x) ↔ f.Covers tau ∧ 2 ≤ f.points ∧ b < f.values.cols) ∧
      (Scalar.Tolerant α → ∀ f,
        .tabulated f ∈ p.hybridization ∨ (∃ name, m.kernel name = .ok f) →
        Scalar.Same f.beta f.beta → ∀ tau, 0 ≤ tau → tau ≤ Time.reach p.beta → f.Covers tau) := by
  obtain ⟨hcount, hlines⟩ := lines_checked h
  have hm := Model.ofParams_eq_ok.mpr ⟨h, rfl⟩
  refine ⟨_, hm, fun a ha => ?_, fun name f hf a ha b _ tau => ?_,
    fun _ f hf hnumber tau hlow hhigh => table_covers hm hf hnumber hlow hhigh⟩
  · have hget := List.getElem?_eq_getElem (hcount ▸ ha)
    exact ⟨_, hget, fun tau => Hybridization.value_defined (hlines a _ hget)⟩
  · have hdim := (kernelProblem_none (kernel_checked h (kernel?_of_ofParams hm hf))).2
    have hrow : a < f.values.rows := lt_of_lt_of_eq ha hdim.symm
    rw [MeshFunction.value_defined]
    exact ⟨fun ⟨hcovers, hpoints, _, hcol⟩ => ⟨hcovers, hpoints, hcol⟩,
      fun ⟨hcovers, hpoints, hcol⟩ => ⟨hcovers, hpoints, hrow, hcol⟩⟩

namespace Params

def lone : MeshFunction ℚ := ⟨1, Stack.ofFn 1 1 1 fun _ _ _ => 1 / 4⟩

def flat : MeshFunction ℚ := MeshFunction.constant 1 1 fun _ _ => 1 / 4

def lonely : Params ℚ :=
  { ofModel 1 [1 / 2] [[0]] [.bath 1 []] with retarded := some ⟨lone, flat⟩ }

theorem lonely_problem : lonely.problem? = none := by
  have hbeta := differentBeta_self (one_pos : (0 : ℚ) < 1)
  refine single_problem (r := some ⟨lone, flat⟩) ?_ ?_
  · rw [lineProblem?.eq_def, Option.orElse_eq_none, Option.orElse_eq_none, problemWhen_eq_none,
      problemWhen_eq_none]
    exact ⟨ne_true_of_eq_false hbeta, not_not.mpr rfl, rfl⟩
  · rw [kernelsProblem?, Option.orElse_eq_none, Option.bind_some, Option.orElse_eq_none]
    simp only [kernelProblem?, Option.orElse_eq_none, problemWhen_eq_none]
    exact ⟨⟨⟨ne_true_of_eq_false hbeta, not_not.mpr rfl⟩, ne_true_of_eq_false hbeta,
      not_not.mpr rfl⟩, rfl⟩

/-- The rules let a kernel with a single point pass, which has no value at any time. -/
theorem values_defined_lonely : lonely.problem? = none ∧
    ∃ m, Model.ofParams lonely = .ok m ∧ m.kernel .retarded = .ok lone ∧
      (∀ tau, ¬∃ x, lone.value tau 0 0 = .ok x) ∧ ∃ x, flat.value (1 / 2) 0 0 = .ok x := by
  obtain ⟨m, hm, -, hvalue, hcovers⟩ := values_defined lonely_problem
  obtain ⟨-, rfl⟩ := Model.ofParams_eq_ok.mp hm
  refine ⟨lonely_problem, _, hm, rfl, fun tau hx => ?_, ?_⟩
  · have hpoints := ((hvalue .retarded lone rfl 0 one_pos 0 one_pos tau).mp hx).2.1
    exact absurd hpoints (by decide)
  · have hreach : (1 / 2 : ℚ) ≤ Time.reach 1 := by decide +kernel
    have hcovers := hcovers inferInstance flat (.inr ⟨.retardedSlope, rfl⟩)
      (Scalar.same_iff.mpr rfl) (1 / 2) (by decide +kernel) hreach
    exact (hvalue .retardedSlope flat rfl 0 one_pos 0 one_pos (1 / 2)).mpr
      ⟨hcovers, le_refl 2, one_pos⟩

end Params

end ImpuritySampler
