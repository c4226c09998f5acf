import ImpuritySampler.Proofs.Measure.Bins

/-!
# Measurements have values

A consistent state whose inverse matrices have tables can be measured, with any measure that has
room for its colors.
-/

set_option autoImplicit false

namespace ImpuritySampler

open Outcome

variable {α : Type} [ExactScalar α]

theorem Green.accumulate_defined {m : Model α} {s : State α} {g : Green α} (hm : m.Graded)
    (hs : s.Ready m) (hg : g.Sized m.colors) (sign : α) : ∃ e, g.accumulate s m sign = .ok e := by
  have hcolors : s.determinants.length = m.colors := hs.matched.count.trans hs.colors
  exact ⟨_, accumulate_collected (hcolors ▸ hg) hs.matched hs.tables
    (weighable_of_graded (fun _ => hm) hs)⟩

theorem Densities.accumulate_defined {m : Model α} {s : State α} (hs : s.Ready m) {d : Densities α}
    (hd : m.colors ≤ d.sums.length) (sign : α) : ∃ e, d.accumulate s m sign = .ok e := by
  rw [accumulate_eq]
  refine exists_bind ?_ fun _ _ => ⟨_, rfl⟩
  obtain ⟨l, hl, -⟩ := exists_foldlM (I := fun l : List α => l.length = d.sums.length)
    (l := s.config.lines.zipIdx) (f := addLine m sign) (fun x hx l hl => by
      have hx : s.config.lines[x.2]? = some x.1 := List.mem_zipIdx_iff_getElem?.mp hx
      obtain ⟨y, hy⟩ : ∃ y, x.1.occupied = .ok y :=
        ⟨_, (hs.matched.valid x.1 (List.mem_of_getElem? hx)).occupied_eq⟩
      have hlt : x.2 < l.length := by
        rw [hl]
        refine lt_of_lt_of_le (List.getElem?_eq_some_iff.mp hx).1 ?_
        exact hs.colors.trans_le hd
      refine ⟨l.set x.2 (l[x.2] + sign * y / m.beta), ?_, by rw [List.length_set, hl]⟩
      rw [addLine, hy, ok_bind, nth_of_lt hlt]
      rfl) rfl
  exact ⟨l, hl⟩

namespace Measure

variable {m : Model α} {s : State α} {v w : Measure α} {vs ws : List (Measure α)}

def Sized (colors : ℕ) : Measure α → Prop
  | .green g => g.Sized colors
  | .densities d => colors ≤ d.sums.length
  | .orders _ => True
  | .sign _ => True

omit [ExactScalar α] in
theorem Sized.of_alike {colors : ℕ} (h : v.Sized colors) (hw : w.Alike v) : w.Sized colors := by
  cases hw with
  | green hg => exact Green.Sized.of_alike h hg
  | densities hd => exact h.trans_eq hd.symm
  | orders => exact trivial
  | sign => exact trivial

theorem Fresh.sized {colors : ℕ} {beta : α} (h : v.Fresh colors beta) : v.Sized colors := by
  cases h with
  | green hpoints improved =>
    refine ⟨le_refl _, Nat.zero_lt_of_lt hpoints, fun f hf => ?_⟩
    cases improved with
    | false => cases hf
    | true =>
      cases hf
      rfl
  | densities => exact (List.length_replicate).ge
  | orders => exact trivial
  | sign => exact trivial

theorem accumulate_defined (hm : m.Graded) (hs : s.Ready m) (hv : v.Sized m.colors) (x : α) :
    ∃ w, v.accumulate s m x = .ok w := by
  cases v with
  | green g => exact exists_bind (Green.accumulate_defined hm hs hv x) fun _ _ => ⟨_, rfl⟩
  | densities d => exact exists_bind (Densities.accumulate_defined hs hv x) fun _ _ => ⟨_, rfl⟩
  | orders o => exact ⟨_, rfl⟩
  | sign a => exact ⟨_, rfl⟩

theorem measured_defined (hm : m.Graded) {xs : List (State α × α)} (hs : ∀ x ∈ xs, x.1.Ready m)
    (hv : ∀ v ∈ vs, v.Sized m.colors) : ∃ ws, measured m vs xs = .ok ws := by
  obtain ⟨ws, hws, -⟩ := exists_foldlM
    (I := fun vs : List (Measure α) => ∀ v ∈ vs, v.Sized m.colors) (l := xs)
    (f := fun vs x => accumulateAll vs x.1 m x.2) (fun x hx vs hv => by
      obtain ⟨ws, hws⟩ := exists_mapM fun v hmem =>
        accumulate_defined hm (hs x hx) (hv v hmem) x.2
      exact ⟨ws, hws, of_mapM (fun _ _ hv h => hv.of_alike (accumulate_alike h)) hv hws⟩) hv
  exact ⟨ws, hws⟩

end Measure

end ImpuritySampler
