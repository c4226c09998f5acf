import ImpuritySampler.Proofs.Line.Valid
import ImpuritySampler.Configuration.Edit

/-!
# Lines of a configuration

Loops over the lines of a configuration run over the numbers of its colors.
-/

set_option autoImplicit false

namespace ImpuritySampler.Configuration

variable {α : Type} {c : Configuration α} {color : ℕ} {l : Line α}

def lineAt (c : Configuration α) (k : ℕ) : Line α := c.lines.getD k []

def ticks (c : Configuration α) (k : ℕ) : Finset ℕ := Line.ticks (c.lineAt k)

def Valid (beta : α) (c : Configuration α) : Prop := ∀ l ∈ c.lines, l.Valid beta

def OnCycle (beta : α) (c : Configuration α) : Prop := ∀ l ∈ c.lines, ∀ s ∈ l, s.OnCycle beta

theorem getElem?_lines {k : ℕ} (hk : k < c.colors) : c.lines[k]? = some (c.lineAt k) := by
  rw [lineAt, List.getD_eq_getElem?_getD, List.getElem?_eq_getElem hk, Option.getD_some]

theorem line_eq {k : ℕ} (hk : k < c.colors) : c.line k = .ok (c.lineAt k) :=
  Outcome.nth_eq_ok.mpr (getElem?_lines hk)

theorem Valid.lineAt {beta : α} (h : c.Valid beta) {k : ℕ} (hk : k < c.colors) :
    (c.lineAt k).Valid beta := h _ (List.mem_of_getElem? (getElem?_lines hk))

theorem Valid.onCycle {beta : α} (h : c.Valid beta) : c.OnCycle beta := fun l hl => (h l hl).onCycle

theorem OnCycle.lineAt {beta : α} (h : c.OnCycle beta) {k : ℕ} (hk : k < c.colors) :
    ∀ s ∈ c.lineAt k, s.OnCycle beta := h _ (List.mem_of_getElem? (getElem?_lines hk))

theorem colors_setLine : (c.setLine color l).colors = c.colors := List.length_set

theorem lineAt_setLine (hc : color < c.colors) (k : ℕ) :
    (c.setLine color l).lineAt k = if k = color then l else c.lineAt k := by
  rw [lineAt, setLine, List.getD_eq_getElem?_getD]
  rcases eq_or_ne k color with rfl | h
  · rw [if_pos rfl, List.getElem?_set_self hc, Option.getD_some]
  · rw [if_neg h, List.getElem?_set_ne h.symm, lineAt, List.getD_eq_getElem?_getD]

theorem setLine_setLine (k m : Line α) :
    (c.setLine color k).setLine color m = c.setLine color m := by
  rw [setLine, setLine, List.set_set]
  rfl

theorem Valid.setLine {beta : α} (h : c.Valid beta) (hl : l.Valid beta) (k : ℕ) :
    (c.setLine k l).Valid beta := by
  intro m hm
  rcases List.mem_or_eq_of_mem_set hm with hm | rfl
  · exact h m hm
  · exact hl

theorem OnCycle.setLine {beta : α} (h : c.OnCycle beta) (hl : ∀ s ∈ l, s.OnCycle beta) (k : ℕ) :
    (c.setLine k l).OnCycle beta := by
  intro m hm
  rcases List.mem_or_eq_of_mem_set hm with hm | rfl
  · exact h m hm
  · exact hl

theorem zipIdx_lines : c.lines.zipIdx = (List.range c.colors).map fun k => (c.lineAt k, k) := by
  refine List.ext_getElem? fun k => ?_
  by_cases hk : k < c.colors
  · simp [getElem?_lines hk, hk]
  · have hl : c.lines.length ≤ k := not_lt.mp hk
    simp [hl, colors]

end ImpuritySampler.Configuration
