import ImpuritySampler.Proofs.Move.Assemble
import ImpuritySampler.Proofs.Move.Trial

/-!
# What the moves can reach

From any configuration the four moves lead to any other one that leaves room on its lines, one line
after the other, through the empty line. Insertion and removal alone never fill a line: the segments
that they put in have ends.
-/

set_option autoImplicit false

namespace ImpuritySampler

open Line Relation

variable {α : Type} {beta : α} {l m : Line α} {x : Draw α} {change : Change α}

theorem Draw.Edits.tidy (hv : l.Valid beta) (h : Edits beta l x change m)
    (hkind : x.kind = .insert ∨ x.kind = .remove) : m.Tidy := by
  cases h with
  | insert _ _ _ _ _ hfits _ => exact hfits.tidy_put hv
  | remove _ ht => exact ht.eraseIdx _
  | split => simp [kind] at hkind
  | regroup => simp [kind] at hkind

namespace Configuration

variable {a b c d : Configuration α} {color : ℕ}

structure On (beta : α) (c : Configuration α) : Prop where
  period : c.beta = beta
  valid : c.Valid beta

theorem On.setLine (h : c.On beta) (hl : l.Valid beta) (color : ℕ) : (c.setLine color l).On beta :=
  ⟨h.period, h.valid.setLine hl color⟩

theorem eq_of_lineAt (hperiod : c.beta = d.beta) (hcolors : c.colors = d.colors)
    (h : ∀ k < c.colors, c.lineAt k = d.lineAt k) : c = d := by
  obtain ⟨_, lines⟩ := c
  obtain ⟨_, lines'⟩ := d
  cases hperiod
  congr 1
  refine List.ext_getElem hcolors fun k hk hk' => ?_
  have hline := h k hk
  rwa [lineAt, lineAt, List.getD_eq_getElem _ _ hk, List.getD_eq_getElem _ _ hk'] at hline

section Steps

variable [ExactScalar α]

/-- One committed proposal leads from `a` to `b`. It is not degenerate, and what is drawn for it can
be drawn. -/
def Moves (a b : Configuration α) : Prop := ∃ color < a.colors, ∃ y : Draw α, y.Restores color a b

def Refills (a b : Configuration α) : Prop :=
  ∃ color < a.colors, ∃ y : Draw α, (y.kind = .insert ∨ y.kind = .remove) ∧ y.Reaches color a b

/-- What a mover draws and accepts is reached by a draw of its kind. -/
theorem accept_reaches {v : Mover α} {s : State α} {model : Model α} {r : Random}
    {x : Offer α × Random} {y : Sign × Mover α × State α}
    (hx : Proposal.draw v.kind s model r = .ok x)
    (hy : (v.hold x.1).accept x.1.state = .ok y) : ∃ color < s.config.colors, ∃ z : Draw α,
      z.kind = v.kind ∧ z.Reaches color s.config y.2.2.config := by
  obtain ⟨color, -, -, hcolor, hnone | ⟨z, hkind, hpossible, ho⟩⟩ := Proposal.draw_possible hx
  · rw [hnone] at hy
    cases hy
  obtain ⟨o, r'⟩ := x
  refine ⟨color, hcolor, z, hkind, s, model, o, ?_⟩
  cases Proposal.propose_opened ho with
  | degenerate => cases hy
  | priced htries _ =>
    obtain ⟨_, -, hy⟩ := Outcome.bind_eq_ok.mp hy
    obtain ⟨_, -, hy⟩ := Outcome.bind_eq_ok.mp hy
    obtain ⟨config, hconfig, hy⟩ := Outcome.bind_eq_ok.mp hy
    obtain ⟨_, -, hy⟩ := Outcome.bind_eq_ok.mp hy
    cases hy
    exact ⟨_, _, rfl, hpossible, ho, rfl, htries.config ▸ hconfig⟩

section Build

variable (hb : 0 < beta)

include hb

theorem On.moves_line (hc : c.On beta) (hcolor : color < c.colors)
    (h : ReflTransGen (Edited beta) (c.lineAt color) l) :
    ReflTransGen Moves c (c.setLine color l) := by
  induction h with
  | refl => rw [setLine_lineAt hcolor]
  | @tail m l _ hedited ih =>
    obtain ⟨hvalid, x, change, hedit⟩ := hedited
    have hlt : color < (c.setLine color m).colors := by rwa [colors_setLine]
    have hrestores := Draw.Edits.restores hb hlt (hc.setLine hvalid color).valid
      (hc.setLine hvalid color).period (by rwa [line_setLine hcolor])
    rw [setLine_setLine] at hrestores
    exact ih.tail ⟨color, hlt, x, hrestores⟩

theorem On.moves_lines (ha : a.On beta) (hbo : b.On beta) (hcolors : a.colors = b.colors)
    (hroom : ∀ l ∈ b.lines, l.Roomy) : ∀ k ≤ a.colors, ∃ c, ReflTransGen Moves a c ∧ c.On beta ∧
      c.colors = a.colors ∧ ∀ j, c.lineAt j = if j < k then b.lineAt j else a.lineAt j := by
  intro k
  induction k with
  | zero => exact fun _ => ⟨a, .refl, ha, rfl, fun j => (if_neg (Nat.not_lt_zero j)).symm⟩
  | succ k ih =>
    intro hk
    obtain ⟨c, hac, hc, hn, hlines⟩ := ih (Nat.le_of_succ_le hk)
    have hkc : k < c.colors := hn ▸ hk
    have hkb : k < b.colors := hcolors ▸ hk
    have hvalid := hbo.valid.lineAt hkb
    have hline := (hc.valid.lineAt hkc).emptied.trans
      (hvalid.assembled (hroom _ (List.mem_of_getElem? (getElem?_lines hkb))))
    refine ⟨c.setLine k (b.lineAt k), hac.trans (hc.moves_line hb hkc hline),
      hc.setLine hvalid k, colors_setLine.trans hn, fun j => ?_⟩
    rw [lineAt_setLine hkc, hlines]
    rcases lt_trichotomy j k with hj | rfl | hj
    · rw [if_neg hj.ne, if_pos hj, if_pos (hj.trans (Nat.lt_succ_self k))]
    · rw [if_pos rfl, if_pos (Nat.lt_succ_self j)]
    · rw [if_neg hj.ne', if_neg hj.asymm, if_neg (by omega)]

theorem On.moves (ha : a.On beta) (hbo : b.On beta) (hcolors : a.colors = b.colors)
    (hroom : ∀ l ∈ b.lines, l.Roomy) : ReflTransGen Moves a b := by
  obtain ⟨c, hac, hc, hn, hlines⟩ := ha.moves_lines hb hbo hcolors hroom a.colors le_rfl
  have hcb : c = b := eq_of_lineAt (hc.period.trans hbo.period.symm) (hn.trans hcolors)
    fun k hk => (hlines k).trans (if_pos (hn ▸ hk))
  exact hcb ▸ hac

theorem Refills.tidy (ha : a.On beta) (ht : ∀ k < a.colors, (a.lineAt k).Tidy)
    (h : a.Refills c) : c.On beta ∧ ∀ k < c.colors, (c.lineAt k).Tidy := by
  obtain ⟨color, hcolor, y, hkind, hreaches⟩ := h
  obtain ⟨change, hedit, hset⟩ := hreaches.edits hb hcolor ha.valid ha.period
  have hline := ha.valid.lineAt hcolor
  have hopen : ¬y.ClosesLast (a.lineAt color) := by
    cases y with
    | regroup => simp [Draw.kind] at hkind
    | insert | remove | split => exact id
  rw [hset]
  refine ⟨ha.setLine (hedit.valid hline hopen) color, fun k hk => ?_⟩
  rw [lineAt_setLine hcolor]
  split_ifs
  · exact hedit.tidy hline hkind
  · exact ht k (by rwa [colors_setLine] at hk)

end Build

end Steps

noncomputable def filled : Configuration ℝ := ⟨1, [[whole 1]]⟩

end Configuration

end ImpuritySampler
