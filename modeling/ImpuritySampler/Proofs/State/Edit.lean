import ImpuritySampler.Proofs.Configuration.Edit
import ImpuritySampler.Proofs.Determinant.Exact
import ImpuritySampler.Proofs.State.Consistent
import ImpuritySampler.State.Trial

/-!
# Editing states

A change of one color replaces its line and its determinant. A trial of a pair of operators, once it
is carried out, leaves a determinant that holds any line with one segment end more, or less, of each
kind: which line that is, is up to the change of the configuration.
-/

set_option autoImplicit false

namespace ImpuritySampler

section Operators

variable {α : Type} {beta : α} {l m : Line α}

/-- The operators of the line `m` are those of `l` and the pair at the given ticks. -/
structure Line.Extends (m l : Line α) (annihilation creation : ℕ) : Prop where
  annihilations : (m.bounded.map (·.annihilation.ticks)).Perm
    (annihilation::l.bounded.map (·.annihilation.ticks))
  creations : (m.bounded.map (·.creation.ticks)).Perm
    (creation::l.bounded.map (·.creation.ticks))

theorem Line.bounded_perm (h : l.Perm m) : l.bounded.Perm m.bounded := h.filter _

theorem Line.bounded_cons {s : Segment α} (hw : ¬s.Whole) : bounded (s::l) = s::l.bounded := by
  simp [bounded, hw]

theorem Line.extends_of_perm {s : Segment α} (hw : ¬s.Whole) (h : m.Perm (s::l)) :
    Extends m l s.annihilation.ticks s.creation.ticks := by
  have hb := bounded_perm h
  rw [bounded_cons hw] at hb
  exact ⟨hb.map _, hb.map _⟩

theorem Line.Extends.not_mem {a c : ℕ} (h : m.Extends l a c) (hm : m.Valid beta) :
    a ∉ l.bounded.map (·.annihilation.ticks) ∧ c ∉ l.bounded.map (·.creation.ticks) := by
  have hann : (m.bounded.map (·.annihilation.ticks)).Nodup :=
    hm.bounded_tidy.falling_annihilations.imp fun hlt => (ne_of_lt hlt).symm
  exact ⟨(List.nodup_cons.mp (h.annihilations.nodup_iff.mp hann)).1,
    (List.nodup_cons.mp (h.creations.nodup_iff.mp hm.bounded_tidy.creations_nodup)).1⟩

theorem Line.HeldBy.length_colKeys {d : LineDeterminant α} (h : l.HeldBy beta d) :
    d.colKeys.length = d.size := by
  have hrows := h.rows.perm.length_eq
  have hcols := h.cols.perm.length_eq
  simp only [List.length_map] at hrows hcols
  exact hcols.trans hrows.symm

end Operators

namespace State

variable {α : Type} {beta : α} {s : State α} {color : ℕ} {l : Line α} {d : LineDeterminant α}

def replace (s : State α) (color : ℕ) (l : Line α) (d : LineDeterminant α) : State α :=
  { s.setDeterminant color d with config := s.config.setLine color l }

theorem Matched.determinant (hs : s.Matched beta) (hc : color < s.config.colors) :
    ∃ d, s.determinants[color]? = some d ∧ (s.config.lineAt color).HeldBy beta d := by
  have hd := List.getElem?_eq_getElem (l := s.determinants) (i := color) (by rwa [hs.count])
  exact ⟨_, hd, hs.held color _ hd⟩

theorem Matched.replace (hs : s.Matched beta) (hc : color < s.config.colors)
    (hl : l.Valid beta) (hd : l.HeldBy beta d) : (s.replace color l d).Matched beta where
  valid := hs.valid.setLine hl color
  count := by
    show (s.determinants.set color d).length = (s.config.setLine color l).colors
    rw [List.length_set, Configuration.colors_setLine, hs.count]
  held := fun k e he => by
    have he : (s.determinants.set color d)[k]? = some e := he
    show ((s.config.setLine color l).lineAt k).HeldBy beta e
    rw [Configuration.lineAt_setLine hc]
    split_ifs with hk
    · subst hk
      rw [List.getElem?_set_self (by rwa [hs.count])] at he
      cases he
      exact hd
    · rw [List.getElem?_set_ne (Ne.symm hk)] at he
      exact hs.held k e he

variable [Scalar α]

/-- The state belongs to a run with the parameters `p`. -/
structure OfParams (p : Params α) (s : State α) : Prop where
  beta : s.config.beta = p.beta
  colors : s.config.colors = p.colors
  elements : ∀ (k : ℕ) (d : LineDeterminant α) (h : Hybridization α),
    s.determinants[k]? = some d → p.hybridization[k]? = some h → d.element = h.element

theorem OfParams.single {p : Params α} {h : Hybridization α} (hb : s.config.beta = p.beta)
    (hc : s.config.colors = p.colors) (hd : s.determinants = [d]) (hp : p.hybridization = [h])
    (he : d.element = h.element) : s.OfParams p := by
  refine ⟨hb, hc, fun k e g hk hg => ?_⟩
  rw [hd] at hk
  rw [hp] at hg
  obtain rfl : k = 0 := by simpa using (List.getElem?_eq_some_iff.mp hk).1
  cases hk
  cases hg
  exact he

theorem OfParams.replace {p : Params α} {d₀ : LineDeterminant α} (h : s.OfParams p)
    (hd₀ : s.determinants[color]? = some d₀) (hd : d.element = d₀.element) :
    (s.replace color l d).OfParams p where
  beta := h.beta
  colors := Configuration.colors_setLine.trans h.colors
  elements := fun k e b he hb => by
    have he : (s.determinants.set color d)[k]? = some e := he
    rcases eq_or_ne color k with rfl | hk
    · rw [List.getElem?_set_self (List.getElem?_eq_some_iff.mp hd₀).1] at he
      cases he
      exact hd.trans (h.elements _ _ _ hd₀ hb)
    · rw [List.getElem?_set_ne hk] at he
      exact h.elements k e b he hb

/-- The state `after` is consistent. One color occupies the ticks `u` in it, and the others are as
in the state `s`. -/
structure Moved (beta : α) (s after : State α) (color : ℕ) (u : Finset ℕ) : Prop where
  consistent : after.Consistent beta
  ticks : after.config.ticks color = u
  lines : ∀ k ≠ color, after.config.lineAt k = s.config.lineAt k
  determinants : ∀ k ≠ color, after.determinants[k]? = s.determinants[k]?

theorem Matched.moved [Time.Resolved beta] (hb : 0 < beta) (hs : s.Matched beta)
    (hc : color < s.config.colors) (hl : l.Valid beta) (hd : l.HeldBy beta d) :
    s.Moved beta (s.replace color l d) color (Line.ticks l) where
  consistent := (consistent_iff hb).mpr (hs.replace hc hl hd)
  ticks := congrArg Line.ticks (Configuration.line_setLine hc l)
  lines := fun k hk => (Configuration.lineAt_setLine hc k).trans (if_neg hk)
  determinants := fun _ hk => List.getElem?_set_ne hk.symm

section Trials

variable {a c : Time α}

/-- A trial opened on the determinant of a color leaves the determinant `d` when it is carried
out. -/
structure Opens (s : State α) (color : ℕ) (x : Outcome α (α × State α)) (ratio : α)
    (t d : LineDeterminant α) : Prop where
  trial : x = .ok (ratio, s.setDeterminant color t)
  commit : t.commit = .ok d
  discard : s.setDeterminant color t.discard = s

omit [Scalar α] in
theorem setDeterminant_self (hd : s.determinants[color]? = some d) :
    s.setDeterminant color d = s := by
  obtain ⟨hlt, rfl⟩ := List.getElem?_eq_some_iff.mp hd
  rw [setDeterminant, List.set_getElem_self]

omit [Scalar α] in
theorem determinant_setDeterminant {t : LineDeterminant α} (hd : s.determinant color = .ok d) :
    (s.setDeterminant color t).determinant color = .ok t :=
  Outcome.nth_eq_ok.mpr
    (List.getElem?_set_self (List.getElem?_eq_some_iff.mp (Outcome.nth_eq_ok.mp hd)).1)

omit [Scalar α] in
theorem discard_idle (h : d.isIdle = true) : d.discard = d := by
  obtain ⟨_, _, _, _, _, trial⟩ := d
  cases trial with
  | idle => rfl
  | insertion t => cases h
  | removal t => cases h

/-- The element rule has a value between a key and all keys that are there, and for two new keys. -/
structure Reads (d : LineDeterminant α) (annihilation creation : Time α) : Prop where
  column : ∀ k ∈ d.rowKeys, ∃ x, d.element k ⟨annihilation, 0⟩ = .ok x
  row : ∀ k ∈ d.colKeys, ∃ x, d.element ⟨creation, 0⟩ k = .ok x
  corner : ∃ x, d.element ⟨creation, 0⟩ ⟨annihilation, 0⟩ = .ok x

omit [Scalar α] in
theorem Reads.adds (h : Reads d a c) :
    ∃ column row corner, d.Adds ⟨c, 0⟩ ⟨a, 0⟩ column row corner := by
  obtain ⟨column, hcolumn⟩ := Outcome.exists_mapM h.column
  obtain ⟨row, hrow⟩ := Outcome.exists_mapM h.row
  obtain ⟨corner, hcorner⟩ := h.corner
  exact ⟨column, row, corner, hcolumn, hrow, hcorner⟩

structure Sorts (d : LineDeterminant α) (a c : Time α) (t : Insertion α (Key α) (Key α)) :
    Prop where
  row : t.row = Line.lowerBound (d.rowKeys.map (·.time)) c
  col : t.col = Line.lowerBound (d.colKeys.map (·.time)) a
  creation : t.x = ⟨c, 0⟩
  annihilation : t.y = ⟨a, 0⟩

theorem Sorts.heldBy {m : Line α} {t : Insertion α (Key α) (Key α)} (h : Sorts d a c t)
    (hd : m.HeldBy beta d) (ha : a.IsPoint beta) (hc : c.IsPoint beta) (hv : l.Valid beta)
    (hl : l.Extends m a.ticks c.ticks) :
    t.row ≤ d.size ∧ t.col ≤ d.size ∧ l.HeldBy beta (d.commitInsertion t) := by
  obtain ⟨hna, hnc⟩ := hl.not_mem hv
  obtain ⟨hrow, hrows⟩ := hd.rows.insert hc hnc
  obtain ⟨hcol, hcols⟩ := hd.cols.insert ha hna
  rw [← h.row, ← h.creation] at hrows
  rw [← h.col, ← h.annihilation] at hcols
  rw [hd.length_colKeys] at hcol
  exact ⟨h.row ▸ hrow, h.col ▸ hcol, rfl, hrows.of_perm hl.creations.symm,
    hcols.of_perm hl.annihilations.symm⟩

/-- A new pair of operators goes to its sorted places. -/
theorem Matched.tryPair (hs : s.Matched beta) (hd : s.determinants[color]? = some d)
    (hread : Reads d a c) (hap : a.IsPoint beta) (hcp : c.IsPoint beta) (hv : l.Valid beta)
    (hl : l.Extends (s.config.lineAt color) a.ticks c.ticks) :
    ∃ ratio t e, s.Opens color (s.tryPair color a c) ratio t e ∧ l.HeldBy beta e ∧
      e.element = d.element := by
  have hheld := hs.held color d hd
  obtain ⟨column, row, corner, hadds⟩ := hread.adds
  let trial := d.insertionTrial (Line.lowerBound (d.rowKeys.map (·.time)) c)
    (Line.lowerBound (d.colKeys.map (·.time)) a) ⟨c, 0⟩ ⟨a, 0⟩ column.toArray row.toArray corner
  have hsorts : Sorts d a c trial := ⟨rfl, rfl, rfl, rfl⟩
  obtain ⟨hrow, hcol, hafter⟩ := hsorts.heldBy hheld hap hcp hv hl
  have htry := Determinant.tryInsert_eq_ok hheld.idle hrow hcol hadds
  refine ⟨trial.ratio, { d with trial := .insertion trial }, d.commitInsertion trial,
    ⟨?_, rfl, ?_⟩, hafter, rfl⟩
  · rw [State.tryPair, State.determinant, Outcome.nth_eq_ok.mpr hd, Outcome.ok_bind]
    exact congrArg (· >>= _) htry
  · exact (congrArg _ (discard_idle hheld.idle)).trans (setDeterminant_self hd)

theorem tryPair_empty {element : Key α → Key α → Outcome α α}
    (hd : s.determinant color = .ok (Determinant.empty element)) (ha : a.IsPoint beta)
    (hc : c.IsPoint beta) : s.tryPair color a c = (do
      let (ratio, d) ← (Determinant.empty element).tryInsert 0 0 ⟨c, 0⟩ ⟨a, 0⟩
      pure (ratio, s.setDeterminant color d)) := by
  have hkeyed : Keyed beta [] [] := ⟨.nil, .refl _, by simp⟩
  have hrow := Nat.le_zero.mp (hkeyed.insert hc List.not_mem_nil).1
  have hcol := Nat.le_zero.mp (hkeyed.insert ha List.not_mem_nil).1
  rw [State.tryPair, hd, Outcome.ok_bind]
  simp only [show (Determinant.empty element).rowKeys = [] from rfl,
    show (Determinant.empty element).colKeys = [] from rfl, hrow, hcol]

/-- A pair of operators leaves by the row of its creation and the column of its annihilation. -/
theorem Matched.tryDrop_removal {col : ℕ} {q : Segment α} (hs : s.Matched beta)
    (hd : s.determinants[color]? = some d) (ht : (s.config.lineAt color).Tidy)
    (hq : (s.config.lineAt color)[col]? = some q)
    (hl : (s.config.lineAt color).Extends l q.annihilation.ticks c.ticks) :
    ∃ row, row < d.size ∧ col < d.size ∧
      s.Opens color (s.tryDrop color col c) (d.removalTrial row col).ratio
        { d with trial := .removal (d.removalTrial row col) }
        (d.commitRemoval (d.removalTrial row col)) ∧
      l.HeldBy beta (d.commitRemoval (d.removalTrial row col)) := by
  have hheld := hs.held color d hd
  have hmem : c.ticks ∈ (s.config.lineAt color).bounded.map (·.creation.ticks) :=
    hl.creations.mem_iff.mpr List.mem_cons_self
  obtain ⟨row, k, hfind, hk, hkc⟩ := hheld.rows.exists_findIdx hmem
  obtain ⟨y, hy, hyq⟩ : ∃ y, d.colKeys[col]? = some y ∧ y.time.ticks = q.annihilation.ticks := by
    have hget := congrArg (·[col]?) (hheld.map_colKeys ht)
    simpa [hq] using hget
  have hrow : row < d.size := (List.getElem?_eq_some_iff.mp hk).1
  have hcol : col < d.size := hheld.length_colKeys ▸ (List.getElem?_eq_some_iff.mp hy).1
  refine ⟨row, hrow, hcol, ⟨?_, rfl, ?_⟩,
    ⟨rfl, hheld.rows.eraseIdx hk ?_, hheld.cols.eraseIdx hy ?_⟩⟩
  · rw [State.tryDrop, State.determinant, Outcome.nth_eq_ok.mpr hd, Outcome.ok_bind, creationRow,
      hfind, Outcome.ok_bind, Determinant.tryRemove_eq_ok hheld.idle hrow hcol]
    rfl
  · exact (congrArg _ (discard_idle hheld.idle)).trans (setDeterminant_self hd)
  · rw [hkc]
    exact hl.creations.symm
  · rw [hyq]
    exact hl.annihilations.symm

theorem Matched.tryDrop {col : ℕ} {q : Segment α} (hs : s.Matched beta)
    (hd : s.determinants[color]? = some d) (ht : (s.config.lineAt color).Tidy)
    (hq : (s.config.lineAt color)[col]? = some q)
    (hl : (s.config.lineAt color).Extends l q.annihilation.ticks c.ticks) :
    ∃ ratio t e, s.Opens color (s.tryDrop color col c) ratio t e ∧ l.HeldBy beta e ∧
      e.element = d.element := by
  obtain ⟨row, -, -, hopens, hheld⟩ := hs.tryDrop_removal hd ht hq hl
  exact ⟨_, _, _, hopens, hheld, rfl⟩

end Trials

end State
end ImpuritySampler
