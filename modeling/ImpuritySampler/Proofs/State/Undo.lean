import ImpuritySampler.Proofs.Determinant.Undo
import ImpuritySampler.Proofs.Line.Neighbours
import ImpuritySampler.Proofs.State.Edit

/-!
# Taking a pair of operators out again

The row and the column of a pair are looked up in different ways when it is put in and when it is
taken out: by a binary search over the keys, and by a linear search and the place of a segment on
its line. In a consistent state they are the same, so that the removal is the reverse of the
insertion.
-/

set_option autoImplicit false

namespace ImpuritySampler

open Line

variable {α : Type} [ExactScalar α] {beta : α} {s : State α} {color : ℕ} {l : Line α}
variable {d e : LineDeterminant α} {a c : Time α} {t : Insertion α (Key α) (Key α)}

namespace State

omit [ExactScalar α] in
theorem replace_replace (s : State α) (color : ℕ) (l m : Line α) (d e : LineDeterminant α) :
    (s.replace color l d).replace color m e = s.replace color m e := by
  simp only [replace, setDeterminant, List.set_set]
  rw [Configuration.setLine_setLine]

omit [ExactScalar α] in
theorem replace_self (hd : s.determinants[color]? = some d) (hc : color < s.config.colors) :
    s.replace color (s.config.lineAt color) d = s := by
  rw [replace, setDeterminant_self hd, Configuration.setLine_lineAt hc]

omit [ExactScalar α] in
theorem replace_determinant (hs : s.Matched beta) (hc : color < s.config.colors) :
    (s.replace color l d).determinants[color]? = some d :=
  List.getElem?_set_self (by rwa [hs.count])

/-- A pair that has been opened has gone to its sorted places, at the ratio of the determinants. -/
theorem Matched.of_tryPair {n : ℕ} {A : Matrix (Fin n) (Fin n) α} {r : α × State α}
    (hs : s.Matched beta) (hd : s.determinants[color]? = some d) (hexact : d.Exact A)
    (h : s.tryPair color a c = .ok r) :
    ∃ (t : Insertion α (Key α) (Key α)) (i j : Fin (n + 1))
      (B : Matrix (Fin (n + 1)) (Fin (n + 1)) α), Sorts d a c t ∧ d.PricedInsertion A i j t B ∧
      r = (t.ratio, s.setDeterminant color { d with trial := .insertion t }) ∧
      s.Opens color (s.tryPair color a c) t.ratio { d with trial := .insertion t }
        (d.commitInsertion t) := by
  have hidle := (hs.held color d hd).idle
  have htry := h
  rw [State.tryPair, State.determinant, Outcome.nth_eq_ok.mpr hd, Outcome.ok_bind] at h
  obtain ⟨⟨ratio, opened⟩, hopen, h⟩ := Outcome.bind_eq_ok.mp h
  obtain ⟨t, i, j, B, ht, hrow, hcol, hx, hy, hB⟩ := Determinant.exists_priced hexact hidle hopen
  cases ht
  cases h
  exact ⟨t, i, j, B, ⟨hrow, hcol, hx, hy⟩, hB, rfl, htry, rfl,
    (congrArg _ (discard_idle hidle)).trans (setDeterminant_self hd)⟩

theorem Sorts.creationRow (h : Sorts d a c t) (hrow : t.row ≤ d.size)
    (hm : l.HeldBy beta (d.commitInsertion t)) :
    State.creationRow (d.commitInsertion t) color c = .ok t.row := by
  have hget : (d.commitInsertion t).rowKeys[t.row]? = some ⟨c, 0⟩ := by
    show (d.rowKeys.insertIdx t.row t.x)[t.row]? = _
    rw [List.getElem?_insertIdx_self, if_pos (show t.row ≤ d.rowKeys.length from hrow), h.creation]
  have hmem := hm.rows.mem_ticks (List.mem_of_getElem? hget)
  obtain ⟨i, k, hfind, hk, hkc⟩ := hm.rows.exists_findIdx hmem
  obtain rfl : i = t.row := Falling.index_unique hm.rows.falling hk hget hkc
  rw [State.creationRow, hfind]

omit [ExactScalar α] in
theorem column_of_annihilation {y : Key α} {i j : ℕ} {q : Segment α} (h : l.HeldBy beta d)
    (ht : Tidy l) (hi : d.colKeys[i]? = some y) (hj : l[j]? = some q)
    (he : q.annihilation.ticks = y.time.ticks) : j = i := by
  obtain ⟨r, hr, hry⟩ : ∃ r, l[i]? = some r ∧ r.annihilation.ticks = y.time.ticks := by
    have hget := congrArg (·[i]?) (h.map_colKeys ht)
    simpa [hi, eq_comm] using hget
  exact ht.index_unique hj hr (he.trans hry.symm)

/-- On the line with the new pair, the removal is opened at the places of the insertion, and it
leaves the determinant as it was. -/
theorem Matched.tryDrop_inserted {q : Segment α} {j : ℕ} (hs : s.Matched beta)
    (hcolor : color < s.config.colors) (hd : s.determinants[color]? = some d)
    (hsorts : Sorts d a c t) (ht : d.Reversible t) (ha : a.IsPoint beta) (hc : c.IsPoint beta)
    (hv : l.Valid beta) (htidy : Tidy l) (hl : l.Extends (s.config.lineAt color) a.ticks c.ticks)
    (hr : t.ratio ≠ 0) (hq : l[j]? = some q) (hqa : q.annihilation.ticks = a.ticks) :
    ∃ t' : Removal α, t'.row = t.row ∧ t'.col = t.col ∧
      (s.replace color l (d.commitInsertion t)).Opens color
        ((s.replace color l (d.commitInsertion t)).tryDrop color j c) (1 / t.ratio)
        { d.commitInsertion t with trial := .removal t' } d := by
  obtain ⟨hrow, hcol, hheld⟩ := hsorts.heldBy (hs.held color d hd) ha hc hv hl
  have hget := replace_determinant (l := l) (d := d.commitInsertion t) hs hcolor
  have hcolget : (d.commitInsertion t).colKeys[t.col]? = some ⟨a, 0⟩ := by
    show (d.colKeys.insertIdx t.col t.y)[t.col]? = _
    rw [List.getElem?_insertIdx_self, (hs.held color d hd).length_colKeys, if_pos hcol,
      hsorts.annihilation]
  obtain rfl : j = t.col := column_of_annihilation hheld htidy hcolget hq hqa
  refine ⟨(d.commitInsertion t).removalTrial t.row t.col, rfl, rfl, ?_, ?_, ?_⟩
  · rw [State.tryDrop, State.determinant, Outcome.nth_eq_ok.mpr hget, Outcome.ok_bind,
      hsorts.creationRow hrow hheld, Outcome.ok_bind,
      Determinant.tryRemove_eq_ok hheld.idle ht.row_lt ht.col_lt, ht.ratio hr]
    rfl
  · exact congrArg Except.ok (ht.restore hr)
  · exact (congrArg _ (discard_idle hheld.idle)).trans (setDeterminant_self hget)

end State

end ImpuritySampler
