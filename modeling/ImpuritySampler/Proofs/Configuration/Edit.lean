import ImpuritySampler.Proofs.Configuration.Lines

/-!
# Changes of a configuration

Each change of a configuration replaces one line by an edited one.
-/

set_option autoImplicit false

namespace ImpuritySampler.Configuration

variable {α : Type} {beta : α} {c : Configuration α} {color i : ℕ} {s : Segment α}

theorem setLine_lineAt (hc : color < c.colors) : c.setLine color (c.lineAt color) = c := by
  have hlt : color < c.lines.length := hc
  have hget : c.lines[color] = c.lineAt color :=
    Option.some.inj ((List.getElem?_eq_getElem hlt).symm.trans (getElem?_lines hc))
  have hset : c.lines.set color (c.lineAt color) = c.lines := by
    rw [← hget, List.set_getElem_self]
  rw [setLine, hset]

theorem insert_eq (hc : color < c.colors) (s : Segment α) :
    c.insert color s =
      .ok ((c.lineAt color).place s, c.setLine color ((c.lineAt color).put s)) := by
  rw [insert, line_eq hc]
  rfl

theorem remove_eq (hc : color < c.colors) (hs : (c.lineAt color)[i]? = some s) :
    c.remove color i = .ok (s, c.setLine color ((c.lineAt color).eraseIdx i)) := by
  rw [remove, line_eq hc, Outcome.ok_bind, Outcome.nth_eq_ok.mpr hs]
  rfl

theorem line_setLine (hc : color < c.colors) (l : Line α) :
    (c.setLine color l).lineAt color = l := by rw [lineAt_setLine hc, if_pos rfl]

theorem insert_setLine (hc : color < c.colors) (l : Line α) (s : Segment α) :
    (c.setLine color l).insert color s = .ok (l.place s, c.setLine color (l.put s)) := by
  rw [insert_eq (by rwa [colors_setLine]), lineAt_setLine hc, if_pos rfl, setLine_setLine]

end ImpuritySampler.Configuration

namespace ImpuritySampler.Configuration

variable {α : Type} [Scalar α] {beta : α} {c : Configuration α} {color i : ℕ}
variable {s p q : Segment α} {a h : Time α}

theorem isFull_of_whole (hb : 0 < beta) (hv : c.Valid beta) (hc : color < c.colors)
    (hs : (c.lineAt color)[i]? = some s) (hw : s.Whole) : c.isFull color = .ok true := by
  have hcycle := (hv.lineAt hc).onCycle s (List.mem_of_getElem? hs)
  rw [isFull, line_eq hc, Outcome.ok_bind, Line.eq_singleton_of_whole (hv.lineAt hc) hs hw]
  exact (hcycle.isFull hb).trans (by rw [decide_eq_true hw])

theorem isFull_of_tidy (hb : 0 < beta) (hv : c.Valid beta) (hc : color < c.colors)
    (ht : (c.lineAt color).Tidy) : c.isFull color = .ok false := by
  rw [isFull, line_eq hc, Outcome.ok_bind]
  cases hlast : (c.lineAt color).getLast? with
  | none => rfl
  | some s =>
    have hs := List.mem_of_getLast? hlast
    exact (((hv.lineAt hc).onCycle s hs).isFull hb).trans
      (by rw [decide_eq_false (ht.not_whole hs)])

theorem tidy_of_isFull (hb : 0 < beta) (hv : c.Valid beta) (hc : color < c.colors)
    (hfull : c.isFull color = .ok false) : (c.lineAt color).Tidy := by
  rcases (hv.lineAt hc).shape with ⟨s, hl, hw⟩ | ht
  · rw [isFull_of_whole hb hv hc (i := 0) (by rw [hl]; rfl) hw] at hfull
    cases hfull
  · exact ht

theorem isFull_eq (hb : 0 < beta) (hv : c.Valid beta) (hc : color < c.colors)
    (hs : (c.lineAt color)[i]? = some s) : c.isFull color = .ok (decide s.Whole) := by
  by_cases hw : s.Whole
  · rw [decide_eq_true hw]
    exact isFull_of_whole hb hv hc hs hw
  · rw [decide_eq_false hw]
    exact isFull_of_tidy hb hv hc ((hv.lineAt hc).tidy (List.mem_of_getElem? hs) hw)

theorem split_onCycle (hb : 0 < beta) (hc : color < c.colors)
    (hs : (c.lineAt color)[i]? = some s) (hcycle : s.OnCycle beta) :
    c.split color i a h = .ok (c.setLine color ((c.lineAt color).holed i s a h)) := by
  rw [split, remove_eq hc hs, Outcome.ok_bind]
  simp only [hcycle.isFull hb, Outcome.ok_bind, Line.holed]
  by_cases hw : s.Whole
  · simp only [hw, decide_true, if_true, insert_setLine hc, Outcome.ok_bind, Outcome.pure_eq]
  · simp only [hw, decide_false, Bool.false_eq_true, if_false, insert_setLine hc, Outcome.ok_bind,
      Outcome.pure_eq, Line.cut]

theorem split_eq (hb : 0 < beta) (hv : c.Valid beta) (hc : color < c.colors)
    (hs : (c.lineAt color)[i]? = some s) :
    c.split color i a h = .ok (c.setLine color ((c.lineAt color).holed i s a h)) :=
  split_onCycle hb hc hs ((hv.lineAt hc).onCycle s (List.mem_of_getElem? hs))

theorem regroup_eq (hb : 0 < beta) (hbeta : c.beta = beta) (hc : color < c.colors)
    (hp : (c.lineAt color)[i]? = some p)
    (hq : (c.lineAt color)[Line.nextPlace i (c.lineAt color).length]? = some q) :
    c.regroup color i =
      .ok (if (c.lineAt color).length = 1 then Line.whole beta else Line.joined p q,
        c.setLine color (Line.closed beta (c.lineAt color) i p q)) := by
  have hi := (List.getElem?_eq_some_iff.mp hp).1
  have hpos : 0 < (c.lineAt color).length := Nat.zero_lt_of_lt hi
  rw [regroup, line_eq hc, Outcome.ok_bind, Outcome.require_true hpos, Outcome.ok_bind,
    Line.next_eq hi, Outcome.ok_bind]
  by_cases hn : (c.lineAt color).length = 1
  · have hsame : Line.nextPlace i (c.lineAt color).length = i := by
      unfold Line.nextPlace
      split_ifs <;> omega
    have hfull : (Segment.full beta : Outcome α (Segment α)) = .ok (Line.whole beta) :=
      Segment.full_eq hb
    have hline : (c.setLine color []).line color = .ok [] := by
      rw [line_eq (by rwa [colors_setLine]), lineAt_setLine hc, if_pos rfl]
    have hperiod : ∀ l, (c.setLine color l).beta = beta := fun _ => hbeta
    have hfilled : (c.setLine color []).fill color = .ok (c.setLine color [Line.whole beta]) := by
      rw [fill, hline, Outcome.ok_bind, List.length_nil, Outcome.require_true rfl, Outcome.ok_bind,
        hperiod, hfull, Outcome.ok_bind, setLine_setLine,
        Outcome.pure_eq]
    rw [if_pos hsame, if_pos hn, hfilled, Outcome.ok_bind, hperiod, hfull, Line.closed, if_pos hn,
      Outcome.ok_bind, Outcome.pure_eq]
  · rw [if_neg (Line.nextPlace_ne hn), Outcome.nth_eq_ok.mpr hp, Outcome.ok_bind,
      Outcome.nth_eq_ok.mpr hq, Outcome.ok_bind, if_neg hn, Line.closed, if_neg hn]
    simp only [insert_setLine hc, Outcome.ok_bind, Outcome.pure_eq]
    rfl

theorem regroup_setLine {l : Line α} (hb : 0 < beta) (hbeta : c.beta = beta) (hc : color < c.colors)
    (hp : l[i]? = some p) (hq : l[Line.nextPlace i l.length]? = some q) :
    (c.setLine color l).regroup color i =
      .ok (if l.length = 1 then Line.whole beta else Line.joined p q,
        c.setLine color (Line.closed beta l i p q)) := by
  have hline := line_setLine hc l
  have h := regroup_eq (c := c.setLine color l) (p := p) (q := q) (i := i) hb hbeta
    (by rwa [colors_setLine]) (by rw [hline, hp]) (by rw [hline, hq])
  rwa [hline, setLine_setLine] at h

theorem regroup_split (hb : 0 < beta) (hv : c.Valid beta) (hbeta : c.beta = beta)
    (hc : color < c.colors) (hs : (c.lineAt color)[i]? = some s) (ha : a.IsPoint beta)
    (hh : h.IsPoint beta) (hhole : Line.Hole s a h) :
    ∃ j, (c.setLine color ((c.lineAt color).holed i s a h)).regroup color j = .ok (s, c) := by
  obtain ⟨j, p, q, hp, hq, hmerged, hback, -⟩ := (hv.lineAt hc).closed_holed hs ha hh hhole
  refine ⟨j, ?_⟩
  rw [regroup_setLine hb hbeta hc hp hq, hmerged, hback, setLine_lineAt hc]

theorem of_regroup {r : Segment α × Configuration α} (hc : color < c.colors)
    (h : c.regroup color i = .ok r) : ∃ p q, (c.lineAt color)[i]? = some p ∧
      (c.lineAt color)[Line.nextPlace i (c.lineAt color).length]? = some q := by
  rw [regroup, line_eq hc, Outcome.ok_bind] at h
  obtain ⟨-, -, h⟩ := Outcome.bind_eq_ok.mp h
  obtain ⟨next, hnext, -⟩ := Outcome.bind_eq_ok.mp h
  obtain ⟨u, hi, -⟩ := Outcome.bind_eq_ok.mp hnext
  have hi := Outcome.require_eq_ok.mp hi
  exact ⟨_, _, List.getElem?_eq_getElem hi, List.getElem?_eq_getElem (Line.nextPlace_lt hi)⟩

end ImpuritySampler.Configuration
