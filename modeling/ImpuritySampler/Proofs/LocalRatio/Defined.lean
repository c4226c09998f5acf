import ImpuritySampler.Proofs.Configuration.Edit
import ImpuritySampler.Proofs.Line.Overlap
import ImpuritySampler.Proofs.Params
import ImpuritySampler.LocalRatio

/-!
# Ratios have values

A table that can be read is enough for the ratio of every change of a valid configuration to have a
value. Neither exact arithmetic nor the symmetries of the kernel are needed for it, nor that the
change leaves a valid configuration.
-/

set_option autoImplicit false

namespace ImpuritySampler

variable {α : Type} [Scalar α]

open Outcome

section Lines

variable {beta : α} [Time.Resolved beta] {l : Line α} {t annihilation creation : Time α}
variable {f : MeshFunction α} {n a b : ℕ}

theorem Line.coupling_defined (hf : f.Readable beta n) (hb : 0 < beta)
    (hl : ∀ s ∈ l, s.OnCycle beta) (ht : t.IsPoint beta) (charge : Sign) (han : a < n)
    (hbn : b < n) : ∃ x, l.coupling t charge f a b = .ok x := by
  have hvalue : ∀ u : Time α, u.IsPoint beta →
      ∃ d x, t.sub u = .ok d ∧ f.value d.value a b = .ok x :=
    fun u hu => ⟨_, _, Time.sub_eq ht hu, hf.value (Time.gap_lt ht.lt _) han hbn⟩
  rw [Line.coupling]
  refine exists_bind (exists_foldlM_of_steps (fun s hs total => ?_) 0) fun _ _ => ⟨_, rfl⟩
  rw [(hl s hs).isFull hb, ok_bind]
  by_cases hw : s.Whole
  · exact ⟨total, by rw [decide_eq_true hw]; rfl⟩
  · obtain ⟨d, x, hd, hx⟩ := hvalue _ ((hl s hs).points hw).2
    obtain ⟨e, y, he, hy⟩ := hvalue _ ((hl s hs).points hw).1
    rw [decide_eq_false hw, if_neg Bool.false_ne_true, hd, ok_bind, hx, ok_bind, he, ok_bind, hy]
    exact ⟨_, rfl⟩

theorem Line.pairCoupling_defined (hf : f.Readable beta n) (hb : 0 < beta)
    (hl : ∀ s ∈ l, s.OnCycle beta) (ha : annihilation.IsPoint beta) (hc : creation.IsPoint beta)
    (han : a < n) (hbn : b < n) : ∃ x, l.pairCoupling annihilation creation f a b = .ok x :=
  exists_bind (coupling_defined hf hb hl hc .plus han hbn) fun _ _ =>
    exists_bind (coupling_defined hf hb hl ha .minus han hbn) fun _ _ => ⟨_, rfl⟩

end Lines

namespace LocalRatio

variable {m : Model α} [Time.Resolved m.beta] {c : Configuration α} {color i : ℕ}
variable {s p q : Segment α} {a h annihilation creation : Time α}

/-- The other lines are valid; nothing but its times is read from the line of the color. -/
structure Readable (m : Model α) (c : Configuration α) (color : ℕ) : Prop where
  onCycle : c.OnCycle m.beta
  others : ∀ k < c.colors, k ≠ color →
    (c.lineAt k).Pairwise fun s t => Disjoint s.ticks t.ticks

omit [Scalar α] [Time.Resolved m.beta] in
theorem readable_of_valid (hv : c.Valid m.beta) (color : ℕ) : Readable m c color :=
  ⟨hv.onCycle, fun _ hk _ => (hv.lineAt hk).apart⟩

omit [Time.Resolved m.beta] in
theorem retarded_skip (hc : color < c.colors) (i : ℕ) :
    retarded c m color annihilation creation (some i) =
      retarded (c.setLine color ((c.lineAt color).eraseIdx i)) m color annihilation creation
        none := by
  cases hr : m.retarded with
  | none => simp only [retarded, hr]
  | some r =>
    simp only [retarded, hr]
    rw [Configuration.zipIdx_lines, Configuration.zipIdx_lines, Configuration.colors_setLine,
      List.foldlM_map, List.foldlM_map]
    congr 2
    funext total k
    rw [Configuration.lineAt_setLine hc]
    by_cases h : k = color
    · subst h
      simp only [if_true]
    · simp only [if_neg h]

theorem density_defined (hm : m.Regular) (hv : Readable m c color) (hn : c.colors = m.colors)
    (hc : color < m.colors) (hs : s.OnCycle m.beta) : ∃ x, density c m color s = .ok x := by
  rw [density, nth_of_lt hc, ok_bind, hs.length, ok_bind, Configuration.zipIdx_lines,
    List.foldlM_map]
  refine exists_foldlM_of_steps (fun k hk total => ?_) _
  have hk := List.mem_range.mp hk
  dsimp only
  split_ifs with hself
  · exact ⟨total, rfl⟩
  · rw [Model.coupling_eq hm.shape hc (hn ▸ hk), ok_bind,
      Line.overlap_eq hm.beta (hv.onCycle.lineAt hk) hs (hv.others k hk hself)]
    exact ⟨_, rfl⟩

theorem pair_defined (hm : m.Regular) (hv : c.OnCycle m.beta) (hn : c.colors = m.colors)
    (hc : color < m.colors) (ha : a.IsPoint m.beta) (hh : h.IsPoint m.beta) :
    ∃ x, retarded c m color a h none = .ok x := by
  cases hr : m.retarded with
  | none => exact ⟨0, by simp only [retarded, hr, pure_eq]⟩
  | some r =>
    have hkernel := hm.kernel r hr
    simp only [retarded, hr]
    rw [Configuration.zipIdx_lines, List.foldlM_map]
    refine exists_bind (exists_foldlM_of_steps (fun k hk total => ?_) 0) fun _ _ => ?_
    · have hk := List.mem_range.mp hk
      exact exists_bind (Line.pairCoupling_defined hkernel hm.beta (hv.lineAt hk) ha hh hc
        (hn ▸ hk)) fun _ _ => ⟨_, rfl⟩
    · rw [Time.sub_eq ha hh, ok_bind, Time.value, hkernel.value (Time.gap_lt ha.lt _) hc hc]
      exact ⟨_, rfl⟩

theorem retarded_defined (hm : m.Regular) (hv : c.OnCycle m.beta) (hn : c.colors = m.colors)
    (hc : color < c.colors) (ha : a.IsPoint m.beta) (hh : h.IsPoint m.beta) (skip : Option ℕ) :
    ∃ x, retarded c m color a h skip = .ok x := by
  cases skip with
  | none => exact pair_defined hm hv hn (hn ▸ hc) ha hh
  | some i =>
    have hline : ∀ t ∈ (c.lineAt color).eraseIdx i, t.OnCycle m.beta := fun t ht =>
      hv.lineAt hc t ((List.eraseIdx_sublist _ i).subset ht)
    rw [retarded_skip hc]
    exact pair_defined hm (hv.setLine hline color) (Configuration.colors_setLine.trans hn)
      (hn ▸ hc) ha hh

theorem insertLog_defined (hm : m.Regular) (hv : c.Valid m.beta) (hn : c.colors = m.colors)
    (hc : color < c.colors) (hs : s.OnCycle m.beta) (hw : ¬s.Whole) (skip : Option ℕ) :
    ∃ x, insertLog c m color s skip = .ok x := by
  obtain ⟨ha, hh⟩ := hs.points hw
  exact exists_bind (density_defined hm (readable_of_valid hv color) hn (hn ▸ hc) hs) fun _ _ =>
    exists_bind (retarded_defined hm hv.onCycle hn hc ha hh skip) fun _ _ => ⟨_, rfl⟩

theorem splitLog_defined (hm : m.Regular) (hv : Readable m c color) (hn : c.colors = m.colors)
    (hc : color < c.colors) (ha : a.IsPoint m.beta) (hh : h.IsPoint m.beta) :
    ∃ x, splitLog c m color a h = .ok x := by
  exact exists_bind (density_defined hm hv hn (hn ▸ hc) (Segment.onCycle_of_points hh ha))
    fun _ _ => exists_bind (retarded_defined hm hv.onCycle hn hc ha hh none) fun _ _ => ⟨_, rfl⟩

theorem insert_defined (hm : m.Regular) (hv : c.Valid m.beta) (hn : c.colors = m.colors)
    (hc : color < c.colors) (hs : s.OnCycle m.beta) (hw : ¬s.Whole) :
    ∃ x, insert c m color s = .ok x := by
  obtain ⟨x, hx⟩ := insertLog_defined hm hv hn hc hs hw none
  exact ⟨_, by rw [insert, hx, ok_bind, pure_eq]⟩

theorem remove_defined (hm : m.Regular) (hv : c.Valid m.beta) (hn : c.colors = m.colors)
    (hc : color < c.colors) (hs : (c.lineAt color)[i]? = some s) (hw : ¬s.Whole) :
    ∃ x, remove c m color i = .ok x := by
  have hcycle := (hv.lineAt hc).onCycle s (List.mem_of_getElem? hs)
  obtain ⟨x, hx⟩ := insertLog_defined hm hv hn hc hcycle hw (some i)
  exact ⟨_, by rw [remove, Configuration.line_eq hc, ok_bind, nth_eq_ok.mpr hs,
    ok_bind, hx, ok_bind, pure_eq]⟩

theorem split_defined (hm : m.Regular) (hv : c.Valid m.beta) (hn : c.colors = m.colors)
    (hc : color < c.colors) (ha : a.IsPoint m.beta) (hh : h.IsPoint m.beta) :
    ∃ x, split c m color a h = .ok x := by
  obtain ⟨x, hx⟩ := splitLog_defined hm (readable_of_valid hv color) hn hc ha hh
  exact ⟨_, by rw [split, hx, ok_bind, pure_eq]⟩

/-- The merged segment may have no length, as only the lines of the other colors have to be valid.
-/
theorem regroup_defined (hm : m.Regular) (hv : c.Valid m.beta) (hbeta : c.beta = m.beta)
    (hn : c.colors = m.colors) (hc : color < c.colors) (ht : (c.lineAt color).Tidy)
    (hp : (c.lineAt color)[i]? = some p)
    (hq : (c.lineAt color)[Line.nextPlace i (c.lineAt color).length]? = some q) :
    ∃ x, regroup c m color i = .ok x := by
  have hl := hv.lineAt hc
  have hpw := (hl.onCycle p (List.mem_of_getElem? hp)).points
    (ht.not_whole (List.mem_of_getElem? hp))
  have hqw := (hl.onCycle q (List.mem_of_getElem? hq)).points
    (ht.not_whole (List.mem_of_getElem? hq))
  have hclosed : Readable m
      (c.setLine color (Line.closed m.beta (c.lineAt color) i p q)) color := by
    refine ⟨hv.onCycle.setLine (hl.onCycle_closed ht hp hq) color, fun k hk hne => ?_⟩
    rw [Configuration.colors_setLine] at hk
    rw [Configuration.lineAt_setLine hc, if_neg hne]
    exact (hv.lineAt hk).apart
  obtain ⟨x, hx⟩ := splitLog_defined hm hclosed (Configuration.colors_setLine.trans hn)
    (by rwa [Configuration.colors_setLine]) hqw.1 hpw.2
  rw [regroup, Configuration.line_eq hc, ok_bind,
    Line.next_eq (List.getElem?_eq_some_iff.mp hp).1, ok_bind, nth_eq_ok.mpr hq,
    ok_bind, nth_eq_ok.mpr hp, ok_bind,
    Configuration.regroup_eq hm.beta hbeta hc hp hq, ok_bind]
  simp only [hx, ok_bind]
  exact ⟨_, rfl⟩

end LocalRatio

end ImpuritySampler
