import ImpuritySampler.Proofs.Line.Occupation
import ImpuritySampler.Proofs.Line.Refill

/-!
# Windows tile the free part of a line

The insertion windows of a line with ends are its gaps. A free tick lies in the gap of the segment
that starts next, and in no other one, so that the segments and the windows together cover each
tick of the cycle once; where two segments touch, the window between them is empty. If a segment is
taken out, the windows on both sides of it and its own length make up the new window.
-/

set_option autoImplicit false

namespace ImpuritySampler

open Time Line

-- the number of ticks of a segment is not to be computed where it is compared
attribute [local irreducible] Segment.ticks

namespace Time

theorem gap_lt_of_outside {a c t : ℕ} (hc : c < ticksPerPeriod) (ht : t < ticksPerPeriod)
    (hne : a ≠ c) (hend : a ≠ t) (hout : gap a c ≤ gap t c) : gap c t < gap a t := by
  unfold gap at *
  split_ifs at * <;> omega

theorem gap_le_of_outside {a b c t : ℕ} (ha : a < ticksPerPeriod) (hb : b < ticksPerPeriod)
    (hc : c < ticksPerPeriod) (ht : t < ticksPerPeriod) (hin : gap t c < gap a c)
    (hout : gap a c ≤ gap b c) : gap a t ≤ gap b t := by
  unfold gap at *
  split_ifs at * <;> omega

theorem gap_left_inj {a b t : ℕ} (ha : a < ticksPerPeriod) (hb : b < ticksPerPeriod)
    (ht : t < ticksPerPeriod) (h : gap a t = gap b t) : a = b := by
  unfold gap at h
  split_ifs at h <;> omega

end Time

namespace Line

variable {α : Type} {l : Line α} {i j t : ℕ} {p q p' q' : Segment α}

theorem Tidy.exists_gap (h : Tidy l) (ht : t < ticksPerPeriod) (hfree : t ∉ ticks l)
    (hp : l[i]? = some p) :
    ∃ j u v, l[j]? = some u ∧ l[nextPlace j l.length]? = some v ∧ t ∈ (between u v).ticks := by
  -- if the gap behind a segment misses the tick, the next segment starts closer to it
  induction hn : gap p.creation.ticks t using Nat.strong_induction_on generalizing i p with
  | _ n ih =>
    subst hn
    obtain ⟨q, hq⟩ : ∃ q, l[nextPlace i l.length]? = some q :=
      ⟨_, List.getElem?_eq_getElem (nextPlace_lt (List.getElem?_eq_some_iff.mp hp).1)⟩
    by_cases hgap : t ∈ (between p q).ticks
    · exact ⟨i, p, q, hp, hq, hgap⟩
    · apply ih (gap q.creation.ticks t) _ hq rfl
      have hpl := List.mem_of_getElem? hp
      have hql := List.mem_of_getElem? hq
      have hqr := h.regular q hql
      have hstart : p.creation.ticks ≠ t := by
        rintro rfl
        apply hfree
        exact mem_ticks.mpr
          ⟨p, hpl, Segment.creation_mem_ticks (h.regular p hpl) (h.positive p hpl)⟩
      have hout : t ∉ q.ticks := fun hmem => hfree (mem_ticks.mpr ⟨q, hql, hmem⟩)
      rw [Segment.mem_ticks_gap, not_and, not_lt] at hout
      rw [between, Segment.mem_mk, not_and, not_lt] at hgap
      by_cases htouch : p.creation.ticks = q.annihilation.ticks
      · rw [htouch] at hstart ⊢
        exact gap_lt_of_outside hqr.2 ht (h.positive q hql) hstart (hout ht)
      · have hnear := gap_lt_of_outside hqr.1 ht htouch hstart (hgap ht)
        have hend : q.annihilation.ticks ≠ t := by
          rintro rfl
          have hpos := gap_pos hqr.1 htouch
          rw [gap_self] at hgap
          exact absurd (hgap ht) (not_le.mpr hpos)
        exact (gap_lt_of_outside hqr.2 ht (h.positive q hql) hend (hout ht)).trans hnear

theorem Tidy.creation_outside (h : Tidy l) (hp : l[i]? = some p)
    (hq : l[nextPlace i l.length]? = some q) (hp' : l[j]? = some p') :
    gap p.creation.ticks q.annihilation.ticks ≤ gap p'.creation.ticks q.annihilation.ticks := by
  have hmem := List.mem_of_getElem? hp'
  have hregular := h.regular p' hmem
  have hstart := Segment.creation_mem_ticks hregular (h.positive p' hmem)
  have hout := Finset.disjoint_left.mp (h.gap_free hp hq p' hmem) hstart
  rw [Segment.mem_mk, not_and, not_lt] at hout
  exact hout hregular.2

/-- A tick of a gap fixes the segment that starts at its end. -/
theorem Tidy.gap_unique (h : Tidy l) (hp : l[i]? = some p)
    (hq : l[nextPlace i l.length]? = some q) (hp' : l[j]? = some p')
    (hq' : l[nextPlace j l.length]? = some q') (ht : t ∈ (between p q).ticks)
    (ht' : t ∈ (between p' q').ticks) : i = j := by
  have hc := (h.regular p (List.mem_of_getElem? hp)).2
  have hc' := (h.regular p' (List.mem_of_getElem? hp')).2
  have ha := (h.regular q (List.mem_of_getElem? hq)).1
  have ha' := (h.regular q' (List.mem_of_getElem? hq')).1
  obtain ⟨hlt, hin⟩ := Segment.mem_mk.mp ht
  obtain ⟨-, hin'⟩ := Segment.mem_mk.mp ht'
  have hle := gap_le_of_outside hc hc' ha hlt hin (h.creation_outside hp hq hp')
  have hge := gap_le_of_outside hc' hc ha' hlt hin' (h.creation_outside hp' hq' hp)
  exact h.creation_unique hp hp' (gap_left_inj hc hc' hlt (le_antisymm hle hge))

theorem Tidy.gap_neighbours {u : Segment α} (h : Tidy l) (hn : l.length ≠ 1)
    (hu : l[i]? = some u) (hp : l[previousPlace i l.length]? = some p)
    (hq : l[nextPlace i l.length]? = some q) :
    gap p.creation.ticks q.annihilation.ticks =
      gap p.creation.ticks u.annihilation.ticks + gap u.annihilation.ticks u.creation.ticks +
        gap u.creation.ticks q.annihilation.ticks := by
  have hpr := h.regular p (List.mem_of_getElem? hp)
  have hur := h.regular u (List.mem_of_getElem? hu)
  have hqr := h.regular q (List.mem_of_getElem? hq)
  obtain ⟨hlow, hhigh⟩ := h.between_neighbours hn hu hp hq
  rw [gap_eq_sub hqr.1 hur.1 hpr.2 hhigh, gap_eq_sub hqr.1 hur.2 hur.1 hlow.le]
  omega

end Line

theorem countP_mem {us : List (Finset ℕ)} (h : us.Pairwise Disjoint) (t : ℕ) :
    us.countP (fun u => t ∈ u) = if ∃ u ∈ us, t ∈ u then 1 else 0 := by
  induction us with
  | nil => simp
  | cons u us ih =>
    obtain ⟨hu, hus⟩ := List.pairwise_cons.mp h
    rw [List.countP_cons, ih hus]
    by_cases ht : t ∈ u
    · have hrest : ¬∃ v ∈ us, t ∈ v := by
        rintro ⟨v, hv, htv⟩
        exact Finset.disjoint_left.mp (hu v hv) ht htv
      simp [ht, hrest]
    · simp [ht]

namespace Window

variable {α : Type}

/-- The ticks that a window covers, from its left end backwards. -/
def ticks (w : Window α) : Finset ℕ :=
  (Finset.range w.length.ticks).image fun d => behind w.left.ticks (d + 1)

theorem ticks_between {p q : Segment α} (hp : p.Regular) (hq : q.Regular) (b : α) :
    ticks ⟨p.creation, ⟨gap p.creation.ticks q.annihilation.ticks, b⟩⟩ =
      (between p q).ticks := by
  ext t
  rw [ticks, Finset.mem_image, between, Segment.mem_mk]
  constructor
  · rintro ⟨d, hd, rfl⟩
    have hd := Finset.mem_range.mp hd
    dsimp only at hd ⊢
    rw [gap_behind hp.2 hq.1 hd]
    exact ⟨behind_lt _ _, by omega⟩
  · rintro ⟨ht, hgap⟩
    have hne : p.creation.ticks ≠ t := by
      rintro rfl
      exact lt_irrefl _ hgap
    have hpos := gap_pos ht hne
    refine ⟨gap p.creation.ticks t - 1, Finset.mem_range.mpr ?_, ?_⟩
    · have hle := gap_eq_sub hq.1 ht hp.2 hgap.le
      dsimp only
      omega
    · rw [Nat.sub_add_cancel hpos, behind_gap hp.2 ht]

end Window

section Tiling

variable {α : Type} {l : Line α} {ws : List (Window α)}

/-- Each place of the line has its window, over the gap behind the segment of the place. -/
structure Line.HasWindows (l : Line α) (ws : List (Window α)) : Prop where
  length : ws.length = l.length
  gap : ∀ i w, ws[i]? = some w → ∃ p q, l[i]? = some p ∧ l[nextPlace i l.length]? = some q ∧
    w.ticks = (between p q).ticks

theorem Line.Tidy.pairwise_tiles (ht : Tidy l) (hws : l.HasWindows ws) :
    (l.map Segment.ticks ++ ws.map Window.ticks).Pairwise Disjoint := by
  rw [List.pairwise_append, List.pairwise_map, List.pairwise_map]
  refine ⟨ht.apart, ?_, ?_⟩
  · rw [List.pairwise_iff_getElem]
    intro i j hi hj hij
    obtain ⟨p, q, hp, hq, hticks⟩ := hws.gap i _ (List.getElem?_eq_getElem hi)
    obtain ⟨p', q', hp', hq', hticks'⟩ := hws.gap j _ (List.getElem?_eq_getElem hj)
    rw [hticks, hticks', Finset.disjoint_left]
    intro t h h'
    exact hij.ne (ht.gap_unique hp hq hp' hq' h h')
  · intro u hu v hv
    obtain ⟨r, hr, rfl⟩ := List.mem_map.mp hu
    obtain ⟨w, hw, rfl⟩ := List.mem_map.mp hv
    obtain ⟨i, hi⟩ := List.mem_iff_getElem?.mp hw
    obtain ⟨p, q, hp, hq, hticks⟩ := hws.gap i w hi
    rw [hticks]
    exact ht.gap_free hp hq r hr

theorem Line.Tidy.mem_tiles (ht : Tidy l) (hne : l ≠ []) (hws : l.HasWindows ws) (t : ℕ) :
    (∃ u ∈ l.map Segment.ticks ++ ws.map Window.ticks, t ∈ u) ↔ t < ticksPerPeriod := by
  constructor
  · rintro ⟨u, hu, htu⟩
    rcases List.mem_append.mp hu with hu | hu
    · obtain ⟨r, -, rfl⟩ := List.mem_map.mp hu
      exact Segment.ticks_lt htu
    · obtain ⟨w, -, rfl⟩ := List.mem_map.mp hu
      obtain ⟨d, -, rfl⟩ := Finset.mem_image.mp htu
      exact behind_lt _ _
  · intro hlt
    by_cases hfree : t ∈ Line.ticks l
    · obtain ⟨r, hr, htr⟩ := Line.mem_ticks.mp hfree
      exact ⟨r.ticks, List.mem_append_left _ (List.mem_map_of_mem hr), htr⟩
    · have hfirst := List.getElem?_eq_getElem (List.length_pos_iff.mpr hne)
      obtain ⟨j, p, q, hp, hq, hgap⟩ := ht.exists_gap hlt hfree hfirst
      have hj : j < ws.length := hws.length ▸ (List.getElem?_eq_some_iff.mp hp).1
      have hw := List.getElem?_eq_getElem hj
      obtain ⟨p', q', hp', hq', hticks⟩ := hws.gap j _ hw
      cases hp.symm.trans hp'
      cases hq.symm.trans hq'
      exact ⟨_, List.mem_append_right _ (List.mem_map_of_mem (List.mem_of_getElem? hw)),
        hticks ▸ hgap⟩

variable [ExactScalar α] {beta : α} {s : State α} {color : ℕ}

theorem Line.Tidy.insertion (ht : Tidy l) (hv : l.Valid beta)
    (hl : s.config.line color = .ok l) {i : ℕ} (hi : i < l.length) :
    ∃ w p q, Window.insertion s color (some i) = .ok w ∧ l[i]? = some p ∧
      l[nextPlace i l.length]? = some q ∧ w.ticks = (between p q).ticks := by
  have hp : l[i]? = some l[i] := List.getElem?_eq_getElem hi
  have hq := List.getElem?_eq_getElem (nextPlace_lt hi)
  exact ⟨_, _, _, Window.insertion_some hl hv hp hq, hp, hq,
    Window.ticks_between (ht.regular _ (List.mem_of_getElem? hp))
      (ht.regular _ (List.mem_of_getElem? hq)) _⟩

theorem Line.Tidy.windows (ht : Tidy l) (hv : l.Valid beta)
    (hl : s.config.line color = .ok l) :
    ∃ ws : List (Window α),
      (List.range l.length).mapM (fun i => Window.insertion s color (some i)) = .ok ws ∧
      l.HasWindows ws := by
  obtain ⟨ws, hws⟩ := Outcome.exists_mapM (l := List.range l.length)
    (f := fun i => Window.insertion s color (some i)) fun i hi => by
      obtain ⟨w, -, -, hw, -⟩ := ht.insertion hv hl (List.mem_range.mp hi)
      exact ⟨w, hw⟩
  have hall := List.forall₂_iff_get.mp (Outcome.of_mapM_eq_ok hws)
  have hlength : ws.length = l.length := by
    rw [← hall.1, List.length_range]
  refine ⟨ws, hws, hlength, ?_⟩
  intro i w hw
  obtain ⟨hi, rfl⟩ := List.getElem?_eq_some_iff.mp hw
  have hstep := hall.2 i (by rwa [hall.1]) hi
  obtain ⟨w, p, q, hw, hp, hq, hticks⟩ := ht.insertion hv hl (hlength ▸ hi)
  simp only [List.get_eq_getElem, List.getElem_range] at hstep
  rw [Except.ok.inj (hstep.symm.trans hw)]
  exact ⟨p, q, hp, hq, hticks⟩

/-- Taking a segment out joins the windows on both of its sides. -/
theorem Line.Tidy.removalLength (ht : Tidy l) (hv : l.Valid beta)
    (hl : s.config.line color = .ok l) (hn : l.length ≠ 1) {i : ℕ} {u : Segment α}
    (hu : l[i]? = some u) :
    ∃ k v d w, Line.previous i l.length = (.ok k : Outcome α ℕ) ∧
      Window.insertion s color (some k) = .ok v ∧ u.length = .ok d ∧
      Window.insertion s color (some i) = .ok w ∧
      Window.removalLength s color i =
        .ok ⟨v.length.ticks + d.ticks + w.length.ticks, beta⟩ := by
  have hi := (List.getElem?_eq_some_iff.mp hu).1
  have hp := List.getElem?_eq_getElem (previousPlace_lt hi)
  have hq := List.getElem?_eq_getElem (nextPlace_lt hi)
  have hpl := List.mem_of_getElem? hp
  have hul := List.mem_of_getElem? hu
  have hnext : l[nextPlace (previousPlace i l.length) l.length]? = some u := by
    rw [nextPlace_previousPlace hi, hu]
  refine ⟨_, _, _, _, previous_eq hi, Window.insertion_some hl hv hp hnext,
    (hv.onCycle u hul).length, Window.insertion_some hl hv hu hq, ?_⟩
  have hsub := hv.gap_sub hpl (List.mem_of_getElem? hq)
  rw [ht.gap_neighbours hn hu hp hq, (hv.onCycle _ hpl).creation,
    ← Segment.card_ticks (.inl (ht.regular u hul))] at hsub
  rw [Window.removalLength, hl, Outcome.ok_bind, if_neg hn, previous_eq hi, next_eq hi]
  simp only [Outcome.ok_bind, Outcome.nth_eq_ok.mpr hp, Outcome.nth_eq_ok.mpr hq, hsub]

/-- On a line that is neither empty nor full, each tick of the cycle belongs to one segment or to
one window, and a removal opens the two windows of its segment and the segment itself. -/
theorem windows_tile (hl : s.config.line color = .ok l) (hv : l.Valid beta) (hne : l ≠ [])
    (hw : ∀ u ∈ l, ¬u.Whole) :
    (∃ ws : List (Window α),
      (List.range l.length).mapM (fun i => Window.insertion s color (some i)) = .ok ws ∧
      (l.map Segment.ticks ++ ws.map Window.ticks).Pairwise Disjoint ∧
      ∀ t, (l.map Segment.ticks ++ ws.map Window.ticks).countP (fun u => t ∈ u) =
        if t < ticksPerPeriod then 1 else 0) ∧
    (2 ≤ l.length → ∀ i u, l[i]? = some u →
      ∃ k v d w, Line.previous i l.length = (.ok k : Outcome α ℕ) ∧
        Window.insertion s color (some k) = .ok v ∧ u.length = .ok d ∧
        Window.insertion s color (some i) = .ok w ∧
        Window.removalLength s color i =
          .ok ⟨v.length.ticks + d.ticks + w.length.ticks, beta⟩) := by
  have ht : Tidy l := by
    obtain ⟨u, hu⟩ := List.exists_mem_of_ne_nil l hne
    exact hv.tidy hu (hw u hu)
  constructor
  · obtain ⟨ws, hws, hall⟩ := ht.windows hv hl
    have hapart := ht.pairwise_tiles hall
    refine ⟨ws, hws, hapart, ?_⟩
    intro t
    rw [countP_mem hapart]
    simp only [ht.mem_tiles hne hall]
  · intro hn i u hu
    exact ht.removalLength hv hl (by omega) hu

/-- The window behind the straight segment has two ticks and the one behind the wrapping segment has
none. Taking out the straight segment opens its own five ticks as well. -/
theorem windows_tile_touching :
    (⟨1, [touchingPair]⟩ : Configuration ℚ).line 0 = .ok touchingPair ∧
      touchingPair.Valid 1 ∧ touchingPair ≠ [] ∧ (∀ u ∈ touchingPair, ¬u.Whole) ∧
      2 ≤ touchingPair.length ∧
      Window.removalLength (⟨⟨1, [touchingPair]⟩, []⟩ : State ℚ) 0 0 = .ok ⟨7, 1⟩ := by
  have hl : (⟨1, [touchingPair]⟩ : Configuration ℚ).line 0 = .ok touchingPair := rfl
  have hne : touchingPair ≠ [] := List.cons_ne_nil _ _
  have hw : ∀ u ∈ touchingPair, ¬u.Whole := by decide
  have hn : 2 ≤ touchingPair.length := le_refl 2
  obtain ⟨-, hremoval⟩ := windows_tile (s := ⟨⟨1, [touchingPair]⟩, []⟩) hl touchingPair_valid hne hw
  obtain ⟨k, v, d, w, hk, hv, hd, hw', hlength⟩ := hremoval hn 0 _ rfl
  cases hk
  cases hv
  cases hd
  cases hw'
  exact ⟨hl, touchingPair_valid, hne, hw, hn, hlength⟩

end Tiling

end ImpuritySampler
