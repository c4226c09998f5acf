import ImpuritySampler.Proofs.Line.Edit
import ImpuritySampler.Proofs.Line.Overlap

/-!
# Valid lines

A line is valid on a cycle if its times belong to it and it is either occupied by one segment from
the origin to the end of the axis, or tidy.
-/

set_option autoImplicit false

namespace ImpuritySampler.Line

variable {α : Type} {beta : α} {l m : Line α} {s : Segment α} {a c : Time α}

structure Valid (beta : α) (l : Line α) : Prop where
  onCycle : ∀ s ∈ l, s.OnCycle beta
  shape : (∃ s, l = [s] ∧ s.Whole) ∨ Tidy l

theorem Valid.apart (h : l.Valid beta) : l.Pairwise fun s t => Disjoint s.ticks t.ticks := by
  rcases h.shape with ⟨s, rfl, -⟩ | ht
  · exact List.pairwise_singleton _ s
  · exact ht.apart

theorem Valid.tidy (h : l.Valid beta) (hs : s ∈ l) (hw : ¬s.Whole) : Tidy l := by
  rcases h.shape with ⟨t, rfl, ht⟩ | h
  · rw [List.mem_singleton.mp hs] at hw
    exact absurd ht hw
  · exact h

theorem Tidy.not_whole (h : Tidy l) (hs : s ∈ l) : ¬s.Whole := fun hw =>
  hw.not_regular (h.regular s hs)

theorem singleton_tidy (hs : s.Regular) (hp : s.annihilation.ticks ≠ s.creation.ticks) :
    Tidy [s] :=
  ⟨by simpa using hs, by simpa using hp, List.pairwise_singleton _ s, List.pairwise_singleton _ s⟩

section Neighbours

variable {i : ℕ} {p q : Segment α}

def opened (l : Line α) (i : ℕ) : Line α :=
  (l.eraseIdx (max i (nextPlace i l.length))).eraseIdx (min i (nextPlace i l.length))

def joined (p q : Segment α) : Segment α := ⟨p.annihilation, q.creation⟩

def between (p q : Segment α) : Segment α := ⟨p.creation, q.annihilation⟩

theorem next_eq (hi : i < l.length) :
    (next i l.length : Outcome α ℕ) = .ok (nextPlace i l.length) := by
  rw [next, Outcome.require, if_pos hi]
  rfl

theorem nextPlace_lt {n : ℕ} (hi : i < n) : nextPlace i n < n := by
  unfold nextPlace
  split_ifs <;> omega

theorem nextPlace_ne {n : ℕ} (hn : n ≠ 1) : nextPlace i n ≠ i := by
  unfold nextPlace
  split_ifs <;> omega

theorem opened_perm (hn : l.length ≠ 1) (hp : l[i]? = some p)
    (hq : l[nextPlace i l.length]? = some q) : (p::q::l.opened i).Perm l := by
  rcases lt_or_gt_of_ne (nextPlace_ne hn) with h | h
  · rw [opened, max_eq_left h.le, min_eq_right h.le]
    exact (List.Perm.swap q p _).trans (perm_eraseIdx_eraseIdx h hq hp)
  · rw [opened, max_eq_right h.le, min_eq_left h.le]
    exact perm_eraseIdx_eraseIdx h hp hq

theorem opened_sublist (l : Line α) (i : ℕ) : (l.opened i).Sublist l :=
  (List.eraseIdx_sublist _ _).trans (List.eraseIdx_sublist _ _)

theorem Tidy.put_opened (h : Tidy l) (hn : l.length ≠ 1) (hp : l[i]? = some p)
    (hq : l[nextPlace i l.length]? = some q) : ((l.opened i).put p).put q = l := by
  have hpl := List.mem_of_getElem? hp
  have hql := List.mem_of_getElem? hq
  have hperm := opened_perm hn hp hq
  have hdp := h.disjoint_of_perm hperm
  rw [ticks_cons, Finset.disjoint_union_left] at hdp
  have hdq := h.disjoint_of_perm ((List.Perm.swap p q _).trans hperm)
  rw [← ticks_perm (put_perm _ p)] at hdq
  have hfirst := (h.sublist (opened_sublist l i)).put (h.regular p hpl) (h.positive p hpl) hdp.2
  have hboth := hfirst.put (h.regular q hql) (h.positive q hql) hdq
  exact Falling.eq_of_perm hboth.sorted h.sorted
    ((put_perm _ q).trans (((put_perm _ p).cons q).trans ((List.Perm.swap ..).trans hperm)))

/-- A merged segment, also one without length, is put at the place of the first of the two. -/
theorem Tidy.sorted_put_joined (h : Tidy l) (hn : l.length ≠ 1) (hp : l[i]? = some p)
    (hq : l[nextPlace i l.length]? = some q) : Sorted ((l.opened i).put (joined p q)) := by
  have hsub := opened_sublist l i
  have hrest : Sorted (l.opened i) := (h.sublist hsub).sorted
  have hnodup := ((opened_perm hn hp hq).map (·.annihilation.ticks)).nodup_iff.mpr h.sorted.nodup
  refine (place_isPlace hrest fun t ht he => ?_).falling hrest
  exact (List.nodup_cons.mp hnodup).1
    (List.mem_cons_of_mem _ (List.mem_map.mpr ⟨t, ht, he⟩))

theorem Tidy.joined (h : Tidy l) (hn : l.length ≠ 1) (hp : l[i]? = some p)
    (hq : l[nextPlace i l.length]? = some q) (hne : p.annihilation.ticks ≠ q.creation.ticks) :
    Tidy ((l.opened i).put (joined p q)) ∧
      ticks ((l.opened i).put (joined p q)) = ticks l ∪ (between p q).ticks := by
  have hperm := opened_perm hn hp hq
  obtain ⟨hd, hi⟩ := h.close hp hq (opened_sublist l i) hperm hne
  refine ⟨(h.sublist (opened_sublist l i)).put hi.regular hne hd, ?_⟩
  have hjoined : (Line.joined p q).ticks = q.ticks ∪ (between p q).ticks ∪ p.ticks := hi.ticks_eq
  rw [ticks_perm (put_perm _ _), ticks_cons, hjoined, ← ticks_perm hperm, ticks_cons, ticks_cons]
  ext t
  simp only [Finset.mem_union]
  grind

end Neighbours

section Edits

theorem nil_valid : Valid beta ([] : Line α) := ⟨by simp, .inr nil_tidy⟩

theorem touching_two_valid (beta : α) :
    Valid beta [⟨⟨10, beta⟩, ⟨5, beta⟩⟩, ⟨⟨3, beta⟩, ⟨10, beta⟩⟩] := by
  have hten : 10 < ticksPerPeriod := by decide
  have hregular : ∀ a < 11, ∀ c < 11, (⟨⟨a, beta⟩, ⟨c, beta⟩⟩ : Segment α).Regular :=
    fun a ha c hc => ⟨(Nat.le_of_lt_succ ha).trans_lt hten, (Nat.le_of_lt_succ hc).trans_lt hten⟩
  have hfirst := hregular 10 (by decide) 5 (by decide)
  have hsecond := hregular 3 (by decide) 10 (by decide)
  constructor
  · intro s hs
    rcases List.mem_pair.mp hs with rfl | rfl
    · exact ⟨rfl, rfl, .inl hfirst⟩
    · exact ⟨rfl, rfl, .inl hsecond⟩
  · right
    constructor
    · intro s hs
      rcases List.mem_pair.mp hs with rfl | rfl
      · exact hfirst
      · exact hsecond
    · simp
    · simp [Sorted, Falling]
    · refine List.pairwise_pair.mpr (Finset.disjoint_left.mpr fun t h₁ h₂ => ?_)
      rw [Segment.mem_ticks (.inl hfirst)] at h₁
      rw [Segment.mem_ticks (.inl hsecond)] at h₂
      dsimp only at h₁ h₂
      omega

theorem Valid.sublist (h : l.Valid beta) (hm : m.Sublist l) : m.Valid beta := by
  refine ⟨fun s hs => h.onCycle s (hm.subset hs), ?_⟩
  rcases h.shape with ⟨s, rfl, hw⟩ | h
  · rcases List.sublist_singleton.mp hm with rfl | rfl
    · exact .inr nil_tidy
    · exact .inl ⟨s, rfl, hw⟩
  · exact .inr (h.sublist hm)

theorem singleton_valid (hs : s.OnCycle beta)
    (hp : s.annihilation.ticks ≠ s.creation.ticks) : Valid beta [s] := by
  refine ⟨by simpa using hs, ?_⟩
  rcases hs.placed with hr | hw
  · exact .inr (singleton_tidy hr hp)
  · exact .inl ⟨s, rfl, hw⟩

theorem onCycle_of_perm (h : ∀ t ∈ l, t.OnCycle beta) (hm : m.Perm l) : ∀ t ∈ m, t.OnCycle beta :=
  fun t ht => h t (hm.mem_iff.mp ht)

theorem onCycle_put (h : ∀ t ∈ l, t.OnCycle beta) (hs : s.OnCycle beta) :
    ∀ t ∈ l.put s, t.OnCycle beta :=
  onCycle_of_perm (List.forall_mem_cons.mpr ⟨hs, h⟩) (put_perm l s)

theorem Valid.put (h : l.Valid beta) (hs : s.OnCycle beta) (hr : s.Regular)
    (hp : s.annihilation.ticks ≠ s.creation.ticks) (hd : Disjoint (ticks l) s.ticks) :
    (l.put s).Valid beta := by
  refine ⟨onCycle_put h.onCycle hs, .inr ?_⟩
  rcases h.shape with ⟨t, rfl, hw⟩ | h
  · have hmem := Segment.creation_mem_ticks hr hp
    refine absurd (mem_ticks.mpr ⟨t, List.mem_singleton_self t, ?_⟩)
      (Finset.disjoint_right.mp hd hmem)
    rw [Segment.ticks_whole hw, Finset.mem_range]
    exact Segment.ticks_lt hmem
  · exact h.put hr hp hd

end Edits

section Cut

variable {i : ℕ}

/-- The times `a` and `c` bound a hole that can be cut into a segment: strictly inside, or anywhere
in a segment without ends. -/
def Hole (s : Segment α) (a c : Time α) : Prop :=
  if s.Whole then a.ticks < ticksPerPeriod ∧ c.ticks < ticksPerPeriod ∧ a.ticks ≠ c.ticks
  else Inside s a c

def holed (l : Line α) (i : ℕ) (s : Segment α) (a c : Time α) : Line α :=
  if s.Whole then put (l.eraseIdx i) ⟨a, c⟩ else cut (l.eraseIdx i) s a c

theorem eq_singleton_of_whole (h : l.Valid beta) (hs : l[i]? = some s) (hw : s.Whole) :
    l = [s] := by
  rcases h.shape with ⟨t, rfl, -⟩ | ht
  · rw [List.mem_singleton.mp (List.mem_of_getElem? hs)]
  · exact absurd hw (ht.not_whole (List.mem_of_getElem? hs))

theorem ticks_singleton (s : Segment α) : ticks [s] = s.ticks := Finset.union_empty _

theorem holed_whole (h : l.Valid beta) (hs : l[i]? = some s) (hw : s.Whole) :
    l = [s] ∧ l.holed i s a c = [⟨a, c⟩] := by
  have hl := eq_singleton_of_whole h hs hw
  subst hl
  have hi : i = 0 := by simpa using (List.getElem?_eq_some_iff.mp hs).1
  subst hi
  exact ⟨rfl, by rw [holed, if_pos hw]; rfl⟩

theorem Valid.tidy_holed (h : l.Valid beta) (hs : l[i]? = some s) (hh : Hole s a c) :
    Tidy (l.holed i s a c) := by
  by_cases hw : s.Whole
  · rw [Hole, if_pos hw] at hh
    rw [(holed_whole h hs hw).2]
    exact singleton_tidy ⟨hh.1, hh.2.1⟩ hh.2.2
  · rw [Hole, if_neg hw] at hh
    have ht := h.tidy (List.mem_of_getElem? hs) hw
    rw [Line.holed, if_neg hw]
    exact (ht.eraseIdx i).cut (ht.disjoint_of_perm (perm_eraseIdx hs)) hh

theorem Valid.holed (h : l.Valid beta) (hs : l[i]? = some s) (ha : a.IsPoint beta)
    (hc : c.IsPoint beta) (hh : Hole s a c) : (l.holed i s a c).Valid beta := by
  refine ⟨?_, .inr (h.tidy_holed hs hh)⟩
  by_cases hw : s.Whole
  · rw [(holed_whole h hs hw).2]
    simpa using Segment.onCycle_of_points ha hc
  · obtain ⟨hsa, hsc⟩ := (h.onCycle s (List.mem_of_getElem? hs)).points hw
    rw [Line.holed, if_neg hw]
    exact onCycle_put (onCycle_put (h.sublist (List.eraseIdx_sublist l i)).onCycle
      (Segment.onCycle_of_points hsa hc)) (Segment.onCycle_of_points ha hsc)

theorem Valid.ticks_holed (h : l.Valid beta) (hs : l[i]? = some s) (hh : Hole s a c) :
    ticks (l.holed i s a c) = ticks l \ (Segment.mk c a).ticks := by
  by_cases hw : s.Whole
  · rw [Hole, if_pos hw] at hh
    obtain ⟨rfl, hl⟩ := holed_whole (a := a) (c := c) h hs hw
    rw [hl, ticks_singleton, ticks_singleton, Segment.ticks_whole hw]
    have hswap : ∀ t < ticksPerPeriod, t ∈ (Segment.mk a c).ticks ↔ t ∉ (Segment.mk c a).ticks :=
      fun t ht => Segment.mem_ticks_swap (s := ⟨c, a⟩) ⟨hh.2.1, hh.1⟩ hh.2.2.symm ht
    ext t
    rw [Finset.mem_sdiff, Finset.mem_range]
    exact ⟨fun ht => ⟨Segment.ticks_lt ht, (hswap t (Segment.ticks_lt ht)).mp ht⟩,
      fun ⟨ht, hn⟩ => (hswap t ht).mpr hn⟩
  · rw [Hole, if_neg hw] at hh
    have ht := h.tidy (List.mem_of_getElem? hs) hw
    rw [Line.holed, if_neg hw, ticks_cut (ht.disjoint_of_perm (perm_eraseIdx hs)) hh,
      ← ticks_perm (perm_eraseIdx hs), ticks_cons]

theorem hole_subset (hs : l[i]? = some s) (hh : Hole s a c) :
    (Segment.mk c a).ticks ⊆ ticks l := by
  intro t ht
  refine mem_ticks.mpr ⟨s, List.mem_of_getElem? hs, ?_⟩
  by_cases hw : s.Whole
  · rw [Segment.ticks_whole hw, Finset.mem_range]
    exact Segment.ticks_lt ht
  · rw [Hole, if_neg hw] at hh
    rw [hh.ticks_eq, Finset.mem_union, Finset.mem_union]
    exact .inl (.inr ht)

end Cut

section Close

variable {i : ℕ} {p q : Segment α}

def whole (beta : α) : Segment α := ⟨⟨ticksPerPeriod, beta⟩, ⟨0, beta⟩⟩

theorem whole_isWhole (beta : α) : (whole beta).Whole := ⟨rfl, rfl⟩

theorem whole_onCycle (beta : α) : (whole beta).OnCycle beta :=
  ⟨rfl, rfl, .inr (whole_isWhole beta)⟩

theorem eq_whole (hs : s.OnCycle beta) (hw : s.Whole) : s = whole beta := by
  obtain ⟨⟨a, pa⟩, ⟨c, pc⟩⟩ := s
  obtain ⟨rfl, rfl⟩ := hw
  cases hs.annihilation
  cases hs.creation
  rfl

def closed (beta : α) (l : Line α) (i : ℕ) (p q : Segment α) : Line α :=
  if l.length = 1 then [whole beta] else put (l.opened i) (joined p q)

/-- Two segments that meet at both ends of their gap fill the cycle with it, so that no other one
has room. -/
theorem Tidy.eq_pair (h : Tidy l) (hn : l.length ≠ 1) (hp : l[i]? = some p)
    (hq : l[nextPlace i l.length]? = some q) (he : p.annihilation.ticks = q.creation.ticks) :
    l.length = 2 := by
  have hperm := opened_perm hn hp hq
  suffices hrest : l.opened i = [] by rw [← hperm.length_eq, hrest]; rfl
  refine List.eq_nil_iff_forall_not_mem.mpr fun r hr => ?_
  have hpl := h.regular p (List.mem_of_getElem? hp)
  have hql := h.regular q (List.mem_of_getElem? hq)
  have hrl := (opened_sublist l i).subset hr
  have hmem := Segment.creation_mem_ticks (h.regular r hrl) (h.positive r hrl)
  have hrp := Finset.disjoint_left.mp (h.disjoint_of_perm hperm)
    (mem_ticks.mpr ⟨r, List.mem_cons_of_mem q hr, hmem⟩)
  have hrq := Finset.disjoint_left.mp (h.disjoint_of_perm ((List.Perm.swap p q _).trans hperm))
    (mem_ticks.mpr ⟨r, List.mem_cons_of_mem p hr, hmem⟩)
  have hrg := Finset.disjoint_left.mp (h.gap_free hp hq r hrl) hmem
  have hlt := (h.regular r hrl).2
  have hpos := h.positive p (List.mem_of_getElem? hp)
  rw [Segment.mem_ticks (.inl hpl)] at hrp
  rw [Segment.mem_ticks (.inl hql)] at hrq
  rw [Segment.mem_ticks (.inl ⟨hpl.2, hql.1⟩)] at hrg
  dsimp only at hrg
  omega

theorem Valid.onCycle_closed (h : l.Valid beta) (ht : Tidy l) (hp : l[i]? = some p)
    (hq : l[nextPlace i l.length]? = some q) :
    ∀ s ∈ Line.closed beta l i p q, s.OnCycle beta := by
  have hpl := List.mem_of_getElem? hp
  have hql := List.mem_of_getElem? hq
  rw [Line.closed]
  split_ifs with hn
  · simpa using whole_onCycle beta
  · exact onCycle_put (h.sublist (opened_sublist l i)).onCycle (Segment.onCycle_of_points
      ((h.onCycle p hpl).points (ht.not_whole hpl)).1
      ((h.onCycle q hql).points (ht.not_whole hql)).2)

theorem eq_singleton (hn : l.length = 1) (hp : l[i]? = some p)
    (hq : l[nextPlace i l.length]? = some q) : l = [p] ∧ q = p ∧ i = 0 := by
  obtain ⟨t, rfl⟩ := List.length_eq_one_iff.mp hn
  have hi : i = 0 := by simpa using (List.getElem?_eq_some_iff.mp hp).1
  subst hi
  cases hp
  cases hq
  exact ⟨rfl, rfl, rfl⟩

theorem Valid.closed (h : l.Valid beta) (ht : Tidy l) (hp : l[i]? = some p)
    (hq : l[nextPlace i l.length]? = some q)
    (hne : l.length = 1 ∨ p.annihilation.ticks ≠ q.creation.ticks) :
    (closed beta l i p q).Valid beta ∧
      ticks (closed beta l i p q) = ticks l ∪ (between p q).ticks := by
  by_cases hn : l.length = 1
  · obtain ⟨rfl, rfl, -⟩ := eq_singleton hn hp hq
    rw [Line.closed, if_pos hn]
    refine ⟨singleton_valid (whole_onCycle beta) ticksPerPeriod_pos.ne', ?_⟩
    have hmem := List.mem_singleton_self q
    rw [ticks_singleton, ticks_singleton, Segment.ticks_whole (whole_isWhole beta)]
    have hswap : ∀ t < ticksPerPeriod, t ∈ (between q q).ticks ↔ t ∉ q.ticks := fun t =>
      Segment.mem_ticks_swap (ht.regular q hmem) (ht.positive q hmem)
    ext t
    rw [Finset.mem_union, Finset.mem_range]
    constructor
    · intro hlt
      rw [hswap t hlt]
      exact em _
    · rintro (hm | hm) <;> exact Segment.ticks_lt hm
  · obtain ⟨htidy, hticks⟩ := ht.joined hn hp hq (hne.resolve_left hn)
    have hcycle := h.onCycle_closed ht hp hq
    rw [Line.closed, if_neg hn] at hcycle ⊢
    exact ⟨⟨hcycle, .inr htidy⟩, hticks⟩

theorem Valid.positive (h : l.Valid beta) (hs : s ∈ l) :
    s.annihilation.ticks ≠ s.creation.ticks := by
  rcases h.shape with ⟨t, rfl, hw⟩ | h
  · rw [List.mem_singleton.mp hs, hw.1, hw.2]
    exact ticksPerPeriod_pos.ne'
  · exact h.positive s hs

/-- Closing the hole that a cut has left gives the line back. The two segments that meet the hole
end at its two times. -/
theorem Valid.closed_holed (h : l.Valid beta) (hs : l[i]? = some s) (ha : a.IsPoint beta)
    (hc : c.IsPoint beta) (hh : Hole s a c) :
    ∃ j p q, (l.holed i s a c)[j]? = some p ∧
      (l.holed i s a c)[nextPlace j (l.holed i s a c).length]? = some q ∧
      (if (l.holed i s a c).length = 1 then whole beta else joined p q) = s ∧
      Line.closed beta (l.holed i s a c) j p q = l ∧ p.creation = c ∧ q.annihilation = a := by
  have hsl := List.mem_of_getElem? hs
  by_cases hw : s.Whole
  · obtain ⟨rfl, hl⟩ := holed_whole (a := a) (c := c) h hs hw
    have hsw := eq_whole (h.onCycle s hsl) hw
    refine ⟨0, ⟨a, c⟩, ⟨a, c⟩, by rw [hl]; rfl, by rw [hl]; rfl, by rw [hl]; exact hsw.symm,
      ?_, rfl, rfl⟩
    rw [hl, hsw]
    rfl
  · have ht := h.tidy hsl hw
    have hvalid := h.holed hs ha hc hh
    have hticks := h.ticks_holed hs hh
    rw [Hole, if_neg hw] at hh
    rw [Line.holed, if_neg hw] at hvalid hticks ⊢
    have hperm := cut_perm (l.eraseIdx i) s a c
    have hright : (⟨s.annihilation, c⟩ : Segment α) ∈ cut (l.eraseIdx i) s a c :=
      hperm.mem_iff.mpr (by simp)
    have hleft : (⟨a, s.creation⟩ : Segment α) ∈ cut (l.eraseIdx i) s a c :=
      hperm.mem_iff.mpr (by simp)
    have htidy := (ht.eraseIdx i).cut (ht.disjoint_of_perm (perm_eraseIdx hs)) hh
    obtain ⟨j, hj⟩ := List.mem_iff_getElem?.mp hright
    have hnext := htidy.next_of_gap hj hleft (by
      rw [hticks]
      exact Finset.sdiff_disjoint)
    have hn : (cut (l.eraseIdx i) s a c).length ≠ 1 := by
      rw [hperm.length_eq]
      simp
    refine ⟨j, _, _, hj, hnext, by rw [if_neg hn]; rfl, ?_, rfl, rfl⟩
    -- the two pieces are taken out, so that what is left is the rest of the line
    have hrest : (opened (cut (l.eraseIdx i) s a c) j).Perm (l.eraseIdx i) :=
      (((opened_perm hn hj hnext).trans hperm).trans (.swap ..)).cons_inv.cons_inv
    rw [Line.closed, if_neg hn]
    exact Falling.eq_of_perm (htidy.joined hn hj hnext (h.positive hsl)).1.sorted ht.sorted
      (((put_perm _ _).trans (.cons _ hrest)).trans (perm_eraseIdx hs))

end Close

end ImpuritySampler.Line
