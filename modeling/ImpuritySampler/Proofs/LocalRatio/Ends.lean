import ImpuritySampler.Proofs.Configuration.Lines

/-!
# Operators of a configuration

Every segment with ends stands for two operators. Which ones a changed line has is followed up to
order.
-/

set_option autoImplicit false

namespace ImpuritySampler

/-- An end of a segment, with the charge plus one if it is a creation. -/
structure Operator where
  ticks : ℕ
  color : ℕ
  charge : Sign

section Others

def otherColors (n color : ℕ) : List ℕ := (List.range n).erase color

variable {n color k : ℕ}

theorem mem_otherColors : k ∈ otherColors n color ↔ k ≠ color ∧ k < n := by
  rw [otherColors, List.nodup_range.mem_erase_iff, List.mem_range]

theorem range_perm (h : color < n) : (List.range n).Perm (color::otherColors n color) :=
  List.perm_cons_erase (List.mem_range.mpr h)

theorem sum_range {α : Type} [AddCommMonoid α] (f : ℕ → α) (h : color < n) :
    ((List.range n).map f).sum = f color + ((otherColors n color).map f).sum := by
  rw [((range_perm h).map f).sum_eq, List.map_cons, List.sum_cons]

end Others

def Line.ends {α : Type} (l : Line α) (color : ℕ) : List Operator :=
  l.flatMap fun s =>
    if s.Whole then []
    else [⟨s.creation.ticks, color, .plus⟩, ⟨s.annihilation.ticks, color, .minus⟩]

def Configuration.ends {α : Type} (c : Configuration α) : List Operator :=
  (List.range c.colors).flatMap fun k => (c.lineAt k).ends k

section Ends

variable {α : Type} {beta : α} {l l' : Line α} {p q s : Segment α} {a h : Time α} {i k : ℕ}
variable {z : Operator}

theorem Line.ends_perm (h : l.Perm l') (k : ℕ) : (l.ends k).Perm (l'.ends k) := h.flatMap_right _

theorem Line.ends_cons (hw : ¬s.Whole) (l : Line α) (k : ℕ) : Line.ends (s::l) k =
    ⟨s.creation.ticks, k, .plus⟩::⟨s.annihilation.ticks, k, .minus⟩::l.ends k := by
  rw [Line.ends, List.flatMap_cons, if_neg hw]
  rfl

theorem Line.ends_whole (hw : s.Whole) (l : Line α) (k : ℕ) : Line.ends (s::l) k = l.ends k := by
  rw [Line.ends, List.flatMap_cons, if_pos hw]
  rfl

theorem Line.mem_ends (h : ∀ s ∈ l, s.OnCycle beta) (hz : z ∈ l.ends k) :
    z.ticks < ticksPerPeriod ∧ z.color = k := by
  obtain ⟨s, hs, hz⟩ := List.mem_flatMap.mp hz
  by_cases hw : s.Whole
  · rw [if_pos hw] at hz
    exact absurd hz List.not_mem_nil
  · rw [if_neg hw] at hz
    obtain ⟨ha, hc⟩ := (h s hs).regular hw
    rcases List.mem_pair.mp hz with rfl | rfl
    · exact ⟨hc, rfl⟩
    · exact ⟨ha, rfl⟩

theorem Configuration.mem_ends {c : Configuration α} (h : c.Valid beta) (hz : z ∈ c.ends) :
    z.ticks < ticksPerPeriod ∧ z.color < c.colors := by
  obtain ⟨k, hk, hz⟩ := List.mem_flatMap.mp hz
  have hk := List.mem_range.mp hk
  obtain ⟨ht, rfl⟩ := Line.mem_ends (h.lineAt hk).onCycle hz
  exact ⟨ht, hk⟩

theorem Configuration.ends_setLine {c : Configuration α} {color : ℕ} {new : List Operator}
    (hc : color < c.colors) (h : (l.ends color).Perm (new ++ (c.lineAt color).ends color)) :
    (c.setLine color l).ends.Perm (new ++ c.ends) := by
  have hrest : (otherColors c.colors color).flatMap (fun k =>
        ((c.setLine color l).lineAt k).ends k) =
      (otherColors c.colors color).flatMap fun k => (c.lineAt k).ends k := by
    refine List.flatMap_congr fun k hk => ?_
    rw [lineAt_setLine hc, if_neg (mem_otherColors.mp hk).1]
  have hsplit : ∀ d : Configuration α, d.colors = c.colors → d.ends.Perm
      ((d.lineAt color).ends color ++
        (otherColors c.colors color).flatMap fun k => (d.lineAt k).ends k) := fun d hd => by
    rw [ends, hd]
    exact (range_perm hc).flatMap_right _
  calc (c.setLine color l).ends
    List.Perm _ (l.ends color ++
        (otherColors c.colors color).flatMap fun k => (c.lineAt k).ends k) := by
      rw [← hrest]
      have h := hsplit (c.setLine color l) colors_setLine
      rwa [lineAt_setLine hc, if_pos rfl] at h
    List.Perm _ (new ++ ((c.lineAt color).ends color ++
        (otherColors c.colors color).flatMap fun k => (c.lineAt k).ends k)) := by
      rw [← List.append_assoc]
      exact h.append_right _
    List.Perm _ (new ++ c.ends) := (hsplit c rfl).symm.append_left new

theorem perm_reverse_three {β : Type} (x y z : β) (l : List β) :
    (x::y::z::l).Perm (z::y::x::l) := (List.reverse_perm [z, y, x]).append_right l

theorem Line.ends_holed (hv : l.Valid beta) (hs : l[i]? = some s) (ha : a.IsPoint beta)
    (hh : h.IsPoint beta) (k : ℕ) : ((l.holed i s a h).ends k).Perm
      (⟨h.ticks, k, .plus⟩::⟨a.ticks, k, .minus⟩::l.ends k) := by
  by_cases hw : s.Whole
  · obtain ⟨rfl, hl⟩ := holed_whole (a := a) (c := h) hv hs hw
    have hpiece : ¬(Segment.mk a h).Whole := fun hp => hp.not_regular ⟨ha.lt, hh.lt⟩
    rw [hl, ends_cons hpiece, ends_whole hw]
  · obtain ⟨hsa, hsc⟩ := (hv.onCycle s (List.mem_of_getElem? hs)).points hw
    have hleft : ¬(Segment.mk a s.creation).Whole := fun hp => hp.not_regular ⟨ha.lt, hsc.lt⟩
    have hright : ¬(Segment.mk s.annihilation h).Whole := fun hp =>
      hp.not_regular ⟨hsa.lt, hh.lt⟩
    have hold := ends_perm (perm_eraseIdx hs) k
    rw [ends_cons hw] at hold
    have hnew := ends_perm (cut_perm (l.eraseIdx i) s a h) k
    rw [ends_cons hleft, ends_cons hright] at hnew
    rw [holed, if_neg hw]
    exact (hnew.trans (perm_reverse_three _ _ _ _)).trans (.cons _ (.cons _ hold))

theorem Line.ends_closed (hv : l.Valid beta) (ht : Tidy l) (hp : l[i]? = some p)
    (hq : l[nextPlace i l.length]? = some q) (k : ℕ) : (l.ends k).Perm
      (⟨p.creation.ticks, k, .plus⟩::⟨q.annihilation.ticks, k, .minus⟩::
        (closed beta l i p q).ends k) := by
  have hpw := ht.not_whole (List.mem_of_getElem? hp)
  have hqw := ht.not_whole (List.mem_of_getElem? hq)
  by_cases hn : l.length = 1
  · obtain ⟨rfl, rfl, -⟩ := eq_singleton hn hp hq
    rw [closed, if_pos hn, ends_cons hpw, ends_whole (whole_isWhole beta)]
  · have hjoined : ¬(joined p q).Whole := fun hj => hj.not_regular
      ⟨(ht.regular p (List.mem_of_getElem? hp)).1, (ht.regular q (List.mem_of_getElem? hq)).2⟩
    have hold := ends_perm (opened_perm hn hp hq) k
    rw [ends_cons hpw, ends_cons hqw] at hold
    have hnew := ends_perm (put_perm (l.opened i) (joined p q)) k
    rw [ends_cons hjoined] at hnew
    rw [closed, if_neg hn]
    exact hold.symm.trans (.cons _ ((perm_reverse_three _ _ _ _).trans (.cons _ hnew.symm)))

end Ends

end ImpuritySampler
