import ImpuritySampler.Proofs.State.Consistent

/-!
# Another origin of time

If all times move forward around the cycle by the same number of ticks, the ways between them stay
the same. A segment occupies the moved ticks, the whole cycle stays the whole cycle, and a valid
line becomes a valid line once it is sorted again.
-/

set_option autoImplicit false

namespace ImpuritySampler

namespace Time

variable {t u : ℕ}

def ahead (t d : ℕ) : ℕ := (t + d) % ticksPerPeriod

/-- On its way ahead the tick passes the end of the axis. -/
def crosses (d t : ℕ) : Bool := ticksPerPeriod ≤ t + d % ticksPerPeriod

theorem crosses_mono {d : ℕ} (h : t ≤ u) (ht : crosses d t = true) : crosses d u = true := by
  rw [crosses, decide_eq_true_iff] at *
  omega

theorem ahead_lt (t d : ℕ) : ahead t d < ticksPerPeriod := Nat.mod_lt _ ticksPerPeriod_pos

theorem ahead_cases (ht : t < ticksPerPeriod) (d : ℕ) :
    (crosses d t = true ∧ ticksPerPeriod ≤ t + d % ticksPerPeriod ∧
      ahead t d + ticksPerPeriod = t + d % ticksPerPeriod) ∨
    (crosses d t = false ∧ t + d % ticksPerPeriod < ticksPerPeriod ∧
      ahead t d = t + d % ticksPerPeriod) := by
  have hd : d % ticksPerPeriod < ticksPerPeriod := Nat.mod_lt _ ticksPerPeriod_pos
  rw [crosses, decide_eq_true_iff, decide_eq_false_iff_not, ahead, Nat.add_mod,
    Nat.mod_eq_of_lt ht]
  generalize d % ticksPerPeriod = e at hd ⊢
  rcases le_or_gt ticksPerPeriod (t + e) with h | h
  · have hlt : t + e - ticksPerPeriod < ticksPerPeriod := by omega
    rw [Nat.mod_eq_sub_mod h, Nat.mod_eq_of_lt hlt]
    omega
  · rw [Nat.mod_eq_of_lt h]
    omega

theorem gap_ahead (ht : t < ticksPerPeriod) (hu : u < ticksPerPeriod) (d : ℕ) :
    gap (ahead t d) (ahead u d) = gap t u := by
  have hd : d % ticksPerPeriod < ticksPerPeriod := Nat.mod_lt _ ticksPerPeriod_pos
  have h₁ := ahead_cases ht d
  have h₂ := ahead_cases hu d
  generalize d % ticksPerPeriod = e at hd h₁ h₂
  unfold gap
  split_ifs <;> omega

theorem ahead_inj (ht : t < ticksPerPeriod) (hu : u < ticksPerPeriod) {d : ℕ} :
    ahead t d = ahead u d ↔ t = u := by
  refine ⟨fun h => ?_, fun h => by rw [h]⟩
  have h₁ := ahead_cases ht d
  have h₂ := ahead_cases hu d
  omega

theorem exists_ahead (ht : t < ticksPerPeriod) (d : ℕ) :
    ∃ u < ticksPerPeriod, ahead u d = t := by
  have hd : d % ticksPerPeriod < ticksPerPeriod := Nat.mod_lt _ ticksPerPeriod_pos
  have hlt := gap_lt ht (d % ticksPerPeriod)
  refine ⟨_, hlt, ?_⟩
  have h := ahead_cases hlt d
  generalize d % ticksPerPeriod = e at hd h ⊢
  unfold gap at *
  split_ifs at * <;> omega

variable {α : Type} {beta : α}

def shift (d : ℕ) (t : Time α) : Time α := ⟨ahead t.ticks d, t.period⟩

theorem IsPoint.shift {t : Time α} (h : t.IsPoint beta) (d : ℕ) : (t.shift d).IsPoint beta :=
  ⟨h.period, ahead_lt _ _⟩

end Time

open Time

variable {α : Type} {beta : α} {d : ℕ} {s t : Segment α} {l : Line α}

theorem card_inter_ahead {u v : Finset ℕ} (hu : ∀ t ∈ u, t < ticksPerPeriod)
    (hv : ∀ t ∈ v, t < ticksPerPeriod) (d : ℕ) :
    (u.image (ahead · d) ∩ v.image (ahead · d)).card = (u ∩ v).card := by
  have hinj : Set.InjOn (ahead · d) (Finset.range ticksPerPeriod) := fun t ht r hr h =>
    (ahead_inj (Finset.mem_range.mp ht) (Finset.mem_range.mp hr)).mp h
  have hsub : ∀ {w : Finset ℕ}, (∀ t ∈ w, t < ticksPerPeriod) →
      (w : Set ℕ) ⊆ Finset.range ticksPerPeriod := fun hw t ht => Finset.mem_range.mpr (hw t ht)
  rw [← Finset.image_inter_of_injOn u v (hinj.mono (Set.union_subset (hsub hu) (hsub hv)))]
  exact Finset.card_image_of_injOn
    (hinj.mono (hsub fun t ht => hu t (Finset.mem_of_mem_inter_left ht)))

namespace Segment

/-- The whole cycle has no ends that could move. -/
def shift (d : ℕ) (s : Segment α) : Segment α :=
  if s.Whole then s else ⟨s.annihilation.shift d, s.creation.shift d⟩

theorem shift_whole (h : s.Whole) (d : ℕ) : s.shift d = s := if_pos h

theorem shift_ends (h : ¬s.Whole) (d : ℕ) :
    s.shift d = ⟨s.annihilation.shift d, s.creation.shift d⟩ := if_neg h

theorem shift_regular (h : ¬s.Whole) (d : ℕ) : (s.shift d).Regular := by
  rw [shift_ends h]
  exact ⟨ahead_lt _ _, ahead_lt _ _⟩

theorem whole_shift : (s.shift d).Whole ↔ s.Whole := by
  constructor
  · intro h
    by_contra hw
    exact h.not_regular (shift_regular hw d)
  · intro h
    rwa [shift_whole h]

theorem OnCycle.shift (h : s.OnCycle beta) (d : ℕ) : (s.shift d).OnCycle beta := by
  by_cases hw : s.Whole
  · rwa [shift_whole hw]
  · refine ⟨?_, ?_, .inl (shift_regular hw d)⟩
    · rw [shift_ends hw]
      exact h.annihilation
    · rw [shift_ends hw]
      exact h.creation

theorem mem_ticks_shift (h : s.Placed) {u : ℕ} (hu : u < ticksPerPeriod) :
    ahead u d ∈ (s.shift d).ticks ↔ u ∈ s.ticks := by
  by_cases hw : s.Whole
  · rw [shift_whole hw, ticks_whole hw, Finset.mem_range, Finset.mem_range]
    exact iff_of_true (ahead_lt _ _) hu
  · obtain ⟨ha, hc⟩ := h.resolve_right hw
    rw [shift_ends hw, mem_ticks_gap, mem_ticks_gap]
    exact and_congr (iff_of_true (ahead_lt _ _) hu) (by
      rw [Time.shift, Time.shift, gap_ahead hu hc, gap_ahead ha hc])

theorem ticks_shift (h : s.Placed) (d : ℕ) :
    (s.shift d).ticks = s.ticks.image (ahead · d) := by
  ext t
  rw [Finset.mem_image]
  constructor
  · intro ht
    obtain ⟨u, hu, rfl⟩ := exists_ahead (ticks_lt ht) d
    exact ⟨u, (mem_ticks_shift h hu).mp ht, rfl⟩
  · rintro ⟨u, hu, rfl⟩
    exact (mem_ticks_shift h (ticks_lt hu)).mpr hu

theorem disjoint_shift (hs : s.Placed) (ht : t.Placed) (d : ℕ) :
    Disjoint (s.shift d).ticks (t.shift d).ticks ↔ Disjoint s.ticks t.ticks := by
  rw [Finset.disjoint_iff_inter_eq_empty, Finset.disjoint_iff_inter_eq_empty,
    ← Finset.card_eq_zero, ← Finset.card_eq_zero, ticks_shift hs, ticks_shift ht,
    card_inter_ahead (fun _ => ticks_lt) fun _ => ticks_lt]

theorem notAfter_iff : s.notAfter t = true ↔ t.annihilation.ticks < s.annihilation.ticks ∨
    (t.annihilation.ticks = s.annihilation.ticks ∧ t.creation.ticks ≤ s.creation.ticks) := by
  rw [notAfter, bne_iff_ne, compare, ne_eq, Ordering.then_eq_gt, Nat.compare_eq_gt,
    Nat.compare_eq_eq, Nat.compare_eq_gt]
  omega

end Segment

namespace Line

/-- All operators `d` ticks later, in the order of a line. -/
def shift (d : ℕ) (l : Line α) : Line α := (l.map (Segment.shift d)).mergeSort Segment.notAfter

theorem shift_perm (d : ℕ) (l : Line α) : (l.shift d).Perm (l.map (Segment.shift d)) :=
  List.mergeSort_perm _ _

theorem shift_singleton (d : ℕ) (s : Segment α) : Line.shift d [s] = [s.shift d] :=
  List.mergeSort_singleton _

theorem onCycle_shift (h : ∀ s ∈ l, s.OnCycle beta) (d : ℕ) : ∀ s ∈ l.shift d, s.OnCycle beta := by
  intro s hs
  obtain ⟨t, ht, rfl⟩ := List.mem_map.mp ((shift_perm d l).mem_iff.mp hs)
  exact (h t ht).shift d

theorem sorted_shift (h : ((l.map (Segment.shift d)).map (·.annihilation.ticks)).Nodup) :
    Sorted (l.shift d) := by
  have horder : (l.shift d).Pairwise fun s t => s.notAfter t = true :=
    List.pairwise_mergeSort
      (fun s t u hst htu => by
        rw [Segment.notAfter_iff] at *
        omega)
      (fun s t => by
        rw [Bool.or_eq_true, Segment.notAfter_iff, Segment.notAfter_iff]
        omega) _
  have hne : (l.shift d).Pairwise fun s t => s.annihilation.ticks ≠ t.annihilation.ticks :=
    List.pairwise_map.mp (((shift_perm d l).map _).nodup_iff.mpr h)
  refine (horder.and hne).imp fun {s t} hst => ?_
  show t.annihilation.ticks < s.annihilation.ticks
  have hnot := Segment.notAfter_iff.mp hst.1
  have hdiffer := hst.2
  omega

theorem Tidy.shift (h : Tidy l) (d : ℕ) : Tidy (l.shift d) := by
  have hends : ∀ s ∈ l, s.shift d = ⟨s.annihilation.shift d, s.creation.shift d⟩ := fun s hs =>
    Segment.shift_ends (h.not_whole hs) d
  have hmem : ∀ t ∈ l.shift d, ∃ s ∈ l, s.shift d = t := fun t ht =>
    List.mem_map.mp ((shift_perm d l).mem_iff.mp ht)
  have hnodup : ((l.map (Segment.shift d)).map (·.annihilation.ticks)).Nodup := by
    rw [List.map_map]
    refine List.Nodup.map_on (fun s hs t ht he => ?_) (h.sorted.imp fun hlt he => ?_)
    · simp only [Function.comp_apply, hends s hs, hends t ht, Time.shift] at he
      exact h.eq_of_annihilation hs ht
        ((ahead_inj (h.regular s hs).1 (h.regular t ht).1).mp he)
    · rw [he] at hlt
      exact lt_irrefl _ hlt
  refine ⟨fun t ht => ?_, fun t ht => ?_, sorted_shift hnodup, ?_⟩
  · obtain ⟨s, hs, rfl⟩ := hmem t ht
    exact Segment.shift_regular (h.not_whole hs) d
  · obtain ⟨s, hs, rfl⟩ := hmem t ht
    rw [hends s hs]
    exact fun he => h.positive s hs ((ahead_inj (h.regular s hs).1 (h.regular s hs).2).mp he)
  · refine ((shift_perm d l).pairwise_iff fun hst => hst.symm).mpr (List.pairwise_map.mpr ?_)
    exact h.apart.imp_of_mem fun hs ht hst =>
      (Segment.disjoint_shift (.inl (h.regular _ hs)) (.inl (h.regular _ ht)) d).mpr hst

theorem Valid.shift (h : l.Valid beta) (d : ℕ) : (l.shift d).Valid beta := by
  refine ⟨onCycle_shift h.onCycle d, ?_⟩
  rcases h.shape with ⟨s, rfl, hw⟩ | ht
  · exact .inl ⟨s, by rw [shift_singleton, Segment.shift_whole hw], hw⟩
  · exact .inr (ht.shift d)

theorem bounded_shift (d : ℕ) (l : Line α) :
    (l.shift d).bounded.Perm (l.bounded.map (Segment.shift d)) := by
  have hfilter : (l.map (Segment.shift d)).filter (fun s => !decide s.Whole) =
      (l.filter fun s => !decide s.Whole).map (Segment.shift d) := by
    rw [List.filter_map]
    congr 1
    exact List.filter_congr fun s _ => by
      simp only [Function.comp_apply, Segment.whole_shift]
  rw [bounded, bounded, ← hfilter]
  exact (shift_perm d l).filter _

section Neighbours

variable {l' : Line α} {p q : Segment α} {i j : ℕ}

/-- The neighbours on both sides of a gap are neighbours from every origin. -/
theorem Tidy.next_shift (h : Tidy l) (h' : Tidy l') (hperm : l'.Perm (l.map (Segment.shift d)))
    (hp : l[i]? = some p) (hq : l[nextPlace i l.length]? = some q)
    (hp' : l'[j]? = some (p.shift d)) : l'[nextPlace j l'.length]? = some (q.shift d) := by
  have hpl := List.mem_of_getElem? hp
  have hql := List.mem_of_getElem? hq
  have hgap : (between p q).Regular := ⟨(h.regular p hpl).2, (h.regular q hql).1⟩
  have hends : (Segment.mk (p.shift d).creation (q.shift d).annihilation) =
      (between p q).shift d := by
    rw [Segment.shift_ends (h.not_whole hpl), Segment.shift_ends (h.not_whole hql),
      Segment.shift_ends fun hw => hw.not_regular hgap]
    rfl
  refine h'.next_of_gap hp' (hperm.mem_iff.mpr (List.mem_map_of_mem hql))
    (disjoint_ticks fun t ht => ?_)
  obtain ⟨s, hs, rfl⟩ := List.mem_map.mp (hperm.mem_iff.mp ht)
  rw [hends, Segment.disjoint_shift (.inl (h.regular s hs)) (.inl hgap)]
  exact h.gap_free hp hq s hs

theorem Tidy.closed_shift (h : Tidy l) (hperm : l'.Perm (l.map (Segment.shift d)))
    (hp : l[i]? = some p) (hq : l[nextPlace i l.length]? = some q)
    (hp' : l'[j]? = some (p.shift d)) (hq' : l'[nextPlace j l'.length]? = some (q.shift d)) :
    (closed beta l' j (p.shift d) (q.shift d)).Perm
      ((closed beta l i p q).map (Segment.shift d)) := by
  have hlength : l'.length = l.length := by rw [hperm.length_eq, List.length_map]
  by_cases hn : l.length = 1
  · rw [closed, closed, if_pos hn, if_pos (hlength.trans hn), List.map_singleton,
      Segment.shift_whole (whole_isWhole beta)]
  · have hpl := h.regular p (List.mem_of_getElem? hp)
    have hql := h.regular q (List.mem_of_getElem? hq)
    have hends : ¬(Line.joined p q).Whole := fun hw => hw.not_regular ⟨hpl.1, hql.2⟩
    have hjoined : Line.joined (p.shift d) (q.shift d) = (Line.joined p q).shift d := by
      rw [Segment.shift_ends (fun hw => hw.not_regular hpl),
        Segment.shift_ends (fun hw => hw.not_regular hql), Segment.shift_ends hends]
      rfl
    have hopened : (l'.opened j).Perm ((l.opened i).map (Segment.shift d)) :=
      (((opened_perm (hlength ▸ hn) hp' hq').trans hperm).trans
        ((opened_perm hn hp hq).map _).symm).cons_inv.cons_inv
    rw [closed, closed, if_neg hn, if_neg (hlength ▸ hn), hjoined]
    exact ((put_perm _ _).trans (.cons _ hopened)).trans ((put_perm _ _).map _).symm

end Neighbours

end Line

end ImpuritySampler
