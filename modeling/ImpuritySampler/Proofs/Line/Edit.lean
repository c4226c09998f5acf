import ImpuritySampler.Proofs.Line.Tidy

/-!
# Editing tidy lines

Putting in a segment that shares no tick with the line, taking one out, cutting a hole strictly
inside of a segment and closing a hole keep a line tidy. What the line holds is followed as a list
up to order: the order is the sorted one.
-/

set_option autoImplicit false

namespace ImpuritySampler.Line

variable {α : Type} {l m : Line α} {s : Segment α}

def put (l : Line α) (s : Segment α) : Line α := l.insertIdx (l.place s) s

theorem put_perm (l : Line α) (s : Segment α) : (l.put s).Perm (s::l) :=
  List.perm_insertIdx s l (place_le l s)

theorem nil_tidy : Tidy ([] : Line α) :=
  ⟨by simp, by simp, List.Pairwise.nil, List.Pairwise.nil⟩

theorem Tidy.sublist (h : Tidy l) (hm : m.Sublist l) : Tidy m where
  regular := fun s hs => h.regular s (hm.subset hs)
  positive := fun s hs => h.positive s (hm.subset hs)
  sorted := List.Pairwise.sublist hm h.sorted
  apart := h.apart.sublist hm

theorem Tidy.eraseIdx (h : Tidy l) (i : ℕ) : Tidy (l.eraseIdx i) :=
  h.sublist (List.eraseIdx_sublist l i)

theorem Tidy.disjoint_of_perm (h : Tidy l) (hm : (s::m).Perm l) : Disjoint (ticks m) s.ticks := by
  have hp := h.apart.perm hm.symm fun hd => hd.symm
  exact disjoint_ticks fun t ht => (List.rel_of_pairwise_cons hp ht).symm

theorem perm_eraseIdx {i : ℕ} (hs : l[i]? = some s) : (s::l.eraseIdx i).Perm l := by
  obtain ⟨hi, rfl⟩ := List.getElem?_eq_some_iff.mp hs
  exact List.getElem_cons_eraseIdx_perm hi

theorem perm_eraseIdx_eraseIdx {i k : ℕ} {t : Segment α} (hik : i < k) (hs : l[i]? = some s)
    (ht : l[k]? = some t) : (s::t::(l.eraseIdx k).eraseIdx i).Perm l :=
  calc
    (s::t::(l.eraseIdx k).eraseIdx i).Perm (t::s::(l.eraseIdx k).eraseIdx i) := .swap ..
    List.Perm _ (t::l.eraseIdx k) :=
      .cons t (perm_eraseIdx (by rw [List.getElem?_eraseIdx_of_lt hik, hs]))
    List.Perm _ l := perm_eraseIdx ht

section Put

theorem Tidy.annihilation_ne (h : Tidy l) (hs : s.Regular)
    (hp : s.annihilation.ticks ≠ s.creation.ticks) (hd : Disjoint (ticks l) s.ticks) :
    ∀ t ∈ l, t.annihilation.ticks ≠ s.annihilation.ticks := by
  intro t ht he
  have hlast := Segment.last_mem_ticks (h.regular t ht) (h.positive t ht)
  rw [he] at hlast
  exact Finset.disjoint_left.mp hd (mem_ticks.mpr ⟨t, ht, hlast⟩) (Segment.last_mem_ticks hs hp)

theorem Tidy.put (h : Tidy l) (hs : s.Regular) (hp : s.annihilation.ticks ≠ s.creation.ticks)
    (hd : Disjoint (ticks l) s.ticks) : Tidy (l.put s) := by
  have hperm := put_perm l s
  refine ⟨fun t ht => ?_, fun t ht => ?_,
    (place_isPlace h.sorted (h.annihilation_ne hs hp hd)).falling h.sorted, ?_⟩
  · rcases List.mem_cons.mp (hperm.mem_iff.mp ht) with rfl | ht
    · exact hs
    · exact h.regular t ht
  · rcases List.mem_cons.mp (hperm.mem_iff.mp ht) with rfl | ht
    · exact hp
    · exact h.positive t ht
  · refine List.Pairwise.perm (List.pairwise_cons.mpr ⟨fun t ht => ?_, h.apart⟩) hperm.symm
      fun hd => hd.symm
    exact (hd.mono_left fun x hx => mem_ticks.mpr ⟨t, ht, hx⟩).symm

end Put

section Hole

variable {a c : Time α}

/-- The times `a` and `c` lie strictly inside of a segment, in this order. The hole between them is
occupied from `a` up to `c`, so that `a` ends what is before it and `c` starts what is after it. -/
structure Inside (s : Segment α) (a c : Time α) : Prop where
  regular : s.Regular
  annihilation : a.ticks < ticksPerPeriod
  creation : c.ticks < ticksPerPeriod
  first : 0 < Time.gap a.ticks s.creation.ticks
  order : Time.gap a.ticks s.creation.ticks ≤ Time.gap c.ticks s.creation.ticks
  last : Time.gap c.ticks s.creation.ticks < Time.gap s.annihilation.ticks s.creation.ticks

theorem Inside.mem_hole (h : Inside s a c) {t : ℕ} : t ∈ (Segment.mk c a).ticks ↔
    t < ticksPerPeriod ∧ Time.gap a.ticks s.creation.ticks ≤ Time.gap t s.creation.ticks ∧
      Time.gap t s.creation.ticks < Time.gap c.ticks s.creation.ticks :=
  Segment.mem_part h.regular h.annihilation h.creation h.order

theorem Inside.mem_after (h : Inside s a c) {t : ℕ} : t ∈ (Segment.mk s.annihilation c).ticks ↔
    t < ticksPerPeriod ∧ Time.gap c.ticks s.creation.ticks ≤ Time.gap t s.creation.ticks ∧
      Time.gap t s.creation.ticks < Time.gap s.annihilation.ticks s.creation.ticks :=
  Segment.mem_part h.regular h.creation h.regular.1 h.last.le

theorem Inside.ticks_eq (h : Inside s a c) : s.ticks =
    (Segment.mk a s.creation).ticks ∪ (Segment.mk c a).ticks ∪
      (Segment.mk s.annihilation c).ticks := by
  have ho := h.order
  have hl := h.last
  ext t
  rw [Finset.mem_union, Finset.mem_union, Segment.mem_ticks_gap (s := s), Segment.mem_mk,
    h.mem_hole, h.mem_after]
  omega

theorem Inside.disjoint_before_after (h : Inside s a c) :
    Disjoint (Segment.mk a s.creation).ticks (Segment.mk s.annihilation c).ticks := by
  have ho := h.order
  rw [Finset.disjoint_left]
  intro t hb ha
  rw [Segment.mem_mk] at hb
  rw [h.mem_after] at ha
  omega

theorem Inside.disjoint_hole_before (h : Inside s a c) :
    Disjoint (Segment.mk c a).ticks (Segment.mk a s.creation).ticks := by
  rw [Finset.disjoint_left]
  intro t hh hb
  rw [h.mem_hole] at hh
  rw [Segment.mem_mk] at hb
  omega

theorem Inside.disjoint_hole_after (h : Inside s a c) :
    Disjoint (Segment.mk c a).ticks (Segment.mk s.annihilation c).ticks := by
  rw [Finset.disjoint_left]
  intro t hh ha
  rw [h.mem_hole] at hh
  rw [h.mem_after] at ha
  omega

theorem Inside.gap_eq (h : Inside s a c) : Time.gap s.annihilation.ticks s.creation.ticks =
    Time.gap s.annihilation.ticks c.ticks + Time.gap c.ticks a.ticks +
      Time.gap a.ticks s.creation.ticks := by
  have ho := h.order
  have hl := h.last
  rw [Time.gap_eq_sub h.regular.2 h.annihilation h.creation ho,
    Time.gap_eq_sub h.regular.2 h.creation h.regular.1 hl.le]
  omega

theorem Inside.before_ne (h : Inside s a c) : a.ticks ≠ s.creation.ticks := fun he => by
  have hf := h.first
  rw [he, Time.gap_self] at hf
  exact lt_irrefl _ hf

theorem Inside.after_ne (h : Inside s a c) : s.annihilation.ticks ≠ c.ticks := fun he => by
  have hl := h.last
  rw [he] at hl
  exact lt_irrefl _ hl

theorem inside_of_disjoint {p q : Segment α} (hp : p.Regular) (hq : q.Regular)
    (hpp : p.annihilation.ticks ≠ p.creation.ticks) (hpq : q.annihilation.ticks ≠ q.creation.ticks)
    (hd : Disjoint p.ticks q.ticks) (hne : p.annihilation.ticks ≠ q.creation.ticks) :
    Inside ⟨p.annihilation, q.creation⟩ q.annihilation p.creation := by
  have h₁ := Finset.disjoint_left.mp hd (Segment.creation_mem_ticks hp hpp)
  have h₂ := Finset.disjoint_right.mp hd (Segment.creation_mem_ticks hq hpq)
  rw [Segment.mem_ticks_gap] at h₁ h₂
  obtain ⟨hpa, hpc⟩ := hp
  obtain ⟨hqa, hqc⟩ := hq
  refine ⟨⟨hpa, hqc⟩, hqa, hpc, Time.gap_pos hqc hpq, ?_, ?_⟩
  · exact not_lt.mp fun h => h₁ ⟨hpc, h⟩
  · dsimp only
    unfold Time.gap at *
    split_ifs at * <;> omega

def cut (m : Line α) (s : Segment α) (a c : Time α) : Line α :=
  (m.put ⟨s.annihilation, c⟩).put ⟨a, s.creation⟩

theorem cut_perm (m : Line α) (s : Segment α) (a c : Time α) :
    (m.cut s a c).Perm (⟨a, s.creation⟩::⟨s.annihilation, c⟩::m) :=
  (put_perm _ _).trans (.cons _ (put_perm m _))

theorem Tidy.cut (h : Tidy m) (hd : Disjoint (ticks m) s.ticks) (hi : Inside s a c) :
    Tidy (m.cut s a c) := by
  rw [hi.ticks_eq, Finset.disjoint_union_right, Finset.disjoint_union_right] at hd
  obtain ⟨⟨hbefore, -⟩, hafter⟩ := hd
  have hreg₁ : (Segment.mk s.annihilation c).Regular := ⟨hi.regular.1, hi.creation⟩
  have hreg₂ : (Segment.mk a s.creation).Regular := ⟨hi.annihilation, hi.regular.2⟩
  have hd₂ : Disjoint (ticks (m.put ⟨s.annihilation, c⟩)) (Segment.mk a s.creation).ticks := by
    rw [ticks_perm (put_perm m _), ticks_cons, Finset.disjoint_union_left]
    exact ⟨hi.disjoint_before_after.symm, hbefore⟩
  exact (h.put hreg₁ hi.after_ne hafter).put hreg₂ hi.before_ne hd₂

theorem ticks_cut (hd : Disjoint (ticks m) s.ticks) (hi : Inside s a c) :
    ticks (m.cut s a c) = (s.ticks ∪ ticks m) \ (Segment.mk c a).ticks := by
  have hhole : Disjoint (ticks m) (Segment.mk c a).ticks :=
    hd.mono_right fun t ht => by
      rw [hi.ticks_eq, Finset.mem_union, Finset.mem_union]
      exact .inl (.inr ht)
  rw [ticks_perm (cut_perm m s a c), ticks_cons, ticks_cons, hi.ticks_eq]
  ext t
  have h₁ : _ → t ∉ _ := fun hx => Finset.disjoint_left.mp hhole hx
  have h₂ : _ → t ∉ _ := fun hx => Finset.disjoint_left.mp hi.disjoint_hole_before hx
  have h₃ : _ → t ∉ _ := fun hx => Finset.disjoint_left.mp hi.disjoint_hole_after hx
  simp only [Finset.mem_union, Finset.mem_sdiff]
  grind

theorem Tidy.close {p q : Segment α} {i : ℕ} (h : Tidy l) (hp : l[i]? = some p)
    (hq : l[nextPlace i l.length]? = some q) (hm : m.Sublist l) (hpm : (p::q::m).Perm l)
    (hne : p.annihilation.ticks ≠ q.creation.ticks) :
    Disjoint (ticks m) (Segment.mk p.annihilation q.creation).ticks ∧
      Inside ⟨p.annihilation, q.creation⟩ q.annihilation p.creation := by
  have hpl := List.mem_of_getElem? hp
  have hql := List.mem_of_getElem? hq
  have hdp := h.disjoint_of_perm hpm
  have hdq := h.disjoint_of_perm ((List.Perm.swap p q m).trans hpm)
  rw [ticks_cons, Finset.disjoint_union_left] at hdp hdq
  have hi := inside_of_disjoint (h.regular p hpl) (h.regular q hql) (h.positive p hpl)
    (h.positive q hql) hdp.1.symm hne
  refine ⟨?_, hi⟩
  rw [hi.ticks_eq, Finset.disjoint_union_right, Finset.disjoint_union_right]
  exact ⟨⟨hdq.2, disjoint_ticks fun s hs => h.gap_free hp hq s (hm.subset hs)⟩, hdp.2⟩

end Hole

end ImpuritySampler.Line
