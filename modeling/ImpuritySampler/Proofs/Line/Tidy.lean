import ImpuritySampler.Proofs.Line.Sorted
import ImpuritySampler.Proofs.Segment.Ticks
import ImpuritySampler.Line

/-!
# Tidy lines

A line of segments with ends is tidy if it is sorted by decreasing annihilation time and no two of
its segments share a tick. It follows that only its last segment can wrap, that no segment reaches
into the gap between two neighbours, and that a segment which shares no tick with the line can be
put at its sorted place.
-/

set_option autoImplicit false

namespace ImpuritySampler.Line

variable {α : Type}

def ticks (l : Line α) : Finset ℕ := l.foldr (fun s t => s.ticks ∪ t) ∅

def Sorted (l : Line α) : Prop := Falling (·.annihilation.ticks) l

structure Tidy (l : Line α) : Prop where
  regular : ∀ s ∈ l, s.Regular
  positive : ∀ s ∈ l, s.annihilation.ticks ≠ s.creation.ticks
  sorted : Sorted l
  apart : l.Pairwise fun s t => Disjoint s.ticks t.ticks

def nextPlace (i n : ℕ) : ℕ := if i + 1 = n then 0 else i + 1

theorem mem_ticks {l : Line α} {t : ℕ} : t ∈ ticks l ↔ ∃ s ∈ l, t ∈ s.ticks := by
  induction l with
  | nil => simp [ticks]
  | cons s l ih =>
    rw [ticks, List.foldr_cons, Finset.mem_union, List.exists_mem_cons_iff]
    exact or_congr_right ih

theorem ticks_perm {l m : Line α} (h : l.Perm m) : ticks l = ticks m := by
  ext t
  simp only [mem_ticks, h.mem_iff]

theorem ticks_cons (s : Segment α) (l : Line α) : ticks (s::l) = s.ticks ∪ ticks l := rfl

theorem disjoint_ticks {l : Line α} {u : Finset ℕ} (h : ∀ s ∈ l, Disjoint s.ticks u) :
    Disjoint (ticks l) u := by
  rw [Finset.disjoint_left]
  intro t ht
  obtain ⟨s, hs, hts⟩ := mem_ticks.mp ht
  exact Finset.disjoint_left.mp (h s hs) hts

section Order

/-- A segment ends before the one that comes later in time, and starts after the end of the next one
on the line; if the later one of the list wraps, it starts after everything else. -/
structure Before (s t : Segment α) : Prop where
  straight : s.creation.ticks < s.annihilation.ticks
  above : t.annihilation.ticks ≤ s.creation.ticks
  wrap : t.annihilation.ticks < t.creation.ticks → s.annihilation.ticks ≤ t.creation.ticks

theorem before_of_disjoint {s t : Segment α} (hs : s.Regular) (ht : t.Regular)
    (hps : s.annihilation.ticks ≠ s.creation.ticks) (hpt : t.annihilation.ticks ≠ t.creation.ticks)
    (hlt : t.annihilation.ticks < s.annihilation.ticks) (hd : Disjoint s.ticks t.ticks) :
    Before s t := by
  have hlast := Finset.disjoint_right.mp hd (Segment.last_mem_ticks ht hpt)
  have hlast' := Finset.disjoint_left.mp hd (Segment.last_mem_ticks hs hps)
  rw [Segment.mem_ticks (.inl hs)] at hlast
  rw [Segment.mem_ticks (.inl ht)] at hlast'
  obtain ⟨hsc, hsx⟩ := hs
  obtain ⟨htc, htx⟩ := ht
  constructor <;> split_ifs at * <;> omega

theorem Before.disjoint {s t : Segment α} (h : Before s t) (hs : s.Regular) (ht : t.Regular) :
    Disjoint s.ticks t.ticks := by
  obtain ⟨hstraight, habove, hwrap⟩ := h
  rw [Finset.disjoint_left]
  intro k hks hkt
  rw [Segment.mem_ticks (.inl hs)] at hks
  rw [Segment.mem_ticks (.inl ht)] at hkt
  omega

theorem tidy_of_before {l : Line α} (hr : ∀ s ∈ l, s.Regular)
    (hp : ∀ s ∈ l, s.annihilation.ticks ≠ s.creation.ticks) (h : l.Pairwise Before) : Tidy l where
  regular := hr
  positive := hp
  sorted := h.imp fun hb => lt_of_le_of_lt hb.above hb.straight
  apart := h.imp_of_mem fun hs ht hb => hb.disjoint (hr _ hs) (hr _ ht)

theorem Tidy.before {l : Line α} (h : Tidy l) : l.Pairwise Before :=
  (h.sorted.and h.apart).imp_of_mem fun hs ht hst =>
    before_of_disjoint (h.regular _ hs) (h.regular _ ht) (h.positive _ hs) (h.positive _ ht)
      hst.1 hst.2

theorem Tidy.before_of_lt {l : Line α} (h : Tidy l) {i k : ℕ} {s t : Segment α} (hik : i < k)
    (hs : l[i]? = some s) (ht : l[k]? = some t) : Before s t := by
  obtain ⟨hi, rfl⟩ := List.getElem?_eq_some_iff.mp hs
  obtain ⟨hk, rfl⟩ := List.getElem?_eq_some_iff.mp ht
  exact List.pairwise_iff_getElem.mp h.before i k hi hk hik

theorem Tidy.last_of_cyclic {l : Line α} (h : Tidy l) {k : ℕ} {s : Segment α} (hs : l[k]? = some s)
    (hc : s.isCyclic = true) : k + 1 = l.length := by
  have hk := (List.getElem?_eq_some_iff.mp hs).1
  by_contra hne
  have hb := h.before_of_lt (Nat.lt_succ_self k) hs (List.getElem?_eq_getElem (by omega))
  have hstraight := hb.straight
  simp only [Segment.isCyclic, decide_eq_true_eq] at hc
  omega

theorem Tidy.gap_free {l : Line α} (h : Tidy l) {i : ℕ} {p q : Segment α} (hp : l[i]? = some p)
    (hq : l[nextPlace i l.length]? = some q) :
    ∀ s ∈ l, Disjoint s.ticks (Segment.mk p.creation q.annihilation).ticks := by
  intro s hs
  obtain ⟨k, hk⟩ := List.mem_iff_getElem?.mp hs
  have hregular : ∀ {k : ℕ} {s : Segment α}, l[k]? = some s → s.Regular := fun hk =>
    h.regular _ (List.mem_of_getElem? hk)
  have hi := (List.getElem?_eq_some_iff.mp hp).1
  have hkl := (List.getElem?_eq_some_iff.mp hk).1
  rw [Finset.disjoint_left]
  intro t hts htg
  rw [Segment.mem_ticks (.inl (hregular hk))] at hts
  rw [Segment.mem_ticks (.inl ⟨(hregular hp).2, (hregular hq).1⟩)] at htg
  have hpos := h.positive s hs
  dsimp only at htg
  unfold nextPlace at hq
  split_ifs at hq with hlast
  -- the gap of the last segment goes around the end of the axis or lies before the wrap
  · rcases Nat.eq_zero_or_pos i with rfl | hi0
    · have hk0 : k = 0 := by omega
      subst hk0
      cases hk.symm.trans hp
      cases hk.symm.trans hq
      omega
    · obtain ⟨hq1, hq2, hq3⟩ := h.before_of_lt hi0 hq hp
      rcases lt_trichotomy k i with hki | rfl | hki
      · rcases Nat.eq_zero_or_pos k with rfl | hk0
        · cases hk.symm.trans hq
          omega
        · obtain ⟨hs1, hs2, hs3⟩ := h.before_of_lt hk0 hq hk
          obtain ⟨hp1, hp2, hp3⟩ := h.before_of_lt hki hk hp
          omega
      · cases hk.symm.trans hp
        omega
      · omega
  · obtain ⟨hp1, hp2, hp3⟩ := h.before_of_lt (Nat.lt_succ_self i) hp hq
    rcases lt_trichotomy k i with hki | rfl | hki
    · obtain ⟨hs1, hs2, hs3⟩ := h.before_of_lt hki hk hp
      omega
    · cases hk.symm.trans hp
      omega
    · rcases Nat.eq_or_lt_of_le (Nat.succ_le_of_lt hki) with rfl | hlt
      · cases hk.symm.trans hq
        omega
      · obtain ⟨hq1, hq2, hq3⟩ := h.before_of_lt hlt hq hk
        obtain ⟨hs1, hs2, hs3⟩ := h.before_of_lt hki hp hk
        omega

theorem Tidy.eq_of_annihilation {l : Line α} (h : Tidy l) {p q : Segment α} (hp : p ∈ l)
    (hq : q ∈ l) (he : p.annihilation.ticks = q.annihilation.ticks) : p = q := by
  obtain ⟨i, hi⟩ := List.mem_iff_getElem?.mp hp
  obtain ⟨k, hk⟩ := List.mem_iff_getElem?.mp hq
  obtain rfl := Falling.index_unique h.sorted hi hk he
  exact Option.some.inj (hi.symm.trans hk)

theorem Tidy.next_of_gap {l : Line α} (h : Tidy l) {i : ℕ} {p q : Segment α}
    (hp : l[i]? = some p) (hq : q ∈ l)
    (hd : Disjoint (ticks l) (Segment.mk p.creation q.annihilation).ticks) :
    l[nextPlace i l.length]? = some q := by
  have hi := (List.getElem?_eq_some_iff.mp hp).1
  have hlt : nextPlace i l.length < l.length := by
    unfold nextPlace
    split_ifs <;> omega
  obtain ⟨r, hr⟩ : ∃ r, l[nextPlace i l.length]? = some r := ⟨_, List.getElem?_eq_getElem hlt⟩
  have hrl := List.mem_of_getElem? hr
  have hpr := h.regular p (List.mem_of_getElem? hp)
  have hqr := h.regular q hq
  have hrr := h.regular r hrl
  -- the last tick of each of the two lies outside of the gap that the other one bounds
  have h₁ := Finset.disjoint_left.mp (h.gap_free hp hr q hq)
    (Segment.last_mem_ticks hqr (h.positive q hq))
  have h₂ := Finset.disjoint_left.mp hd
    (mem_ticks.mpr ⟨r, hrl, Segment.last_mem_ticks hrr (h.positive r hrl)⟩)
  rw [Segment.mem_ticks (.inl ⟨hpr.2, hrr.1⟩)] at h₁
  rw [Segment.mem_ticks (.inl ⟨hpr.2, hqr.1⟩)] at h₂
  dsimp only at h₁ h₂
  have hann : r.annihilation.ticks = q.annihilation.ticks := by
    obtain ⟨hpa, hpc⟩ := hpr
    obtain ⟨hqa, hqc⟩ := hqr
    obtain ⟨hra, hrc⟩ := hrr
    split_ifs at h₁ h₂ <;> omega
  rw [hr, h.eq_of_annihilation hrl hq hann]

end Order

end ImpuritySampler.Line
