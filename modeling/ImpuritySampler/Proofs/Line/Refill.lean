import ImpuritySampler.Proofs.Move.Form

/-!
# Drawing a segment or a hole again

A segment that has been taken out lies in the gap between its neighbours, and a gap that has been
closed lies in the merged segment. Their ends are found again at two distances before the left end,
both below the length of the window, exactly if the segment does not touch the next one. Where it
does, a removal leaves an end out of reach, and a closed gap has been empty.
-/

set_option autoImplicit false

namespace ImpuritySampler

open Time

namespace Time

theorem behind_gap {a b : ℕ} (ha : a < ticksPerPeriod) (hb : b < ticksPerPeriod) :
    behind a (gap a b) = b := by
  rw [behind_eq ha]
  unfold gap
  split_ifs <;> omega

theorem behind_final_gap {b : ℕ} (hb : b < ticksPerPeriod) :
    behind ticksPerPeriod ((ticksPerPeriod - b) % ticksPerPeriod) = b := by
  have hpos := ticksPerPeriod_pos
  rw [behind_final (Nat.mod_lt _ hpos)]
  rcases Nat.eq_zero_or_pos b with rfl | h
  · rw [Nat.sub_zero, Nat.mod_self, if_pos rfl]
  · rw [Nat.mod_eq_of_lt (by omega), if_neg (by omega)]
    omega

end Time

namespace Line

variable {α : Type} {beta : α} {l : Line α} {i : ℕ} {u p q : Segment α}

/-- The segment at a place starts where the next one in the circle ends. -/
def Touches (l : Line α) (i : ℕ) : Prop :=
  ∃ p q, l[i]? = some p ∧ l[nextPlace i l.length]? = some q ∧
    p.creation.ticks = q.annihilation.ticks

theorem previousPlace_lt {n : ℕ} (hi : i < n) : previousPlace i n < n := by
  unfold previousPlace
  split_ifs <;> omega

theorem previousPlace_ne {n : ℕ} (hi : i < n) (hn : n ≠ 1) : previousPlace i n ≠ i := by
  unfold previousPlace
  split_ifs <;> omega

theorem nextPlace_previousPlace {n : ℕ} (hi : i < n) : nextPlace (previousPlace i n) n = i := by
  unfold nextPlace previousPlace
  split_ifs <;> omega

section Segments

theorem Tidy.between_neighbours (h : Tidy l) (hn : l.length ≠ 1) (hu : l[i]? = some u)
    (hp : l[previousPlace i l.length]? = some p) (hq : l[nextPlace i l.length]? = some q) :
    gap u.creation.ticks q.annihilation.ticks < gap u.annihilation.ticks q.annihilation.ticks ∧
      gap u.annihilation.ticks q.annihilation.ticks ≤
        gap p.creation.ticks q.annihilation.ticks := by
  have hi := (List.getElem?_eq_some_iff.mp hu).1
  have hpr := h.regular p (List.mem_of_getElem? hp)
  have hur := h.regular u (List.mem_of_getElem? hu)
  have hqr := h.regular q (List.mem_of_getElem? hq)
  have hpp := h.positive p (List.mem_of_getElem? hp)
  obtain ⟨hpa, hpc⟩ := hpr
  obtain ⟨hua, huc⟩ := hur
  obtain ⟨hqa, hqc⟩ := hqr
  unfold previousPlace at hp
  unfold nextPlace at hq
  split_ifs at hp hq with h₀ h₁ h₁
  · omega
  -- the first segment: the one before it is the last one, which may wrap
  · obtain ⟨hu₁, hu₂, -⟩ := h.before_of_lt (by omega) hu hq
    obtain ⟨-, hu₃, hu₄⟩ := h.before_of_lt (by omega) hu hp
    rcases Nat.lt_or_ge 2 l.length with hlong | hshort
    · obtain ⟨hq₁, hq₂, hq₃⟩ := h.before_of_lt (by omega) hq hp
      unfold gap
      split_ifs <;> omega
    · obtain rfl : q = p := by
        rw [show i + 1 = l.length - 1 by omega, hp] at hq
        exact (Option.some.inj hq).symm
      unfold gap
      split_ifs <;> omega
  -- the last segment, which may wrap itself
  · obtain ⟨hp₁, hp₂, hp₃⟩ := h.before_of_lt (by omega) hp hu
    obtain ⟨hq₁, hq₂, hq₃⟩ := h.before_of_lt (by omega) hq hu
    have hu₀ := h.positive u (List.mem_of_getElem? hu)
    rcases Nat.lt_or_ge 2 l.length with hlong | hshort
    · obtain ⟨hq₄, hq₅, -⟩ := h.before_of_lt (by omega) hq hp
      unfold gap
      split_ifs <;> omega
    · obtain rfl : q = p := by
        rw [show i - 1 = 0 by omega, hq] at hp
        exact Option.some.inj hp
      unfold gap
      split_ifs <;> omega
  · obtain ⟨hp₁, hp₂, -⟩ := h.before_of_lt (by omega) hp hu
    obtain ⟨hu₁, hu₂, -⟩ := h.before_of_lt (by omega) hu hq
    unfold gap
    split_ifs <;> omega

theorem Tidy.gap_eraseIdx (h : Tidy l) (hn : l.length ≠ 1) (hu : l[i]? = some u)
    (hp : l[previousPlace i l.length]? = some p) (hq : l[nextPlace i l.length]? = some q) :
    Disjoint (ticks (l.eraseIdx i)) (Segment.mk p.creation q.annihilation).ticks := by
  have hi := (List.getElem?_eq_some_iff.mp hu).1
  obtain ⟨h₁, h₂⟩ := h.between_neighbours hn hu hp hq
  have hpr := h.regular p (List.mem_of_getElem? hp)
  have hur := h.regular u (List.mem_of_getElem? hu)
  have hqr := h.regular q (List.mem_of_getElem? hq)
  have hsub := List.eraseIdx_subset (l := l) (k := i)
  have hnext : l[nextPlace (previousPlace i l.length) l.length]? = some u := by
    rw [nextPlace_previousPlace hi, hu]
  have hregular : (Segment.mk p.creation q.annihilation).Regular := ⟨hpr.2, hqr.1⟩
  refine Finset.disjoint_left.mpr fun t ht hgap => ?_
  obtain ⟨hlt, hgap⟩ := Segment.mem_mk.mp hgap
  obtain ⟨r, hr, htr⟩ := mem_ticks.mp ht
  have hr := hsub hr
  rcases Nat.lt_or_ge (gap t q.annihilation.ticks) (gap u.creation.ticks q.annihilation.ticks) with
    hlow | hlow
  · exact Finset.disjoint_left.mp (h.gap_free hu hq r hr) htr (Segment.mem_mk.mpr ⟨hlt, hlow⟩)
  rcases Nat.lt_or_ge (gap t q.annihilation.ticks)
    (gap u.annihilation.ticks q.annihilation.ticks) with hmid | hhigh
  · refine Finset.disjoint_left.mp (h.disjoint_of_perm (perm_eraseIdx hu)) ht ?_
    exact (Segment.mem_part hregular hur.2 hur.1 h₁.le).mpr ⟨hlt, hlow, hmid⟩
  · refine Finset.disjoint_left.mp (h.gap_free hp hnext r hr) htr ?_
    exact (Segment.mem_part hregular hur.1 hpr.2 h₂).mpr ⟨hlt, hhigh, hgap⟩

theorem Tidy.next_eraseIdx (h : Tidy l) (hn : l.length ≠ 1) (hu : l[i]? = some u)
    (hp : l[previousPlace i l.length]? = some p) (hq : l[nextPlace i l.length]? = some q) :
    ∃ k, (l.eraseIdx i)[k]? = some p ∧
      (l.eraseIdx i)[nextPlace k (l.eraseIdx i).length]? = some q := by
  have hi := (List.getElem?_eq_some_iff.mp hu).1
  have hpl : p ∈ l.eraseIdx i :=
    List.mem_eraseIdx_iff_getElem?.mpr ⟨_, previousPlace_ne hi hn, hp⟩
  have hql : q ∈ l.eraseIdx i := List.mem_eraseIdx_iff_getElem?.mpr ⟨_, nextPlace_ne hn, hq⟩
  obtain ⟨k, hk⟩ := List.mem_iff_getElem?.mp hpl
  exact ⟨k, hk, (h.eraseIdx i).next_of_gap hk hql (h.gap_eraseIdx hn hu hp hq)⟩

theorem Tidy.gaps_lt (h : Tidy l) (hn : l.length ≠ 1) (hu : l[i]? = some u)
    (hp : l[previousPlace i l.length]? = some p) (hq : l[nextPlace i l.length]? = some q)
    (hne : u.creation.ticks ≠ q.annihilation.ticks) :
    gap p.creation.ticks u.annihilation.ticks < gap p.creation.ticks u.creation.ticks ∧
      gap p.creation.ticks u.creation.ticks < gap p.creation.ticks q.annihilation.ticks := by
  obtain ⟨h₁, h₂⟩ := h.between_neighbours hn hu hp hq
  have hpc := (h.regular p (List.mem_of_getElem? hp)).2
  obtain ⟨hua, huc⟩ := h.regular u (List.mem_of_getElem? hu)
  have hqa := (h.regular q (List.mem_of_getElem? hq)).1
  have hpos := gap_pos hqa hne
  rw [gap_eq_sub hqa hua hpc h₂, gap_eq_sub hqa huc hpc (h₁.le.trans h₂)]
  omega

/-- Putting a segment in again gives the line back. -/
theorem Tidy.put_eraseIdx (h : Tidy l) (hu : l[i]? = some u) : Line.put (l.eraseIdx i) u = l := by
  have hmem := List.mem_of_getElem? hu
  have hput := (h.eraseIdx i).put (h.regular u hmem) (h.positive u hmem)
    (h.disjoint_of_perm (perm_eraseIdx hu))
  exact Falling.eq_of_perm hput.sorted h.sorted ((put_perm _ u).trans (perm_eraseIdx hu))

/-- Where two neighbours do not touch, their ends lie inside of the segment that covers both, by
their distances from its end. -/
theorem Tidy.gaps_closed (h : Tidy l) (hn : l.length ≠ 1) (hp : l[i]? = some p)
    (hq : l[nextPlace i l.length]? = some q) (hfar : p.annihilation.ticks ≠ q.creation.ticks)
    (hnear : p.creation.ticks ≠ q.annihilation.ticks) :
    0 < gap p.annihilation.ticks p.creation.ticks ∧
      gap p.annihilation.ticks p.creation.ticks < gap p.annihilation.ticks q.annihilation.ticks ∧
      gap p.annihilation.ticks q.annihilation.ticks <
        gap p.annihilation.ticks q.creation.ticks := by
  obtain ⟨-, hi⟩ := h.close hp hq (opened_sublist l i) (opened_perm hn hp hq) hfar
  obtain ⟨hpa, hpc⟩ := h.regular p (List.mem_of_getElem? hp)
  obtain ⟨hqa, hqc⟩ := h.regular q (List.mem_of_getElem? hq)
  have hfirst := hi.first
  have horder := hi.order
  have hlast := hi.last
  dsimp only at hfirst horder hlast
  have hne : gap q.annihilation.ticks q.creation.ticks ≠ gap p.creation.ticks q.creation.ticks := by
    unfold gap
    split_ifs <;> omega
  rw [gap_eq_sub hqc hpc hpa hlast.le, gap_eq_sub hqc hqa hpa (horder.trans hlast.le)]
  omega

theorem exists_place_closed (beta : α) (l : Line α) (i : ℕ) (p q : Segment α) :
    ∃ k : ℕ, (Line.closed beta l i p q)[k]? =
      some (if l.length = 1 then whole beta else Line.joined p q) := by
  rw [Line.closed]
  split_ifs
  · exact ⟨0, rfl⟩
  · exact ⟨_, put_place _ _⟩

/-- Closing the gap between two neighbours can be taken back: the hole that is cut at their ends
leaves them, also if it has no length, and if the merged segment has none. -/
theorem Tidy.holed_closed {k : ℕ} {v : Segment α} (h : Tidy l) (hp : l[i]? = some p)
    (hq : l[nextPlace i l.length]? = some q) (hk : (Line.closed beta l i p q)[k]? = some v)
    (hv : v = if l.length = 1 then whole beta else Line.joined p q) :
    (Line.closed beta l i p q).holed k v q.annihilation p.creation = l := by
  by_cases hn : l.length = 1
  · obtain ⟨rfl, rfl, -⟩ := eq_singleton hn hp hq
    rw [if_pos hn] at hv
    rw [Line.closed, if_pos hn] at hk ⊢
    have hk0 : k = 0 := by simpa using (List.getElem?_eq_some_iff.mp hk).1
    rw [hv, Line.holed, if_pos (whole_isWhole beta), hk0]
    rfl
  · rw [if_neg hn] at hv
    rw [Line.closed, if_neg hn] at hk ⊢
    subst hv
    have hregular : (Line.joined p q).Regular :=
      ⟨(h.regular p (List.mem_of_getElem? hp)).1, (h.regular q (List.mem_of_getElem? hq)).2⟩
    have hw : ¬(Line.joined p q).Whole := fun hw => hw.not_regular hregular
    have hsorted : Sorted ((l.opened i).put (Line.joined p q)) := h.sorted_put_joined hn hp hq
    obtain rfl := Falling.index_unique hsorted hk (put_place _ _) rfl
    rw [Line.holed, if_neg hw, eraseIdx_put]
    exact h.put_opened hn hp hq

end Segments

end Line

end ImpuritySampler
