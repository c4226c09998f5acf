import ImpuritySampler.Proofs.Time
import ImpuritySampler.Segment

/-!
# The ticks of a segment

A segment occupies the ticks that lie less than its length after its creation time. Segments between
regular points of the cycle are half-open intervals that may wrap around its end; exchanging the two
ends gives the complement. A hole that is cut out of a segment leaves its two outer pieces.
-/

set_option autoImplicit false

namespace ImpuritySampler

namespace Segment

open Time

variable {α : Type}

def Regular (s : Segment α) : Prop :=
  s.annihilation.ticks < ticksPerPeriod ∧ s.creation.ticks < ticksPerPeriod

def Whole (s : Segment α) : Prop :=
  s.creation.ticks = 0 ∧ s.annihilation.ticks = ticksPerPeriod

instance (s : Segment α) : Decidable s.Regular := inferInstanceAs (Decidable (_ ∧ _))

instance (s : Segment α) : Decidable s.Whole := inferInstanceAs (Decidable (_ ∧ _))

/-- Every segment of a configuration is of one of these two kinds. -/
def Placed (s : Segment α) : Prop := s.Regular ∨ s.Whole

def ticks (s : Segment α) : Finset ℕ :=
  (Finset.range ticksPerPeriod).filter fun t =>
    gap t s.creation.ticks < gap s.annihilation.ticks s.creation.ticks

def swap (s : Segment α) : Segment α := ⟨s.creation, s.annihilation⟩

theorem mem_ticks_gap {s : Segment α} {t : ℕ} : t ∈ s.ticks ↔ t < ticksPerPeriod ∧
    gap t s.creation.ticks < gap s.annihilation.ticks s.creation.ticks := by
  rw [ticks, Finset.mem_filter, Finset.mem_range]

theorem mem_mk {a c : Time α} {t : ℕ} : t ∈ (Segment.mk a c).ticks ↔ t < ticksPerPeriod ∧
    gap t c.ticks < gap a.ticks c.ticks := mem_ticks_gap

theorem Whole.not_regular {s : Segment α} (h : s.Whole) : ¬s.Regular :=
  fun hr => absurd hr.1 (by rw [h.2]; exact lt_irrefl _)

theorem Whole.not_cyclic {s : Segment α} (h : s.Whole) : s.isCyclic = false := by
  rw [isCyclic, h.1]
  exact decide_eq_false (Nat.not_lt_zero _)

theorem Placed.bounds {s : Segment α} (h : s.Placed) :
    s.annihilation.ticks ≤ ticksPerPeriod ∧ s.creation.ticks < ticksPerPeriod := by
  have hpos := ticksPerPeriod_pos
  rcases h with h | h
  · exact ⟨h.1.le, h.2⟩
  · exact ⟨h.2.le, by rw [h.1]; exact hpos⟩

theorem mem_ticks {s : Segment α} (h : s.Placed) {t : ℕ} : t ∈ s.ticks ↔ t < ticksPerPeriod ∧
    ((s.creation.ticks ≤ t ∧ t < s.annihilation.ticks) ∨
      (s.annihilation.ticks < s.creation.ticks ∧
        (s.creation.ticks ≤ t ∨ t < s.annihilation.ticks))) := by
  obtain ⟨hc, hx⟩ := h.bounds
  rw [mem_ticks_gap]
  unfold gap
  split_ifs <;> omega

theorem ticks_whole {s : Segment α} (h : s.Whole) : s.ticks = Finset.range ticksPerPeriod := by
  ext t
  rw [mem_ticks (.inr h), h.1, h.2, Finset.mem_range]
  omega

theorem ticks_lt {s : Segment α} {t : ℕ} (h : t ∈ s.ticks) : t < ticksPerPeriod :=
  (mem_ticks_gap.mp h).1

theorem card_ticks_le (s : Segment α) : s.ticks.card ≤ ticksPerPeriod :=
  (Finset.card_filter_le _ _).trans (Finset.card_range _).le

theorem creation_mem_ticks {s : Segment α} (h : s.Regular)
    (hne : s.annihilation.ticks ≠ s.creation.ticks) : s.creation.ticks ∈ s.ticks := by
  rw [mem_ticks_gap, gap_self]
  exact ⟨h.2, gap_pos h.2 hne⟩

theorem last_mem_ticks {s : Segment α} (h : s.Regular)
    (hne : s.annihilation.ticks ≠ s.creation.ticks) :
    (if s.annihilation.ticks = 0 then ticksPerPeriod - 1 else s.annihilation.ticks - 1) ∈
      s.ticks := by
  obtain ⟨hc, hx⟩ := h
  rw [mem_ticks (.inl ⟨hc, hx⟩)]
  split_ifs <;> omega

theorem ticks_straight {s : Segment α} (h : s.Placed)
    (hle : s.creation.ticks ≤ s.annihilation.ticks) :
    s.ticks = Finset.Ico s.creation.ticks s.annihilation.ticks := by
  have hb := h.bounds
  ext t
  rw [mem_ticks h, Finset.mem_Ico]
  omega

theorem ticks_cyclic {s : Segment α} (h : s.Placed)
    (hlt : s.annihilation.ticks < s.creation.ticks) : s.ticks =
    Finset.Ico s.creation.ticks ticksPerPeriod ∪ Finset.Ico 0 s.annihilation.ticks := by
  have hb := h.bounds
  ext t
  rw [mem_ticks h, Finset.mem_union, Finset.mem_Ico, Finset.mem_Ico]
  omega

theorem disjoint_arms {a c : ℕ} (h : a ≤ c) (n : ℕ) :
    Disjoint (Finset.Ico c n) (Finset.Ico 0 a) := by
  rw [Finset.disjoint_left]
  intro t ht ht'
  rw [Finset.mem_Ico] at ht ht'
  omega

theorem card_ticks {s : Segment α} (h : s.Placed) :
    s.ticks.card = gap s.annihilation.ticks s.creation.ticks := by
  rcases le_or_gt s.creation.ticks s.annihilation.ticks with hle | hlt
  · rw [ticks_straight h hle, Nat.card_Ico, gap_of_le hle]
  · have hb := h.bounds
    rw [ticks_cyclic h hlt, Finset.card_union_of_disjoint (disjoint_arms hlt.le _), Nat.card_Ico,
      Nat.card_Ico, gap_of_lt hlt]
    omega

theorem mem_ticks_swap {s : Segment α} (h : s.Regular)
    (hne : s.annihilation.ticks ≠ s.creation.ticks) {t : ℕ} (ht : t < ticksPerPeriod) :
    t ∈ s.swap.ticks ↔ t ∉ s.ticks := by
  obtain ⟨hc, hx⟩ := h
  rw [mem_ticks (.inl ⟨hx, hc⟩), mem_ticks (.inl ⟨hc, hx⟩)]
  simp only [swap]
  omega

/-- A part of a segment, by the distances of its ends from the creation time. -/
theorem mem_part {s : Segment α} {t : ℕ} (hs : s.Regular) {p q : Time α}
    (hp : p.ticks < ticksPerPeriod) (hq : q.ticks < ticksPerPeriod)
    (hpq : gap p.ticks s.creation.ticks ≤ gap q.ticks s.creation.ticks) :
    t ∈ (Segment.mk q p).ticks ↔ t < ticksPerPeriod ∧
      gap p.ticks s.creation.ticks ≤ gap t s.creation.ticks ∧
      gap t s.creation.ticks < gap q.ticks s.creation.ticks := by
  rw [mem_ticks_gap]
  exact and_congr_right fun ht => between_iff hs.2 hp hq ht hpq

end Segment
end ImpuritySampler
