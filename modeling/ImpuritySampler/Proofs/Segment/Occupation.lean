import ImpuritySampler.Proofs.ExactScalar
import ImpuritySampler.Proofs.Outcome
import ImpuritySampler.Proofs.Segment.Ticks
import ImpuritySampler.Segment.Occupation

/-!
# Occupation in ticks

On a cycle of positive period, the questions about a segment have answers, and these are about its
ticks.
-/

set_option autoImplicit false

namespace ImpuritySampler

structure Time.IsPoint {α : Type} (beta : α) (t : Time α) : Prop where
  period : t.period = beta
  lt : t.ticks < ticksPerPeriod

theorem Time.sub_eq {α : Type} [Scalar α] {beta : α} [Resolved beta] {t u : Time α}
    (ht : t.IsPoint beta) (hu : u.IsPoint beta) : t.sub u = .ok ⟨gap t.ticks u.ticks, beta⟩ := by
  have hul := hu.lt
  have hsame : Scalar.Same t.period u.period := by
    rw [ht.period, hu.period]
    exact Resolved.same
  rw [sub_eq_ok hsame (by omega), ht.period]

namespace Segment

section Cycle

variable {α : Type} {beta : α}

/-- Both times are on the cycle of one period, and are points of it unless the segment occupies the
whole cycle. -/
structure OnCycle (beta : α) (s : Segment α) : Prop where
  annihilation : s.annihilation.period = beta
  creation : s.creation.period = beta
  placed : s.Placed

theorem OnCycle.regular {s : Segment α} (h : s.OnCycle beta) (hw : ¬s.Whole) : s.Regular :=
  h.placed.resolve_right hw

theorem OnCycle.points {s : Segment α} (h : s.OnCycle beta) (hw : ¬s.Whole) :
    s.annihilation.IsPoint beta ∧ s.creation.IsPoint beta :=
  ⟨⟨h.annihilation, (h.regular hw).1⟩, ⟨h.creation, (h.regular hw).2⟩⟩

theorem onCycle_of_points {a c : Time α} (ha : a.IsPoint beta) (hc : c.IsPoint beta) :
    (Segment.mk a c).OnCycle beta := ⟨ha.period, hc.period, .inl ⟨ha.lt, hc.lt⟩⟩

variable [Scalar α]

theorem full_eq (hb : 0 < beta) : full beta = .ok ⟨⟨ticksPerPeriod, beta⟩, ⟨0, beta⟩⟩ := by
  rw [full, Time.final, Time.origin, Time.requirePeriod, Outcome.require_true hb]
  rfl

theorem isFull_eq {s : Segment α} (hb : 0 < s.annihilation.period) :
    s.isFull = .ok (decide s.Whole) := by
  rw [isFull, Time.requirePeriod, Outcome.require_true hb, Outcome.ok_bind, Outcome.pure_eq,
    Outcome.pure_eq]
  by_cases h : s.creation.ticks = 0
  · rw [if_pos h]
    simp [Whole, h]
  · rw [if_neg h]
    simp [Whole, h]

theorem OnCycle.isFull {s : Segment α} (h : s.OnCycle beta) (hb : 0 < beta) :
    s.isFull = .ok (decide s.Whole) := isFull_eq (by rwa [h.annihilation])

end Cycle

variable {α : Type} [Scalar α] {beta : α}

theorem OnCycle.length [Time.Resolved beta] {s : Segment α} (h : s.OnCycle beta) :
    s.length = .ok ⟨s.ticks.card, beta⟩ := by
  have hc := h.placed.bounds.2
  have hsame : Scalar.Same s.annihilation.period s.creation.period := by
    rw [h.annihilation, h.creation]
    exact Time.Resolved.same
  rw [Segment.length, Time.sub_eq_ok hsame (by omega), card_ticks h.placed, h.annihilation]

theorem OnCycle.ranges {s : Segment α} (h : s.OnCycle beta) (hb : 0 < beta) :
    ∃ r, s.ranges = .ok r ∧ ∀ u : Finset ℕ,
      (r.map fun x => (Finset.Ico x.1 x.2 ∩ u).card).sum = (s.ticks ∩ u).card := by
  rw [Segment.ranges, h.isFull hb, Outcome.ok_bind]
  by_cases hw : s.Whole
  · refine ⟨[(0, ticksPerPeriod)], by rw [decide_eq_true hw]; rfl, fun u => ?_⟩
    rw [ticks_whole hw, Finset.range_eq_Ico, List.map_singleton, List.sum_singleton]
  rw [decide_eq_false hw]
  rcases le_or_gt s.creation.ticks s.annihilation.ticks with hle | hlt
  · refine ⟨[(s.creation.ticks, s.annihilation.ticks)], by simp [isCyclic, hle], fun u => ?_⟩
    rw [ticks_straight h.placed hle, List.map_singleton, List.sum_singleton]
  · refine ⟨[(s.creation.ticks, ticksPerPeriod), (0, s.annihilation.ticks)],
      by simp [isCyclic, hlt], fun u => ?_⟩
    have hd := (disjoint_arms hlt.le ticksPerPeriod).mono
      (Finset.inter_subset_left : _ ∩ u ⊆ _) (Finset.inter_subset_left : _ ∩ u ⊆ _)
    rw [ticks_cyclic h.placed hlt, Finset.union_inter_distrib_right,
      Finset.card_union_of_disjoint hd]
    simp

end Segment
end ImpuritySampler
