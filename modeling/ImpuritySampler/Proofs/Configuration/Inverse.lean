import ImpuritySampler.Proofs.Line.Refill
import ImpuritySampler.Proofs.Move.Regroup

/-!
# Cutting and closing are inverse

A hole that has been cut is closed again at the piece that starts where the hole ends, and a gap
that has been closed is cut again out of the merged segment, wherever the pieces have come to stand.
Both give the line back as it was, and neither changes another line.
-/

set_option autoImplicit false

namespace ImpuritySampler.Configuration

open Line

variable {α : Type} [Scalar α] {beta : α} {c : Configuration α} {color i : ℕ}

theorem split_regroup {s : Segment α} {a h : Time α} (hb : 0 < beta) (hv : c.Valid beta)
    (hbeta : c.beta = beta) (hc : color < c.colors) (hs : (c.lineAt color)[i]? = some s)
    (ha : a.IsPoint beta) (hh : h.IsPoint beta) (hhole : Hole s a h) :
    ∃ c', c.split color i a h = .ok c' ∧ (∀ k ≠ color, c'.lineAt k = c.lineAt k) ∧
      (∃ (j : ℕ) (p : Segment α), (c'.lineAt color)[j]? = some p ∧
        p.creation.ticks = h.ticks) ∧
      ∀ (j : ℕ) (p : Segment α), (c'.lineAt color)[j]? = some p →
        p.creation.ticks = h.ticks → c'.regroup color j = .ok (s, c) := by
  have hl := hv.lineAt hc
  refine ⟨_, split_eq hb hv hc hs, fun k hk => (lineAt_setLine hc k).trans (if_neg hk), ?_, ?_⟩
  · obtain ⟨j, p, -, hp, -, -, -, hcreation, -⟩ := hl.closed_holed hs ha hh hhole
    rw [line_setLine hc]
    exact ⟨j, p, hp, congrArg Time.ticks hcreation⟩
  · intro j p hp he
    rw [line_setLine hc] at hp
    obtain ⟨q, hq, -, -, hmerged, hclosed⟩ := hl.piece_holed hs ha hh hhole hp he
    rw [regroup_setLine hb hbeta hc hp hq, hmerged, hclosed, setLine_lineAt hc]

theorem regroup_split_back {p q : Segment α} (hb : 0 < beta) (hv : c.Valid beta)
    (hbeta : c.beta = beta) (hc : color < c.colors) (ht : (c.lineAt color).Tidy)
    (hp : (c.lineAt color)[i]? = some p)
    (hq : (c.lineAt color)[nextPlace i (c.lineAt color).length]? = some q) :
    ∃ r c', c.regroup color i = .ok (r, c') ∧ (∀ k ≠ color, c'.lineAt k = c.lineAt k) ∧
      (∃ k : ℕ, (c'.lineAt color)[k]? = some r) ∧
      ∀ k : ℕ, (c'.lineAt color)[k]? = some r →
        c'.split color k q.annihilation p.creation = .ok c := by
  refine ⟨_, _, regroup_eq hb hbeta hc hp hq,
    fun k hk => (lineAt_setLine hc k).trans (if_neg hk), ?_, ?_⟩
  · rw [line_setLine hc]
    exact exists_place_closed beta _ i p q
  · intro k hk
    have hline := line_setLine hc (Line.closed beta (c.lineAt color) i p q)
    have hback := hk
    rw [hline] at hback
    have hcycle := (hv.lineAt hc).onCycle_closed ht hp hq _ (List.mem_of_getElem? hback)
    rw [split_onCycle hb (lt_of_lt_of_eq hc colors_setLine.symm) hk hcycle, hline,
      setLine_setLine, ht.holed_closed hp hq hback rfl, setLine_lineAt hc]

/-- Cutting a hole and closing a gap undo each other. -/
theorem split_regroup_inverse (hb : 0 < c.beta) (hv : c.Valid c.beta) (hc : color < c.colors) :
    (∀ (i : ℕ) (s : Segment α) (a h : Time α), (c.lineAt color)[i]? = some s →
      a.IsPoint c.beta → h.IsPoint c.beta → Hole s a h →
      ∃ c', c.split color i a h = .ok c' ∧ (∀ k ≠ color, c'.lineAt k = c.lineAt k) ∧
        (∃ (j : ℕ) (p : Segment α), (c'.lineAt color)[j]? = some p ∧
          p.creation.ticks = h.ticks) ∧
        ∀ (j : ℕ) (p : Segment α), (c'.lineAt color)[j]? = some p →
          p.creation.ticks = h.ticks → c'.regroup color j = .ok (s, c)) ∧
    (c.isFull color = .ok false → ∀ i < (c.lineAt color).length, ∃ p q r c',
      (c.lineAt color)[i]? = some p ∧
      (c.lineAt color)[nextPlace i (c.lineAt color).length]? = some q ∧
      c.regroup color i = .ok (r, c') ∧ (∀ k ≠ color, c'.lineAt k = c.lineAt k) ∧
      (∃ k : ℕ, (c'.lineAt color)[k]? = some r) ∧
      ∀ k : ℕ, (c'.lineAt color)[k]? = some r →
        c'.split color k q.annihilation p.creation = .ok c) := by
  refine ⟨fun i s a h hs ha hh hhole => split_regroup hb hv rfl hc hs ha hh hhole,
    fun hfull i hi => ?_⟩
  have ht := tidy_of_isFull hb hv hc hfull
  have hp := List.getElem?_eq_getElem hi
  have hq := List.getElem?_eq_getElem (nextPlace_lt hi)
  obtain ⟨r, c', h⟩ := regroup_split_back hb hv rfl hc ht hp hq
  exact ⟨_, _, r, c', hp, hq, h⟩

/-- Both ways on a line with a segment that wraps: the hole that is cut lies across the end of the
axis, and the gap that is closed has no length. -/
theorem split_regroup_inverse_touching : 0 < Proposal.touching.config.beta ∧
    (∃ c' j, Proposal.touching.config.split 0 1 ⟨20, 1⟩ ⟨1, 1⟩ = .ok c' ∧
      c'.regroup 0 j = .ok (⟨⟨3, 1⟩, ⟨10, 1⟩⟩, Proposal.touching.config)) ∧
    ∃ c' k, Proposal.touching.config.regroup 0 1 = .ok (⟨⟨3, 1⟩, ⟨5, 1⟩⟩, c') ∧
      c'.split 0 k ⟨10, 1⟩ ⟨10, 1⟩ = .ok Proposal.touching.config := by
  have hb : 0 < Proposal.touching.config.beta := one_pos
  have hmatched := (State.consistent_iff one_pos).mp Proposal.touching_consistent
  have hv : Proposal.touching.config.Valid Proposal.touching.config.beta := hmatched.valid
  have hinside : Inside (⟨⟨3, 1⟩, ⟨10, 1⟩⟩ : Segment ℝ) ⟨20, 1⟩ ⟨1, 1⟩ :=
    ⟨by decide, by decide, by decide, by decide, by decide, by decide⟩
  have hcolor : 0 < Proposal.touching.config.colors := Nat.zero_lt_one
  obtain ⟨hsplit, hregroup⟩ := split_regroup_inverse hb hv hcolor
  refine ⟨hb, ?_, ?_⟩
  · obtain ⟨c', hcut, -, ⟨j, p, hp, he⟩, hback⟩ := hsplit 1 ⟨⟨3, 1⟩, ⟨10, 1⟩⟩ ⟨20, 1⟩ ⟨1, 1⟩ rfl
      ⟨rfl, by decide⟩ ⟨rfl, by decide⟩ (by rwa [Hole, if_neg (by decide)])
    exact ⟨c', j, hcut, hback j p hp he⟩
  · have hfull := isFull_of_tidy hb hv hcolor Proposal.touching_tidy
    obtain ⟨p, q, r, c', hp, hq, hclosed, -, ⟨k, hk⟩, hback⟩ := hregroup hfull 1 (by decide)
    cases hp
    cases hq
    have hmerged := (regroup_eq (i := 1) hb rfl hcolor rfl rfl).symm.trans hclosed
    cases hmerged
    exact ⟨_, k, hclosed, hback k hk⟩

end ImpuritySampler.Configuration
