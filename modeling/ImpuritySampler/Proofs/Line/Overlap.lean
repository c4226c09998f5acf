import ImpuritySampler.Proofs.Line.Tidy
import ImpuritySampler.Proofs.Segment.Occupation

/-!
# Overlaps in ticks

The ticks that a segment shares with a line are counted range by range. The count is the sum of the
common ticks of the segment and each segment of the line; it exists as long as it fits into a word,
and it cannot fail to do so on a line without overlaps.
-/

set_option autoImplicit false

namespace ImpuritySampler.Line

section Count

theorem sharedTicks_eq (a b : ℕ × ℕ) :
    sharedTicks a b = (Finset.Ico a.1 a.2 ∩ Finset.Ico b.1 b.2).card := by
  rw [Finset.Ico_inter_Ico, Nat.card_Ico]
  rfl

theorem foldl_add {β : Type} (f : β → ℕ) (l : List β) (n : ℕ) :
    l.foldl (fun n b => n + f b) n = n + (l.map f).sum := by
  induction l generalizing n with
  | nil => rfl
  | cons b l ih => rw [List.foldl_cons, ih, List.map_cons, List.sum_cons, Nat.add_assoc]

/-- Two lists of ranges that divide two sets share the ticks of both sets. -/
theorem sharedWith_eq {mine theirs : List (ℕ × ℕ)} {u v : Finset ℕ}
    (hu : ∀ w : Finset ℕ, (mine.map fun a => (Finset.Ico a.1 a.2 ∩ w).card).sum = (u ∩ w).card)
    (hv : ∀ w : Finset ℕ, (theirs.map fun b => (Finset.Ico b.1 b.2 ∩ w).card).sum = (v ∩ w).card)
    (n : ℕ) : sharedWith mine theirs n = n + (u ∩ v).card := by
  have hinner : ∀ a : ℕ × ℕ, (theirs.map fun b => sharedTicks a b).sum =
      (Finset.Ico a.1 a.2 ∩ v).card := by
    intro a
    rw [Finset.inter_comm, ← hv]
    simp only [sharedTicks_eq, Finset.inter_comm]
  simp only [sharedWith, foldl_add, hinner, hu]

end Count

variable {α : Type} [Scalar α] {beta : α} {l : Line α} {s : Segment α}

def shared (l : Line α) (s : Segment α) : ℕ := (l.map fun t => (s.ticks ∩ t.ticks).card).sum

theorem overlapTicks_eq (hb : 0 < beta) (hl : ∀ t ∈ l, t.OnCycle beta) (hs : s.OnCycle beta) :
    overlapTicks l s = Outcome.word (shared l s) := by
  obtain ⟨mine, hmine, hu⟩ := hs.ranges hb
  rw [overlapTicks, hmine, Outcome.ok_bind]
  suffices h : ∀ n < wordLimit, l.foldlM (fun total t => do
      Outcome.word (sharedWith mine (← t.ranges) total)) n =
        (Outcome.word (n + shared l s) : Outcome α ℕ) by
    rw [h 0 (by decide), Nat.zero_add]
  induction l with
  | nil =>
    intro n hn
    exact (if_pos hn).symm
  | cons t l ih =>
    intro n hn
    obtain ⟨theirs, htheirs, hv⟩ := (hl t List.mem_cons_self).ranges hb
    rw [List.foldlM_cons, htheirs, Outcome.ok_bind, sharedWith_eq hu hv, shared, List.map_cons,
      List.sum_cons, ← Nat.add_assoc]
    by_cases h : n + (s.ticks ∩ t.ticks).card < wordLimit
    · rw [Outcome.word, if_pos h, Outcome.ok_bind]
      exact ih (fun r hr => hl r (List.mem_cons_of_mem t hr)) _ h
    · rw [Outcome.word, if_neg h, Outcome.error_bind, Outcome.word, if_neg (by omega)]

omit [Scalar α] in
theorem shared_eq (h : l.Pairwise fun s t => Disjoint s.ticks t.ticks) :
    shared l s = (s.ticks ∩ ticks l).card := by
  induction l with
  | nil => simp [shared, ticks]
  | cons t l ih =>
    obtain ⟨ht, hl⟩ := List.pairwise_cons.mp h
    have hd : Disjoint (s.ticks ∩ t.ticks) (s.ticks ∩ ticks l) :=
      (disjoint_ticks fun r hr => (ht r hr).symm).symm.mono Finset.inter_subset_right
        Finset.inter_subset_right
    rw [shared, List.map_cons, List.sum_cons, ticks_cons, Finset.inter_union_distrib_left,
      Finset.card_union_of_disjoint hd, ← ih hl]
    rfl

omit [Scalar α] in
theorem card_inter_lt_wordLimit (s : Segment α) (u : Finset ℕ) :
    (s.ticks ∩ u).card < wordLimit :=
  calc (s.ticks ∩ u).card
    _ ≤ (Finset.range ticksPerPeriod).card := Finset.card_le_card fun t ht =>
      Finset.mem_range.mpr (Segment.ticks_lt (Finset.mem_of_mem_inter_left ht))
    _ = ticksPerPeriod := Finset.card_range _
    _ < wordLimit := by decide

theorem overlap_eq (hb : 0 < beta) (hl : ∀ t ∈ l, t.OnCycle beta) (hs : s.OnCycle beta)
    (hd : l.Pairwise fun s t => Disjoint s.ticks t.ticks) :
    overlap l s = .ok (Time.scale (s.ticks ∩ ticks l).card beta) := by
  rw [overlap, overlapTicks_eq hb hl hs, shared_eq hd, Outcome.word,
    if_pos (card_inter_lt_wordLimit s _), hs.annihilation]
  rfl

theorem disjoint_of_overlap [Time.Resolved beta] (hb : 0 < beta) (hl : ∀ t ∈ l, t.OnCycle beta)
    (hs : s.OnCycle beta) {x : α} (h : overlap l s = .ok x) (hx : Scalar.Same x 0) :
    ∀ t ∈ l, Disjoint s.ticks t.ticks := by
  rw [overlap, overlapTicks_eq hb hl hs] at h
  obtain ⟨n, hn, h⟩ := Outcome.bind_eq_ok.mp h
  obtain ⟨hlt, rfl⟩ := Outcome.word_eq_ok.mp hn
  rw [hs.annihilation] at h
  cases h
  have hz := (Time.Resolved.zero hb _ hlt).mp hx
  rw [shared, List.sum_eq_zero_iff] at hz
  intro t ht
  rw [Finset.disjoint_iff_inter_eq_empty, ← Finset.card_eq_zero]
  exact hz _ (List.mem_map_of_mem ht)

end ImpuritySampler.Line
