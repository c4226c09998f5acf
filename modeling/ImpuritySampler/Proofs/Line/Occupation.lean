import ImpuritySampler.Proofs.Line.Valid

/-!
# One set of ticks for a line

Overlaps are counted over half-open ranges, the occupied length is a sum of differences of times,
and the occupation below a time compares times. On a valid line all of them are read off the one
set of ticks that its segments occupy. Since no tick is occupied twice, a segment and the rest of
the cycle divide the occupied length, and at most one segment lies below a time.
-/

set_option autoImplicit false

namespace ImpuritySampler

open Time

section Below

variable {α : Type} {beta : α} {s : Segment α} {t : Time α}

theorem Time.behind_one {n : ℕ} (hn : n < ticksPerPeriod) :
    behind n 1 = if n = 0 then ticksPerPeriod - 1 else n - 1 := by
  rw [behind_eq hn]
  unfold gap
  split_ifs <;> omega

def Time.lastTick (t : Time α) : Segment α := ⟨t, ⟨behind t.ticks 1, t.period⟩⟩

theorem Time.IsPoint.lastTick_onCycle (ht : t.IsPoint beta) : t.lastTick.OnCycle beta :=
  ⟨ht.period, ht.period, .inl ⟨ht.lt, behind_lt t.ticks 1⟩⟩

theorem Time.IsPoint.ticks_lastTick (ht : t.IsPoint beta) :
    t.lastTick.ticks = {behind t.ticks 1} := by
  have hlt := ht.lt
  have hperiod : 1 < ticksPerPeriod := by decide
  ext k
  rw [Finset.mem_singleton, lastTick, Segment.mem_mk, behind_eq hlt]
  simp only [gap]
  split_ifs <;> omega

variable [Scalar α]

theorem Segment.OnCycle.occupiesBelow_eq (h : s.OnCycle beta) (hb : 0 < beta)
    (ht : t.IsPoint beta) : s.occupiesBelow t = .ok (decide (behind t.ticks 1 ∈ s.ticks)) := by
  rw [Segment.occupiesBelow, h.isFull hb, Outcome.ok_bind]
  by_cases hw : s.Whole
  · have hmem : behind t.ticks 1 ∈ s.ticks := by
      rw [ticks_whole hw, Finset.mem_range]
      exact behind_lt t.ticks 1
    rw [decide_eq_true hw, decide_eq_true hmem]
    rfl
  · obtain ⟨ha, hc⟩ := h.regular hw
    have hlt := ht.lt
    have hmem : behind t.ticks 1 ∈ s.ticks ↔ _ := mem_ticks h.placed
    rw [behind_one hlt] at hmem ⊢
    rw [decide_eq_false hw, if_neg Bool.false_ne_true]
    by_cases hcyclic : s.annihilation.ticks < s.creation.ticks
    · rw [isCyclic, if_pos (decide_eq_true hcyclic), Outcome.pure_eq]
      congr 2
      rw [hmem, eq_iff_iff]
      split_ifs <;> omega
    · rw [isCyclic, decide_eq_false hcyclic, if_neg Bool.false_ne_true, Outcome.pure_eq]
      congr 2
      rw [hmem, eq_iff_iff]
      split_ifs <;> omega

theorem Line.occupiedBelow_eq {l : Line α} (hb : 0 < beta) (hl : ∀ s ∈ l, s.OnCycle beta)
    (ht : t.IsPoint beta) : l.occupiedBelow t = .ok (decide (behind t.ticks 1 ∈ ticks l)) := by
  rw [occupiedBelow, Outcome.anyM_eq_ok fun s hs => (hl s hs).occupiesBelow_eq hb ht]
  congr 1
  rw [Bool.eq_iff_iff, List.any_eq_true, decide_eq_true_eq, mem_ticks]
  simp only [decide_eq_true_eq]

end Below

theorem Segment.OnCycle.length_pos {α : Type} [ExactScalar α] {beta : α} {s : Segment α}
    (h : s.OnCycle beta) (hr : s.Regular) (hne : s.annihilation.ticks ≠ s.creation.ticks)
    {d : Time α} (hd : s.length = .ok d) : 0 < d.ticks := by
  rw [h.length, Except.ok.injEq] at hd
  rw [← hd]
  dsimp only
  exact Finset.card_pos.mpr ⟨s.creation.ticks, creation_mem_ticks hr hne⟩

namespace Line

section Apart

variable {α : Type} {l : Line α} {s : Segment α}

theorem card_ticks_of_apart (h : l.Pairwise fun s t => Disjoint s.ticks t.ticks) :
    (ticks l).card = (l.map fun s => s.ticks.card).sum := by
  induction l with
  | nil => simp [ticks]
  | cons s l ih =>
    obtain ⟨hs, hl⟩ := List.pairwise_cons.mp h
    have hd : Disjoint (ticks l) s.ticks := disjoint_ticks fun t ht => (hs t ht).symm
    rw [ticks_cons, Finset.card_union_of_disjoint hd.symm, ih hl, List.map_cons, List.sum_cons]

theorem card_ticks_le (l : Line α) : (ticks l).card ≤ ticksPerPeriod := by
  calc (ticks l).card
    _ ≤ (Finset.range ticksPerPeriod).card := by
      apply Finset.card_le_card
      intro t ht
      obtain ⟨s, -, hs⟩ := mem_ticks.mp ht
      exact Finset.mem_range.mpr (Segment.ticks_lt hs)
    _ = ticksPerPeriod := Finset.card_range _

theorem card_inter_swap (hs : s.Regular) (hne : s.annihilation.ticks ≠ s.creation.ticks)
    (l : Line α) :
    (s.ticks ∩ ticks l).card + (s.swap.ticks ∩ ticks l).card = (ticks l).card := by
  have hrest : s.swap.ticks ∩ ticks l = ticks l \ s.ticks := by
    ext t
    rw [Finset.mem_inter, Finset.mem_sdiff]
    constructor
    · rintro ⟨hswap, htl⟩
      exact ⟨htl, (Segment.mem_ticks_swap hs hne (Segment.ticks_lt hswap)).mp hswap⟩
    · rintro ⟨htl, hts⟩
      obtain ⟨r, -, hr⟩ := mem_ticks.mp htl
      exact ⟨(Segment.mem_ticks_swap hs hne (Segment.ticks_lt hr)).mpr hts, htl⟩
  rw [hrest, Finset.inter_comm, Finset.card_inter_add_card_sdiff]

theorem index_unique_of_tick (h : l.Pairwise fun s t => Disjoint s.ticks t.ticks) {i j t : ℕ}
    {p q : Segment α} (hi : l[i]? = some p) (hj : l[j]? = some q) (hp : t ∈ p.ticks)
    (hq : t ∈ q.ticks) : i = j := by
  obtain ⟨hil, rfl⟩ := List.getElem?_eq_some_iff.mp hi
  obtain ⟨hjl, rfl⟩ := List.getElem?_eq_some_iff.mp hj
  rw [List.pairwise_iff_getElem] at h
  rcases lt_trichotomy i j with hij | hij | hij
  · exact absurd hq (Finset.disjoint_left.mp (h i j hil hjl hij) hp)
  · exact hij
  · exact absurd hp (Finset.disjoint_left.mp (h j i hjl hil hij) hq)

end Apart

variable {α : Type} [ExactScalar α] {beta : α} {l : Line α} {s : Segment α} {t : Time α}

theorem Valid.overlapTicks_eq (hv : l.Valid beta) (hb : 0 < beta) (hs : s.OnCycle beta) :
    overlapTicks l s = .ok (s.ticks ∩ ticks l).card := by
  rw [Line.overlapTicks_eq hb hv.onCycle hs, shared_eq hv.apart, Outcome.word,
    if_pos (card_inter_lt_wordLimit s _)]

theorem scalar_sum_scale (beta : α) (l : List ℕ) :
    Scalar.sum (l.map fun n => scale n beta) = scale l.sum beta := by
  have hfold : ∀ x : α, (l.map fun n => scale n beta).foldl (· + ·) x = x + scale l.sum beta := by
    induction l with
    | nil => simp [scale_zero]
    | cons n l ih =>
      intro x
      rw [List.map_cons, List.foldl_cons, ih, List.sum_cons, scale_add, add_assoc]
  rw [Scalar.sum, hfold, neg_zero, zero_add]

theorem Valid.occupied_eq (hv : l.Valid beta) : occupied l = .ok (scale (ticks l).card beta) := by
  have hlengths : l.mapM Segment.length = .ok (l.map fun s => ⟨s.ticks.card, beta⟩) :=
    Outcome.mapM_eq_ok fun s hs => (hv.onCycle s hs).length
  have hvalues : (l.map fun s => (⟨s.ticks.card, beta⟩ : Time α)).map Time.value =
      (l.map fun s => s.ticks.card).map fun n => scale n beta := by
    simp only [List.map_map, Function.comp_def, Time.value]
  rw [occupied, hlengths, Outcome.ok_bind, Outcome.pure_eq, hvalues, scalar_sum_scale,
    ← card_ticks_of_apart hv.apart]

theorem scale_card_ticks_le (hb : 0 < beta) (l : Line α) : scale (ticks l).card beta ≤ beta := by
  rcases Nat.lt_or_eq_of_le (card_ticks_le l) with h | h
  · exact (scale_lt hb h).le
  · rw [h, scale_final]

theorem Valid.overlap_add_swap (hv : l.Valid beta) (hb : 0 < beta) (hs : s.OnCycle beta)
    (hw : ¬s.Whole) (hpos : ∀ d, s.length = .ok d → 0 < d.ticks) :
    ∃ x y, overlap l s = .ok x ∧ overlap l s.swap = .ok y ∧
      x + y = scale (ticks l).card beta := by
  have hr := hs.regular hw
  have hne : s.annihilation.ticks ≠ s.creation.ticks := by
    intro he
    have hcard := hpos _ hs.length
    rw [Segment.card_ticks hs.placed, he, gap_self] at hcard
    exact lt_irrefl 0 hcard
  have hswap : s.swap.OnCycle beta := ⟨hs.creation, hs.annihilation, .inl ⟨hr.2, hr.1⟩⟩
  refine ⟨_, _, overlap_eq hb hv.onCycle hs hv.apart, overlap_eq hb hv.onCycle hswap hv.apart, ?_⟩
  rw [← scale_add, card_inter_swap hr hne]

theorem Valid.occupiesBelow_unique (hv : l.Valid beta) (hb : 0 < beta) (ht : t.IsPoint beta)
    {i j : ℕ} {p q : Segment α} (hi : l[i]? = some p) (hj : l[j]? = some q)
    (hp : p.occupiesBelow t = .ok true) (hq : q.occupiesBelow t = .ok true) : i = j := by
  rw [(hv.onCycle p (List.mem_of_getElem? hi)).occupiesBelow_eq hb ht] at hp
  rw [(hv.onCycle q (List.mem_of_getElem? hj)).occupiesBelow_eq hb ht] at hq
  exact index_unique_of_tick hv.apart hi hj (of_decide_eq_true (Except.ok.inj hp))
    (of_decide_eq_true (Except.ok.inj hq))

theorem Valid.overlapTicks_lastTick (hv : l.Valid beta) (hb : 0 < beta) (ht : t.IsPoint beta) :
    overlapTicks l t.lastTick = .ok (decide (behind t.ticks 1 ∈ ticks l)).toNat := by
  rw [hv.overlapTicks_eq hb ht.lastTick_onCycle, ht.ticks_lastTick]
  by_cases h : behind t.ticks 1 ∈ ticks l
  · rw [Finset.singleton_inter_of_mem h, decide_eq_true h, Finset.card_singleton]
    rfl
  · rw [Finset.singleton_inter_of_notMem h, decide_eq_false h]
    rfl

/-- What is asked about the occupation of a valid line has its answer in the set of its ticks. -/
theorem occupation_by_ticks (hb : 0 < beta) (hv : l.Valid beta) :
    (∀ s : Segment α, s.OnCycle beta → overlapTicks l s = .ok (s.ticks ∩ ticks l).card ∧
      overlap l s = .ok (scale (s.ticks ∩ ticks l).card beta)) ∧
    (∃ x, occupied l = .ok x ∧ x ≤ beta ∧
      ∀ s : Segment α, s.OnCycle beta → ¬s.Whole → (∀ d, s.length = .ok d → 0 < d.ticks) →
        ∃ y z, overlap l s = .ok y ∧ overlap l s.swap = .ok z ∧ y + z = x) ∧
    ∀ t : Time α, t.IsPoint beta →
      (∀ (i j : ℕ) (p q : Segment α), l[i]? = some p → l[j]? = some q →
        p.occupiesBelow t = .ok true → q.occupiesBelow t = .ok true → i = j) ∧
      ∃ b, occupiedBelow l t = .ok b ∧ (b = true ↔ behind t.ticks 1 ∈ ticks l) ∧
        overlapTicks l t.lastTick = .ok b.toNat := by
  refine ⟨?_, ⟨_, hv.occupied_eq, scale_card_ticks_le hb l, ?_⟩, ?_⟩
  · intro s hs
    exact ⟨hv.overlapTicks_eq hb hs, overlap_eq hb hv.onCycle hs hv.apart⟩
  · intro s hs hw hpos
    exact hv.overlap_add_swap hb hs hw hpos
  · intro t ht
    constructor
    · intro i j p q hi hj hp hq
      exact hv.occupiesBelow_unique hb ht hi hj hp hq
    · exact ⟨_, occupiedBelow_eq hb hv.onCycle ht, decide_eq_true_iff,
        hv.overlapTicks_lastTick hb ht⟩

/-- Two segments that touch at one time, the second one around the end of the axis. -/
def touchingPair : Line ℚ := [⟨⟨10, 1⟩, ⟨5, 1⟩⟩, ⟨⟨3, 1⟩, ⟨10, 1⟩⟩]

theorem touchingPair_valid : touchingPair.Valid 1 := touching_two_valid 1

/-- At the common time only one segment lies below, and a segment around the end of the axis shares
with the line what its complement leaves. -/
theorem occupation_by_ticks_touching :
    (0 : ℚ) < 1 ∧ touchingPair.Valid 1 ∧
      (∃ x y z, occupied touchingPair = .ok x ∧
        overlap touchingPair ⟨⟨4, 1⟩, ⟨7, 1⟩⟩ = .ok y ∧
        overlap touchingPair ⟨⟨7, 1⟩, ⟨4, 1⟩⟩ = .ok z ∧ y + z = x) ∧
      occupiedBelow touchingPair ⟨10, 1⟩ = .ok true := by
  have hv := touchingPair_valid
  obtain ⟨-, ⟨x, hx, -, hswap⟩, hbelow⟩ := occupation_by_ticks one_pos hv
  have hs : (⟨⟨4, 1⟩, ⟨7, 1⟩⟩ : Segment ℚ).OnCycle 1 := ⟨rfl, rfl, .inl ⟨by decide, by decide⟩⟩
  obtain ⟨y, z, hy, hz, hsum⟩ := hswap _ hs (by decide) fun d =>
    hs.length_pos ⟨by decide, by decide⟩ (by decide)
  obtain ⟨-, b, hb, hmem, -⟩ := hbelow ⟨10, 1⟩ ⟨rfl, by decide⟩
  have hlast : behind 10 1 ∈ ticks touchingPair := by
    refine mem_ticks.mpr ⟨_, List.mem_cons_self, ?_⟩
    rw [Segment.mem_ticks (.inl ⟨by decide, by decide⟩)]
    decide
  rw [hmem.mpr hlast] at hb
  exact ⟨one_pos, hv, ⟨x, y, z, hx, hy, hz, hsum⟩, hb⟩

end Line

end ImpuritySampler
