import ImpuritySampler.Proofs.Outcome
import ImpuritySampler.Proofs.Time
import ImpuritySampler.Time.Cycle

/-!
# The way forward on the closed axis

The axis includes its end, whose tick count is that of a whole period: a second name of the origin.
Going forward by the difference of two times leads from the second to the first, and the difference
of two tick counts that are not equal is a duration, with one exception. From the end of the axis to
the origin there is no way to go, although the two counts differ.
-/

set_option autoImplicit false

namespace ImpuritySampler.Time

section Ticks

variable {a b : ℕ}

/-- Without the remainder, a way forward passes the end of the axis at most once. -/
theorem add_gap_cases (hb : b ≤ a + ticksPerPeriod) :
    b + gap a b = a ∨ b + gap a b = a + ticksPerPeriod := by
  rcases le_or_gt b a with h | h
  · left
    rw [gap_of_le h, Nat.add_sub_cancel' h]
  · right
    rw [gap_of_lt h]
    omega

theorem add_gap_mod (hb : b ≤ a + ticksPerPeriod) :
    (b % ticksPerPeriod + gap a b % ticksPerPeriod) % ticksPerPeriod = a % ticksPerPeriod := by
  rw [← Nat.add_mod]
  rcases add_gap_cases hb with h | h
  · rw [h]
  · rw [h, Nat.add_mod_right]

theorem gap_le_period (ha : a ≤ ticksPerPeriod) (b : ℕ) : gap a b ≤ ticksPerPeriod := by
  rcases le_or_gt b a with h | h
  · rw [gap_of_le h]
    omega
  · rw [gap_of_lt h]
    exact Nat.sub_le _ _

theorem gap_eq_zero (hb : b ≤ ticksPerPeriod) :
    gap a b = 0 ↔ a = b ∨ a = 0 ∧ b = ticksPerPeriod := by
  have hpos := ticksPerPeriod_pos
  rcases le_or_gt b a with h | h
  · rw [gap_of_le h]
    omega
  · rw [gap_of_lt h]
    omega

end Ticks

theorem same_ticks {α : Type} {s t : Time α} : (s == t) = true ↔ s.ticks = t.ticks :=
  beq_iff_eq (α := ℕ)

theorem scale_pos {α : Type} [ExactScalar α] {beta : α} (hb : 0 < beta) {n : ℕ} (h : 0 < n) :
    0 < scale n beta := by
  have hlt := scale_strictMono hb h
  rwa [scale_zero] at hlt

theorem scale_le_period {α : Type} [ExactScalar α] {beta : α} (hb : 0 < beta) {n : ℕ}
    (h : n ≤ ticksPerPeriod) : scale n beta ≤ beta := by
  rcases Nat.lt_or_eq_of_le h with hlt | rfl
  · exact (scale_lt hb hlt).le
  · exact scale_final.le

/-- The difference of two times on one cycle, the end of the axis included, always exists. It is
zero only for equal times, and for the origin minus the end of the axis. Any other difference is a
duration of at most one period, and every difference leads from the second time to the first. -/
theorem sub_lands {α : Type} [Scalar α] {a b : Time α} (hp : Scalar.Same a.period b.period)
    (ha : a.ticks ≤ ticksPerPeriod) (hb : b.ticks ≤ ticksPerPeriod) :
    ∃ d, a.sub b = .ok d ∧ d.period = a.period ∧
      (d.ticks = 0 ↔ (a == b) = true ∨ a.ticks = 0 ∧ b.ticks = ticksPerPeriod) ∧
      (d.ticks ≠ 0 → 0 < d.ticks ∧ d.ticks ≤ ticksPerPeriod ∧
        ∀ {K : Type} [ExactScalar K] {beta : K}, 0 < beta →
          0 < scale d.ticks beta ∧ scale d.ticks beta ≤ beta) ∧
      ∃ c, b.add d = .ok c ∧ (c == a.canonical) = true := by
  have hsum : b.ticks ≤ a.ticks + ticksPerPeriod := hb.trans (Nat.le_add_left _ _)
  refine ⟨⟨gap a.ticks b.ticks, a.period⟩, sub_eq_ok hp hsum, rfl, ?_, fun hne => ?_, ?_⟩
  · rw [same_ticks]
    exact gap_eq_zero hb
  · have hpos : 0 < gap a.ticks b.ticks := Nat.pos_of_ne_zero hne
    have hle := gap_le_period ha b.ticks
    exact ⟨hpos, hle, fun hbeta => ⟨scale_pos hbeta hpos, scale_le_period hbeta hle⟩⟩
  · refine ⟨⟨_, b.period⟩, ?_, same_ticks.mpr (add_gap_mod hsum)⟩
    rw [add, Outcome.require_true ⟨hp.2, hp.1⟩]
    rfl

/-- The exception: nothing is left between the end of the axis and the origin. -/
theorem sub_lands_final :
    Scalar.Same (1 : ℚ) 1 ∧ 0 ≤ ticksPerPeriod ∧ ticksPerPeriod ≤ ticksPerPeriod ∧
    ((⟨0, 1⟩ : Time ℚ) == ⟨ticksPerPeriod, 1⟩) = false ∧
    ∃ d, (⟨0, 1⟩ : Time ℚ).sub ⟨ticksPerPeriod, 1⟩ = .ok d ∧ d.ticks = 0 ∧
      ∃ c, (⟨ticksPerPeriod, 1⟩ : Time ℚ).add d = .ok c ∧
        (c == (⟨0, 1⟩ : Time ℚ).canonical) = true := by
  have hsame : Scalar.Same (1 : ℚ) 1 := ⟨le_refl 1, le_refl 1⟩
  obtain ⟨d, hd, -, hzero, -, hadd⟩ := sub_lands (a := ⟨0, (1 : ℚ)⟩) (b := ⟨ticksPerPeriod, 1⟩)
    hsame (Nat.zero_le _) (le_refl _)
  exact ⟨hsame, Nat.zero_le _, le_refl _, by decide, d, hd, hzero.mpr (.inr ⟨rfl, rfl⟩), hadd⟩

end ImpuritySampler.Time
