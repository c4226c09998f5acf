import Mathlib
import ImpuritySampler.Line.Search

/-!
# Where binary searches end

A search over a sequence that is above a value up to some place, and not above it from there on,
ends at that place. The invariant of both loops is that the place stays in the searched range.
-/

set_option autoImplicit false

namespace ImpuritySampler.Search

theorem lowerBoundFrom_eq {n : ℕ} {ticks : Fin n → ℕ} {value m : ℕ}
    (habove : ∀ k : Fin n, k < m → value < ticks k) (hbelow : ∀ k : Fin n, m ≤ k → ticks k ≤ value)
    {lo hi : ℕ} (h : hi ≤ n) (hlo : lo ≤ m) (hhi : m ≤ hi) :
    lowerBoundFrom ticks value lo hi h = m := by
  fun_induction lowerBoundFrom ticks value lo hi h with
  | case1 lo hi h hlt mid hm hv ih =>
    refine ih ?_ hhi
    by_contra hc
    exact absurd hv (not_lt.mpr (hbelow ⟨mid, by omega⟩ (by simpa using by omega)))
  | case2 lo hi h hlt mid hm hv ih =>
    refine ih hlo ?_
    by_contra hc
    exact hv (habove ⟨mid, by omega⟩ (by simpa using by omega))
  | case3 lo hi h hlt => omega

theorem lowerBound_eq {n : ℕ} {ticks : Fin n → ℕ} {value m : ℕ} (hm : m ≤ n)
    (habove : ∀ k : Fin n, k < m → value < ticks k)
    (hbelow : ∀ k : Fin n, m ≤ k → ticks k ≤ value) : lowerBound ticks value = m :=
  lowerBoundFrom_eq habove hbelow (le_refl n) (Nat.zero_le m) hm

/-- The last place where `p` holds, or the first place if it holds nowhere. -/
theorem halve_spec {p : ℕ → Bool} {n m : ℕ} (hfirst : ∀ i < m, p i = true)
    (hrest : ∀ i < n, m ≤ i → p i = false) {size base : ℕ} (hsize : 0 < size)
    (hn : base + size ≤ n) (hbase : base < m ∨ base = 0) (hm : m ≤ base + size) :
    (halve p size base < m ∨ halve p size base = 0) ∧ m ≤ halve p size base + 1 ∧
      halve p size base < n := by
  fun_induction halve p size base with
  | case1 size base hlt mid ih =>
    cases hp : p mid with
    | true =>
      have hmid : mid < m := by
        by_contra hc
        rw [hrest mid (by omega) (by omega)] at hp
        cases hp
      simp only [hp, dite_true, if_true] at ih ⊢
      exact ih (by omega) (by omega) (.inl hmid) (by omega)
    | false =>
      have hmid : m ≤ mid := by
        by_contra hc
        rw [hfirst mid (by omega)] at hp
        cases hp
      simp only [hp, Bool.false_eq_true, dite_false, if_false] at ih ⊢
      exact ih (by omega) (by omega) hbase (by omega)
  | case2 size base hlt => omega

theorem halve_lt (p : ℕ → Bool) {size base : ℕ} (hsize : 0 < size) :
    halve p size base < base + size := by
  fun_induction halve p size base with
  | case1 size base hlt mid ih =>
    have h := ih (by omega)
    cases hp : p mid with
    | true =>
      simp only [hp, dite_true, if_true] at h ⊢
      omega
    | false =>
      simp only [hp, Bool.false_eq_true, dite_false, if_false] at h ⊢
      omega
  | case2 size base hlt => omega

theorem partitionPoint_le (p : ℕ → Bool) (n : ℕ) : partitionPoint p n ≤ n := by
  rcases Nat.eq_zero_or_pos n with rfl | hn
  · rw [partitionPoint, if_pos rfl]
  · have h : halve p n 0 < 0 + n := halve_lt p hn
    rw [partitionPoint, if_neg hn.ne']
    simp only []
    split <;> omega

theorem partitionPoint_eq {p : ℕ → Bool} {n m : ℕ} (hm : m ≤ n) (hfirst : ∀ i < m, p i = true)
    (hrest : ∀ i < n, m ≤ i → p i = false) : partitionPoint p n = m := by
  rcases Nat.eq_zero_or_pos n with rfl | hn
  · rw [partitionPoint, if_pos rfl]
    omega
  obtain ⟨hor, hle, hlt⟩ := halve_spec hfirst hrest hn (by omega) (.inr rfl) (by omega)
  rw [partitionPoint, if_neg hn.ne']
  simp only []
  cases hp : p (halve p n 0) with
  | true =>
    have hlt' : halve p n 0 < m := by
      by_contra hc
      rw [hrest _ hlt (by omega)] at hp
      cases hp
    rw [if_pos rfl]
    omega
  | false =>
    have hge : ¬halve p n 0 < m := fun hc => by
      rw [hfirst _ hc] at hp
      cases hp
    rw [if_neg (by decide)]
    rcases hor with h | h
    · exact absurd h hge
    · omega

end ImpuritySampler.Search
