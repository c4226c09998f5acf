import ImpuritySampler.Proofs.Binary64.Value

/-!
# Rounding to the nearest number

The two bits behind the digits say where the exact number lies, so that rounding gives a nearest
one. Rounding does not pass numbers whose digits fit, and its error is at most half a unit of the
result.
-/

set_option autoImplicit false

namespace ImpuritySampler.Binary64

open Float.Model UnpackedFloat

section Locating

/-- The digits in front of the unit are those of `v`; the two bits tell whether what is behind the
unit is nothing, less than a half, a half, or more. -/
structure Locates (x : ExtendedMantissa) (v : ℚ) : Prop where
  exact : x.stickyBit = false → v = x.mantissa + if x.roundBit then 1 / 2 else 0
  inexact : x.stickyBit = true → x.mantissa + (if x.roundBit then 1 / 2 else 0) < v ∧
    v < x.mantissa + (if x.roundBit then 1 / 2 else 0) + 1 / 2

variable {x : ExtendedMantissa} {v : ℚ}

theorem Locates.bounds (h : Locates x v) : (x.mantissa : ℚ) ≤ v ∧ v < x.mantissa + 1 := by
  obtain ⟨m, r, s⟩ := x
  cases s with
  | false =>
    have hv := h.exact rfl
    cases r <;> simp at hv <;> constructor <;> linarith
  | true =>
    have hv := h.inexact rfl
    cases r <;> simp at hv <;> constructor <;> linarith

theorem Locates.shiftRightOne (h : Locates x v) : Locates x.shiftRightOne (v / 2) := by
  obtain ⟨m, r, s⟩ := x
  have hm : (m : ℚ) = 2 * (m / 2 : ℕ) + (m % 2 : ℕ) := by exact_mod_cast (Nat.div_add_mod m 2).symm
  have hdigit := Nat.mod_two_eq_zero_or_one m
  cases s with
  | false =>
    have hv := h.exact rfl
    rcases hdigit with hd | hd <;> cases r <;> constructor <;> intro hs <;>
      simp [ExtendedMantissa.shiftRightOne, hd] at hs hv hm ⊢ <;> (try constructor) <;> linarith
  | true =>
    obtain ⟨hlow, hhigh⟩ := h.inexact rfl
    rcases hdigit with hd | hd <;> cases r <;> constructor <;> intro hs <;>
      simp [ExtendedMantissa.shiftRightOne, hd] at hs hlow hhigh hm ⊢ <;> constructor <;> linarith

theorem Locates.shift (h : Locates x v) (k : ℕ) : Locates (x >>> k) (v / 2 ^ k) := by
  change Locates (Nat.repeat ExtendedMantissa.shiftRightOne k x) _
  induction k with
  | zero => rwa [pow_zero, div_one]
  | succ k ih =>
    rw [pow_succ, ← div_div]
    exact ih.shiftRightOne

theorem locates_exact (m : ℕ) : Locates (.ofMantissaAndAccuracy m .exact) m :=
  ⟨fun _ => (add_zero _).symm, nofun⟩

theorem locates_quotient (n : ℕ) {d : ℕ} (hd : 0 < d) :
    Locates (.ofMantissaAndAccuracy (n / d) (accuracyOfFraction (n % d) d)) (n / d : ℚ) := by
  have hd' : (0 : ℚ) < d := Nat.cast_pos.mpr hd
  have hn : (n : ℚ) = d * (n / d : ℕ) + (n % d : ℕ) := by exact_mod_cast (Nat.div_add_mod n d).symm
  have hv : (n / d : ℚ) = (n / d : ℕ) + (n % d : ℕ) / d := by
    rw [div_eq_iff hd'.ne', add_mul, div_mul_cancel₀ _ hd'.ne', mul_comm]
    exact hn
  have hrest : ((n % d : ℕ) : ℚ) < d := Nat.cast_lt.mpr (Nat.mod_lt n hd)
  rw [accuracyOfFraction, hv]
  generalize n / d = q at *
  generalize n % d = r at *
  split_ifs with hr
  · rw [hr, Nat.cast_zero, zero_div, add_zero]
    exact locates_exact _
  · have hr : (0 : ℚ) < r := Nat.cast_pos.mpr (Nat.pos_of_ne_zero hr)
    have hfrac : 0 < (r : ℚ) / d := div_pos hr hd'
    cases h : compare (2 * r) d with
    | lt =>
      have h : (2 * r : ℚ) < d := by exact_mod_cast compare_lt_iff_lt.mp h
      have hhalf : (r : ℚ) / d < 1 / 2 := by rw [div_lt_iff₀ hd']; linarith
      refine ⟨nofun, fun _ => ?_⟩
      simp [ExtendedMantissa.ofMantissaAndAccuracy]
      constructor <;> linarith
    | eq =>
      have h : (2 * r : ℚ) = d := by exact_mod_cast compare_eq_iff_eq.mp h
      have hhalf : (r : ℚ) / d = 1 / 2 := by rw [div_eq_iff hd'.ne']; linarith
      refine ⟨fun _ => ?_, nofun⟩
      simp [ExtendedMantissa.ofMantissaAndAccuracy]
      linarith
    | gt =>
      have h : (d : ℚ) < 2 * r := by exact_mod_cast compare_gt_iff_gt.mp h
      have hhalf : 1 / 2 < (r : ℚ) / d := by rw [lt_div_iff₀ hd']; linarith
      have hone : (r : ℚ) / d < 1 := by rw [div_lt_one hd']; exact hrest
      refine ⟨nofun, fun _ => ?_⟩
      simp [ExtendedMantissa.ofMantissaAndAccuracy]
      constructor <;> linarith

theorem Locates.rounded (h : Locates x v) : |(x.roundedMantissa : ℚ) - v| ≤ 1 / 2 := by
  obtain ⟨m, r, s⟩ := x
  rw [abs_le]
  cases s with
  | false =>
    have hv := h.exact rfl
    cases r with
    | false =>
      simp [ExtendedMantissa.roundedMantissa, ExtendedMantissa.accuracy,
        Accuracy.roundToNearestEven] at hv ⊢
      constructor <;> linarith
    | true =>
      have hdigit := Nat.mod_two_eq_zero_or_one m
      simp [ExtendedMantissa.roundedMantissa, ExtendedMantissa.accuracy,
        Accuracy.roundToNearestEven] at hv ⊢
      rcases hdigit with hd | hd <;> rw [hd] <;> constructor <;> push_cast <;> linarith
  | true =>
    obtain ⟨hlow, hhigh⟩ := h.inexact rfl
    cases r <;> simp [ExtendedMantissa.roundedMantissa, ExtendedMantissa.accuracy,
        Accuracy.roundToNearestEven] at hlow hhigh ⊢ <;> constructor <;> linarith

end Locating

section Rounding

/-- A number of `r` units at exponent `t` that is nearest to `v`. No finer unit can be stored at the
size of `v`. -/
structure Nearest (v : ℚ) (r : ℕ) (t : ℤ) : Prop where
  low : -1074 ≤ t
  most : r ≤ 2 ^ 53
  near : |r * 2 ^ t - v| ≤ 2 ^ t / 2
  full : t = -1074 ∨ 2 ^ (t + 52) ≤ v

theorem Nearest.digits {v : ℚ} {r : ℕ} {t : ℤ} (h : Nearest v r t) : 2 ^ 52 ≤ r ∨ t = -1074 := by
  rcases h.full with hlow | hfull
  · exact .inr hlow
  · left
    have hpos : (0 : ℚ) < 2 ^ t := by positivity
    have hnear := (abs_le.mp h.near).1
    rw [add_comm, zpow_add₀ two_ne_zero] at hfull
    have hlt : ((2 ^ 52 - 1 : ℕ) : ℚ) < r := by
      by_contra hle
      have hle := mul_le_mul_of_nonneg_right (not_lt.mp hle) hpos.le
      norm_num at hle hfull
      linarith
    have hlt : 2 ^ 52 - 1 < r := Nat.cast_lt.mp hlt
    omega

theorem nearest_first {m : ℕ} {e : ℤ} {a : Accuracy} {v : ℚ}
    (hv : Locates (.ofMantissaAndAccuracy m a) (v / 2 ^ e))
    (he : e ≤ Format.binary64.targetExponent (totalExponent m e)) :
    Nearest v (shiftToTargetExponent .binary64 m e a).1.roundedMantissa
      (Format.binary64.targetExponent (totalExponent m e)) := by
  obtain ⟨k, hk⟩ : ∃ k : ℕ, Format.binary64.targetExponent (totalExponent m e) = e + k :=
    ⟨(Format.binary64.targetExponent (totalExponent m e) - e).toNat, by omega⟩
  have hfirst : (shiftToTargetExponent .binary64 m e a).1 =
      ExtendedMantissa.ofMantissaAndAccuracy m a >>> k := by
    have hshift : (Format.binary64.targetExponent (totalExponent m e) - e).toNat = k := by omega
    rw [← hshift]
    rfl
  have hscale : v / 2 ^ e / 2 ^ k = v / 2 ^ (e + k) := by
    rw [div_div, zpow_add₀ two_ne_zero, zpow_natCast]
  have hlocates := hv.shift k
  have hpos : (0 : ℚ) < 2 ^ (e + k) := by positivity
  rw [hscale] at hlocates
  have hbounds := hv.bounds
  rw [mantissa_ofAccuracy] at hbounds
  have htarget := targetExponent_eq m e
  rw [hfirst, hk]
  rw [hk] at htarget
  refine ⟨by omega, ?_, ?_, ?_⟩
  · have hm : (m : ℚ) + 1 ≤ 2 ^ (m.log2 + 1) := by exact_mod_cast Nat.lt_log2_self
    have hlt : v / 2 ^ (e + k) < 2 ^ 53 := by
      rw [← hscale, div_lt_iff₀ (by positivity), ← pow_add]
      calc v / 2 ^ e
        _ < 2 ^ (m.log2 + 1) := by linarith
        _ ≤ 2 ^ (53 + k) := pow_le_pow_right₀ one_le_two (by omega)
    have hfloor : (ExtendedMantissa.ofMantissaAndAccuracy m a >>> k).mantissa < 2 ^ 53 := by
      have hlow := hlocates.bounds.1
      exact_mod_cast hlow.trans_lt hlt
    exact (roundToNearestEven_le _ _).trans hfloor
  · have hround := hlocates.rounded
    rw [abs_le] at hround ⊢
    have hv : v = v / 2 ^ (e + k) * 2 ^ (e + k) := (div_mul_cancel₀ _ hpos.ne').symm
    constructor <;> nlinarith
  · rcases eq_or_ne (e + k) (-1074) with h | h
    · exact .inl h
    · have hk : k = m.log2 - 52 ∧ 52 ≤ m.log2 := by omega
      have hm : (2 : ℚ) ^ m.log2 ≤ m := by
        exact_mod_cast Nat.log2_self_le (n := m) (by rintro rfl; simp at hk)
      right
      calc (2 : ℚ) ^ (e + k + 52)
        _ = 2 ^ m.log2 * 2 ^ e := by
          rw [← zpow_natCast, ← zpow_add₀ two_ne_zero]
          congr 1
          omega
        _ ≤ v / 2 ^ e * 2 ^ e := by
          gcongr
          linarith
        _ = v := div_mul_cancel₀ _ (by positivity)

def Stored (s : UnpackedFloat.Sign) (v : ℚ) (u : UnpackedFloat) : Prop :=
  v < 2 ^ (1024 : ℤ) ∧ Holds u (signed s v) ∨ 2 ^ (1024 : ℤ) ≤ v ∧ u = .infinity s

theorem stored_zero (s : UnpackedFloat.Sign) : Stored s 0 (Float.Model.pack (.zero s)).unpack := by
  rw [unpack_pack_zero]
  refine .inl ⟨by positivity, ?_⟩
  cases s with
  | positive => rfl
  | negative => exact neg_zero

theorem stored_finite (s : UnpackedFloat.Sign) {m : ℕ} {e : ℤ} (hm : 0 < m) (hlt : m < 2 ^ 53)
    (hlow : -1074 ≤ e) (hfull : 2 ^ 52 ≤ m ∨ e = -1074) :
    Stored s (m * 2 ^ e) (Float.Model.pack (.finite s m e hm)).unpack := by
  by_cases hhigh : e ≤ 971
  · have hc : Canonical m e := ⟨hlt, hlow, hhigh, hfull⟩
    rw [unpack_pack_canonical hm hc]
    exact .inl ⟨hc.lt_limit, hc, rfl⟩
  · have hfull : 2 ^ 52 ≤ m := hfull.resolve_right (by omega)
    refine .inr ⟨?_, ?_⟩
    · calc (2 ^ (1024 : ℤ) : ℚ)
        _ = 2 ^ 52 * 2 ^ (972 : ℤ) := (two_pow_mul 52 972).symm
        _ ≤ m * 2 ^ e := by
          gcongr
          · exact_mod_cast hfull
          · exact one_le_two
          · omega
    · have hfield : (e + Format.binary64.exponentBias +
          Format.binary64.mantissaBitsWithoutImplicit).toNat = (e + 1075).toNat := by
        show (e + 1023 + 52).toNat = _
        omega
      show UnpackedFloat.unpack .binary64 (UnpackedFloat.pack .binary64 _) = _
      unfold UnpackedFloat.pack
      dsimp only
      rw [hfield, if_pos (by show 2048 ≤ _; omega)]
      cases s <;> rfl

theorem shiftToTarget_eq {m k : ℕ} {e : ℤ}
    (h : (Format.binary64.targetExponent (totalExponent m e) - e).toNat = k) :
    shiftToTargetExponent .binary64 m e .exact =
      (ExtendedMantissa.ofMantissaAndAccuracy m .exact >>> k, e + k) := by
  subst h
  rfl

/-- Rounding stores the nearest number. -/
theorem stored_round (s : UnpackedFloat.Sign) {m : ℕ} {e : ℤ} {a : Accuracy} {v : ℚ}
    (hv : Locates (.ofMantissaAndAccuracy m a) (v / 2 ^ e))
    (he : e ≤ Format.binary64.targetExponent (totalExponent m e)) :
    ∃ r t, Nearest v r t ∧ Stored s (r * 2 ^ t)
      (Float.Model.pack (roundWithAccuracy .binary64 s m e a)).unpack := by
  have hnearest := nearest_first hv he
  obtain ⟨-, hexponent⟩ := shiftToTarget_le .binary64 m e a
  rw [max_eq_right he] at hexponent
  refine ⟨_, _, hnearest, ?_⟩
  rw [roundWithAccuracy]
  dsimp only
  rw [hexponent]
  generalize (shiftToTargetExponent .binary64 m e a).1.roundedMantissa = r at *
  generalize Format.binary64.targetExponent (totalExponent m e) = t at *
  have hlow := hnearest.low
  have htarget := targetExponent_eq r t
  rcases hnearest.most.lt_or_eq with hlt | rfl
  · have hlog : r.log2 ≤ 52 := log2_le hlt
    rw [shiftToTarget_eq (m := r) (k := 0) (e := t) (by omega), Nat.cast_zero, add_zero]
    show Stored s _ (Float.Model.pack (if h : r = 0 then .zero s else .finite s r t _)).unpack
    rcases Nat.eq_zero_or_pos r with rfl | hr
    · rw [dif_pos rfl, Nat.cast_zero, zero_mul]
      exact stored_zero s
    · rw [dif_neg hr.ne']
      exact stored_finite s hr hlt hlow hnearest.digits
  · have hlog : (2 ^ 53).log2 = 53 := Nat.log2_two_pow
    rw [shiftToTarget_eq (m := 2 ^ 53) (k := 1) (e := t) (by omega)]
    have hhalf : (ExtendedMantissa.ofMantissaAndAccuracy (2 ^ 53) .exact >>> 1).mantissa =
        2 ^ 52 := rfl
    have hsome : 2 ^ 52 ≠ 0 := by decide
    simp only [hhalf, dif_neg hsome]
    have hvalue : ((2 ^ 53 : ℕ) * 2 ^ t : ℚ) = (2 ^ 52 : ℕ) * 2 ^ (t + 1) := by
      rw [zpow_add_one₀ two_ne_zero]
      push_cast
      ring
    rw [hvalue]
    exact stored_finite s (by decide) (by decide) (by omega) (.inl le_rfl)

end Rounding

section Error

def Fits (y : ℚ) : Prop := ∃ (n : ℕ) (e : ℤ), n < 2 ^ 53 ∧ -1074 ≤ e ∧ y = n * 2 ^ e

variable {v y : ℚ} {r : ℕ} {t : ℤ}

theorem fits_zero : Fits 0 := ⟨0, 0, by decide, by decide, by rw [Nat.cast_zero, zero_mul]⟩

theorem fits_two_pow {e : ℤ} (he : -1074 ≤ e) : Fits (2 ^ e) :=
  ⟨1, e, by decide, he, by rw [Nat.cast_one, one_mul]⟩

theorem multiple_of_le {n : ℕ} {e : ℤ} (h : t ≤ e) : ∃ k : ℕ, (n * 2 ^ e : ℚ) = k * 2 ^ t := by
  obtain ⟨k, rfl⟩ := Int.le.dest h
  refine ⟨n * 2 ^ k, ?_⟩
  rw [add_comm, zpow_add₀ two_ne_zero, zpow_natCast]
  push_cast
  ring

/-- Numbers that fit and are not small are whole multiples of the unit. -/
theorem Fits.multiple (h : Fits y) (hy : t = -1074 ∨ 2 ^ (t + 52) ≤ y) :
    ∃ k : ℕ, y = k * 2 ^ t := by
  obtain ⟨n, e, hn, he, rfl⟩ := h
  refine multiple_of_le ?_
  rcases hy with rfl | hy
  · exact he
  · have hlt : (2 ^ (t + 52) : ℚ) < 2 ^ (e + 53) := by
      calc (2 ^ (t + 52) : ℚ)
        _ ≤ n * 2 ^ e := hy
        _ < 2 ^ 53 * 2 ^ e := by
          gcongr
          exact_mod_cast hn
        _ = 2 ^ (e + 53) := by rw [two_pow_mul, add_comm]; rfl
    have := (zpow_lt_zpow_iff_right₀ one_lt_two).mp hlt
    omega

/-- Rounding does not pass a number that fits. -/
theorem Nearest.le (h : Nearest v r t) (hy : Fits y) (hv : v ≤ y) : r * 2 ^ t ≤ y := by
  obtain ⟨k, rfl⟩ := hy.multiple (h.full.imp_right fun hfull => hfull.trans hv)
  have hpos : (0 : ℚ) < 2 ^ t := by positivity
  have hnear := (abs_le.mp h.near).2
  have hlt : (r : ℚ) < (k + 1 : ℕ) := by
    push_cast
    by_contra hle
    have hle := mul_le_mul_of_nonneg_right (not_lt.mp hle) hpos.le
    linarith
  have hle : r ≤ k := Nat.lt_succ_iff.mp (Nat.cast_lt.mp hlt)
  gcongr

/-- It reaches such a number also from less than half the smallest unit below. -/
theorem Nearest.ge (h : Nearest v r t) (hy : Fits y) (hv : y - 2 ^ (-1074 : ℤ) / 2 < v) :
    y ≤ r * 2 ^ t := by
  have hpos : (0 : ℚ) < 2 ^ t := by positivity
  have hnear := (abs_le.mp h.near).1
  have hunit : (2 ^ (-1074 : ℤ) : ℚ) ≤ 2 ^ t := zpow_le_zpow_right₀ one_le_two h.low
  by_cases hsmall : t = -1074 ∨ 2 ^ (t + 52) ≤ y
  · obtain ⟨k, rfl⟩ := hy.multiple hsmall
    have hlt : ((k : ℕ) : ℚ) < (r + 1 : ℕ) := by
      push_cast
      by_contra hle
      have hle := mul_le_mul_of_nonneg_right (not_lt.mp hle) hpos.le
      linarith
    have hle : k ≤ r := Nat.lt_succ_iff.mp (Nat.cast_lt.mp hlt)
    gcongr
  · obtain ⟨hlow, hy⟩ := not_or.mp hsmall
    have hfull := h.digits.resolve_right hlow
    calc y
      _ ≤ 2 ^ (t + 52) := (not_le.mp hy).le
      _ = 2 ^ 52 * 2 ^ t := by rw [two_pow_mul, add_comm]; rfl
      _ ≤ r * 2 ^ t := by
        gcongr
        exact_mod_cast hfull

theorem Nearest.ge_of_le (h : Nearest v r t) (hy : Fits y) (hv : y ≤ v) : y ≤ r * 2 ^ t := by
  have hunit : (0 : ℚ) < 2 ^ (-1074 : ℤ) := by positivity
  exact h.ge hy (by linarith)

theorem half_unit_le (h : 2 ^ (t + 52) ≤ v) : (2 ^ t / 2 : ℚ) ≤ v / 2 ^ 53 := by
  rw [le_div_iff₀ (by positivity)]
  calc (2 ^ t / 2 * 2 ^ 53 : ℚ)
    _ = 2 ^ (t + 52) := by
      rw [zpow_add₀ two_ne_zero]
      norm_num
      ring
    _ ≤ v := h

theorem Nearest.error (h : Nearest v r t) (hv : 0 ≤ v) :
    |r * 2 ^ t - v| ≤ v / 2 ^ 53 + 2 ^ (-1074 : ℤ) / 2 := by
  refine h.near.trans ?_
  rcases h.full with rfl | hfull
  · have : 0 ≤ v / 2 ^ 53 := by positivity
    linarith
  · have hunit : (0 : ℚ) < 2 ^ (-1074 : ℤ) := by positivity
    linarith [half_unit_le hfull]

theorem Nearest.error_of_multiple (h : Nearest v r t) {n : ℕ} (hv : v = n * 2 ^ (-1074 : ℤ)) :
    |r * 2 ^ t - v| ≤ v / 2 ^ 53 := by
  rcases h.full with rfl | hfull
  · have hunit : (0 : ℚ) < 2 ^ (-1074 : ℤ) := by positivity
    have hfits : ∀ k : ℕ, |(k : ℚ) - n| < 1 → k = n := fun k hk => by
      have hk : |((k : ℤ) - n : ℤ)| < 1 := by exact_mod_cast hk
      have := Int.abs_lt_one_iff.mp hk
      omega
    have hr : r = n := hfits r <| by
      have hnear := h.near
      rw [hv, ← sub_mul, abs_mul, abs_of_pos hunit] at hnear
      by_contra hle
      have hle := mul_le_mul_of_nonneg_right (not_lt.mp hle) hunit.le
      linarith
    rw [hr, hv, sub_self, abs_zero]
    positivity
  · exact h.near.trans (half_unit_le hfull)

end Error

end ImpuritySampler.Binary64
