import Mathlib
import ImpuritySampler.Decimal.Shortest

/-!
# Decimal digits of positive values

The magnitude of a positive value is the place of its first digit, and the digits that are found for
it are never all zero.
-/

set_option autoImplicit false

namespace ImpuritySampler.Decimal

theorem lt_pow_digitCount (n : ℕ) : n < 10 ^ digitCount n :=
  (Nat.length_toDigits_le_iff (by decide) Nat.length_toDigits_pos).mp (le_refl _)

theorem pow_digitCount_le {n : ℕ} (h : 0 < n) : 10 ^ (digitCount n - 1) ≤ n := by
  by_contra hlt
  rw [not_le] at hlt
  rcases Nat.eq_zero_or_pos (digitCount n - 1) with hzero | hpos
  · rw [hzero, pow_zero] at hlt
    omega
  · have hlength : digitCount n ≤ digitCount n - 1 :=
      (Nat.length_toDigits_le_iff (by decide) hpos).mpr hlt
    omega

namespace Quotient

variable {mantissa : ℕ} {exponent scale : ℤ}

theorem scaled_num (mantissa : ℕ) (exponent scale : ℤ) : (scaled mantissa exponent scale).num =
    (scaled mantissa exponent 0).num * 10 ^ (-scale).toNat := by
  simp [scaled]

theorem scaled_den (mantissa : ℕ) (exponent scale : ℤ) : (scaled mantissa exponent scale).den =
    (scaled mantissa exponent 0).den * 10 ^ scale.toNat := by
  simp [scaled]

theorem scaled_num_pos (h : 0 < mantissa) : 0 < (scaled mantissa exponent scale).num := by
  simp [scaled, h]

theorem scaled_den_pos : 0 < (scaled mantissa exponent scale).den := by
  simp [scaled]

theorem den_le_num (h : 0 < mantissa)
    (hscale : scale < (scaled mantissa exponent 0).magnitude) :
    (scaled mantissa exponent scale).den ≤ (scaled mantissa exponent scale).num := by
  have hnum : 0 < (scaled mantissa exponent 0).num := scaled_num_pos h
  have hden : 0 < (scaled mantissa exponent 0).den := scaled_den_pos
  rw [scaled_num, scaled_den]
  generalize (scaled mantissa exponent 0) = q at *
  rw [magnitude] at hscale
  split_ifs at hscale with hle
  · have hdigits := pow_digitCount_le (Nat.div_pos hle hden)
    rcases le_or_gt 0 scale with hs | hs
    · have hexp : scale.toNat ≤ digitCount (q.num / q.den) - 1 := by omega
      rw [Int.toNat_of_nonpos (neg_nonpos.mpr hs), pow_zero, mul_one]
      calc q.den * 10 ^ scale.toNat ≤ q.den * (q.num / q.den) :=
            Nat.mul_le_mul_left _ ((Nat.pow_le_pow_right (by decide) hexp).trans hdigits)
        _ ≤ q.num := Nat.mul_div_le _ _
    · rw [Int.toNat_of_nonpos hs.le, pow_zero, mul_one]
      exact hle.trans (Nat.le_mul_of_pos_right _ (Nat.pow_pos (by decide)))
  · have hdigits := lt_pow_digitCount ((q.den - 1) / q.num)
    have hbelow : q.den ≤ q.num * 10 ^ digitCount ((q.den - 1) / q.num) := by
      have hlt := (Nat.div_lt_iff_lt_mul hnum).mp hdigits
      rw [mul_comm]
      omega
    have hexp : digitCount ((q.den - 1) / q.num) ≤ (-scale).toNat := by omega
    have hs : scale ≤ 0 := by omega
    rw [Int.toNat_of_nonpos hs, pow_zero, mul_one]
    exact hbelow.trans (Nat.mul_le_mul_left _ (Nat.pow_le_pow_right (by decide) hexp))

theorem div_le_nearest (tie : Tie) (q : Quotient) : q.num / q.den ≤ q.nearest tie := by
  unfold nearest
  dsimp only
  split_ifs
  · exact le_refl _
  · exact Nat.le_succ _
  · cases tie with
    | up => exact Nat.le_succ _
    | even => exact Nat.le_add_right _ _

end Quotient

variable {tie : Tie} {mantissa : ℕ} {exponent scale magnitude : ℤ}

theorem not_readsBack_zero (h : 0 < mantissa) : ¬readsBack mantissa exponent scale 0 = true := by
  have hlow : ∀ below ≤ 2,
      0 < (Quotient.scaled (4 * mantissa - below) (exponent - 2) scale).num :=
    fun below hb => Quotient.scaled_num_pos (by omega)
  have hbelow : (if mantissa = hiddenBit ∧ exponent ≠ -1074 then 1 else 2) ≤ 2 := by
    split_ifs <;> omega
  rw [readsBack]
  generalize (if mantissa = hiddenBit ∧ exponent ≠ -1074 then 1 else 2) = below at hbelow ⊢
  simp only [zero_mul]
  split_ifs
  · exact fun hr => (hlow below hbelow).not_ge (of_decide_eq_true hr).1
  · exact fun hr => absurd (of_decide_eq_true hr).1 (Nat.not_lt_zero _)

theorem pos_of_readsBack {n : ℕ} (h : 0 < mantissa)
    (hn : readsBack mantissa exponent scale n = true) : 0 < n := by
  refine Nat.pos_of_ne_zero ?_
  rintro rfl
  exact not_readsBack_zero h hn

theorem hit?_pos {n : ℕ} (h : 0 < mantissa) (hn : hit? tie mantissa exponent scale = some n) :
    0 < n := by
  rw [hit?] at hn
  split_ifs at hn with hboth hlower hupper
  · rw [← Option.some.inj hn]
    exact (pos_of_readsBack h ((Bool.and_eq_true _ _).mp hboth).1).trans_le
      (Quotient.div_le_nearest _ _)
  · exact Option.some.inj hn ▸ pos_of_readsBack h hlower
  · exact Option.some.inj hn ▸ pos_of_readsBack h hupper

theorem shortestFrom_pos {fuel count : ℕ} (h : 0 < mantissa)
    (hmagnitude : magnitude - ((count + fuel : ℕ) : ℤ) <
      (Quotient.scaled mantissa exponent 0).magnitude) :
    0 < (shortestFrom tie mantissa exponent magnitude fuel count).value := by
  induction fuel generalizing count with
  | zero =>
    have hle := Quotient.den_le_num h hmagnitude
    exact (Nat.div_pos hle Quotient.scaled_den_pos).trans_le (Quotient.div_le_nearest _ _)
  | succ fuel ih =>
    rw [shortestFrom]
    split
    · exact hit?_pos h ‹_›
    · exact ih (by push_cast at hmagnitude ⊢; omega)

theorem shortest_pos (tie : Tie) (exponent : ℤ) (h : 0 < mantissa) :
    0 < (shortest tie mantissa exponent).value := by
  have hfrom : 0 < (shortestFrom tie mantissa exponent
      (Quotient.scaled mantissa exponent 0).magnitude 16 1).value :=
    shortestFrom_pos h (by omega)
  rw [shortest]
  split_ifs
  · exact Nat.one_pos
  · exact hfrom

end ImpuritySampler.Decimal
