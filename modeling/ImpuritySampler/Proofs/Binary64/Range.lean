import ImpuritySampler.Proofs.Binary64

/-!
# The range of binary floating point

Rounding raises the exponent of a number by no more than its digits, so products of moderate numbers
stay far below the largest one. In particular words are finite, and remain so when they are scaled.
-/

set_option autoImplicit false

namespace ImpuritySampler.Binary64

open Float.Model UnpackedFloat

def Within (bound : ℤ) : UnpackedFloat → Prop
  | .zero _ => True
  | .finite _ _ e _ => e ≤ bound
  | _ => False

variable {bound : ℤ} {u : UnpackedFloat}

theorem Within.isFinite (h : Within bound u) : u.isFinite = true := by
  cases u with
  | zero s => rfl
  | finite s m e hm => rfl
  | infinity s => exact h.elim
  | notANumber => exact h.elim

section Rounding

theorem mantissa_shift_le (x : ExtendedMantissa) (k : ℕ) : (x >>> k).mantissa ≤ x.mantissa := by
  change (Nat.repeat ExtendedMantissa.shiftRightOne k x).mantissa ≤ _
  induction k with
  | zero => exact le_refl _
  | succ k ih => exact (Nat.div_le_self _ 2).trans ih

theorem mantissa_ofAccuracy (m : ℕ) (a : Accuracy) :
    (ExtendedMantissa.ofMantissaAndAccuracy m a).mantissa = m := by
  cases a with
  | exact => rfl
  | inexact o => cases o <;> rfl

theorem roundToNearestEven_le (m : ℕ) (a : Accuracy) : a.roundToNearestEven m ≤ m + 1 := by
  cases a with
  | exact => exact Nat.le_succ m
  | inexact o =>
    cases o with
    | lt => exact Nat.le_succ m
    | eq => exact Nat.add_le_add_left (Nat.le_of_lt_succ (Nat.mod_lt m two_pos)) m
    | gt => exact le_refl _

theorem shiftToTarget_le (spec : Format) (m : ℕ) (e : ℤ) (a : Accuracy) :
    (shiftToTargetExponent spec m e a).1.mantissa ≤ m ∧
      (shiftToTargetExponent spec m e a).2 = max e (spec.targetExponent (totalExponent m e)) := by
  constructor
  · exact (mantissa_shift_le _ _).trans_eq (mantissa_ofAccuracy m a)
  · show e + ((spec.targetExponent (totalExponent m e) - e).toNat : ℤ) = _
    omega

theorem targetExponent_eq (m : ℕ) (e : ℤ) :
    Format.binary64.targetExponent (totalExponent m e) =
      max ((m.log2 : ℤ) + 1 + e - 53) (-1074) := by
  rfl

theorem log2_le {n k : ℕ} (h : n < 2 ^ (k + 1)) : n.log2 ≤ k := by
  rcases Nat.eq_zero_or_pos n with rfl | hn
  · exact Nat.zero_le k
  · exact Nat.lt_succ_iff.mp ((Nat.log2_lt hn.ne').mpr h)

theorem within_round {m : ℕ} {e : ℤ} (s : UnpackedFloat.Sign) (a : Accuracy) (hm : m < 2 ^ 120)
    (he : e ≤ bound) (hb : 0 ≤ bound) :
    Within (bound + 135) (roundWithAccuracy .binary64 s m e a) := by
  obtain ⟨hmantissa, hexponent⟩ := shiftToTarget_le .binary64 m e a
  have hround := roundToNearestEven_le (shiftToTargetExponent .binary64 m e a).1.mantissa
    (shiftToTargetExponent .binary64 m e a).1.accuracy
  obtain ⟨-, hfinal⟩ := shiftToTarget_le .binary64
    (shiftToTargetExponent .binary64 m e a).1.roundedMantissa
    (shiftToTargetExponent .binary64 m e a).2 .exact
  have hlog : m.log2 ≤ 119 := log2_le hm
  have hlog' : (shiftToTargetExponent .binary64 m e a).1.roundedMantissa.log2 ≤ 120 :=
    log2_le ((hround.trans (Nat.succ_le_succ hmantissa)).trans_lt (by omega))
  rw [targetExponent_eq] at hexponent hfinal
  unfold roundWithAccuracy
  dsimp only
  split_ifs
  · trivial
  · show (shiftToTargetExponent .binary64 _ _ _).2 ≤ bound + 135
    omega

end Rounding

section Packing

variable {b : BitVec Format.binary64.numBits}

theorem isFinite_unpack : (unpack .binary64 b).isFinite = true ↔ unpackExponent b ≠ -1#11 := by
  unfold UnpackedFloat.unpack
  dsimp only
  split_ifs <;> simp_all [UnpackedFloat.isFinite]

theorem mantissa_lt {s : UnpackedFloat.Sign} {m : ℕ} {e : ℤ} {hm : 0 < m}
    (h : unpack .binary64 b = .finite s m e hm) : m < 2 ^ 53 := by
  have hmantissa : (unpackMantissa b).toNat < 2 ^ 52 := (unpackMantissa b).isLt
  unfold UnpackedFloat.unpack at h
  dsimp only at h
  split_ifs at h
  · injection h with _ hm'
    rw [← hm']
    omega
  · injection h with _ hm'
    rw [← hm']
    exact (1#1 ++ unpackMantissa b).isLt

theorem within_components (s : UnpackedFloat.Sign) {e : ℕ}
    (m : BitVec Format.binary64.mantissaBitsWithoutImplicit) (he : e < 2047)
    (hbound : (e : ℤ) - 1075 ≤ bound) (h0 : 0 ≤ bound) :
    Within bound (unpack .binary64 (packComponents .binary64 s (BitVec.ofNat 11 e) m)) := by
  have hfield : (BitVec.ofNat 11 e).toNat = e := by
    rw [BitVec.toNat_ofNat, Nat.mod_eq_of_lt (by omega)]
  have hlast : BitVec.ofNat 11 e ≠ -1#11 := by
    intro h
    rw [h] at hfield
    exact he.ne hfield.symm
  unfold UnpackedFloat.unpack
  simp only [unpackSign_packComponents, unpackExponent_packComponents,
    unpackMantissa_packComponents]
  rw [if_neg hlast]
  split_ifs with hzero hnone
  · trivial
  · show ((BitVec.ofNat 11 e).toNat : ℤ) - 1075 + 1 ≤ bound
    rw [hzero]
    exact le_trans (by decide) h0
  · show ((BitVec.ofNat 11 e).toNat : ℤ) - 1075 ≤ bound
    rwa [hfield]

/-- A number of moderate size is still of this size after it has been stored. -/
theorem within_pack (h : Within bound u) (h0 : 0 ≤ bound) (h1 : bound ≤ 971) :
    Within bound (Float.Model.pack u).unpack := by
  show Within bound (UnpackedFloat.unpack .binary64 (UnpackedFloat.pack .binary64 u))
  cases u with
  | infinity s => exact h.elim
  | notANumber => exact h.elim
  | zero s => exact within_components s 0 (by decide) (by push_cast; omega) h0
  | finite s m e hm =>
    have he : e ≤ bound := h
    have hfield : (e + Format.binary64.exponentBias +
        Format.binary64.mantissaBitsWithoutImplicit).toNat = (e + 1075).toNat := by
      show (e + 1023 + 52).toNat = _
      omega
    unfold UnpackedFloat.pack
    dsimp only
    rw [hfield, if_neg (by show ¬2048 ≤ _; omega)]
    split_ifs
    · exact within_components s _ (by omega) (by omega) h0
    · exact within_components s _ (e := 0) (by decide) (by push_cast; omega) h0

end Packing

section Words

theorem within_ofNat {n : ℕ} (h : n < 2 ^ 64) : Within 135 (UnpackedFloat.ofNat .binary64 n) := by
  rw [UnpackedFloat.ofNat, UnpackedFloat.ofInt, UnpackedFloat.normalize]
  cases hn : compare (n : ℤ) 0 with
  | lt => exact absurd (compare_lt_iff_lt.mp hn) (by omega)
  | eq => trivial
  | gt =>
    unfold UnpackedFloat.round decreaseExponent
    dsimp only
    rw [targetExponent_eq, Int.toNat_natCast]
    generalize hshift : (0 - max ((n.log2 : ℤ) + 1 + 0 - 53) (-1074)).toNat = shift
    have hle : shift ≤ 52 := by omega
    refine within_round _ _ ?_ (by omega) (le_refl 0)
    rw [Nat.shiftLeft_eq]
    calc n * 2 ^ shift < 2 ^ 64 * 2 ^ shift := Nat.mul_lt_mul_of_pos_right h (Nat.two_pow_pos _)
      _ ≤ 2 ^ 64 * 2 ^ 52 := Nat.mul_le_mul_left _ (Nat.pow_le_pow_right (by decide) hle)
      _ ≤ 2 ^ 120 := by decide

theorem within_word (w : UInt64) : Within 135 w.toFloat.toModel.unpack :=
  within_pack (within_ofNat w.toNat_lt) (by decide) (by decide)

theorem isFinite_mul {x y : Float} (hx : Within 135 x.toModel.unpack)
    (hy : Within 0 y.toModel.unpack) : (x * y).isFinite = true := by
  suffices h : Within 270 (x * y).toModel.unpack from h.isFinite
  rw [unpack_mul]
  apply within_pack _ (by decide) (by decide)
  cases hxu : x.toModel.unpack with
  | infinity s => exact (hxu ▸ hx : Within 135 (.infinity s)).elim
  | notANumber => exact (hxu ▸ hx : Within 135 .notANumber).elim
  | zero s =>
    cases hyu : y.toModel.unpack with
    | infinity t => exact (hyu ▸ hy : Within 0 (.infinity t)).elim
    | notANumber => exact (hyu ▸ hy : Within 0 .notANumber).elim
    | zero t => trivial
    | finite t m e hm => trivial
  | finite s m e hm =>
    cases hyu : y.toModel.unpack with
    | infinity t => exact (hyu ▸ hy : Within 0 (.infinity t)).elim
    | notANumber => exact (hyu ▸ hy : Within 0 .notANumber).elim
    | zero t => trivial
    | finite t m' e' hm' =>
      have he : e ≤ 135 := (hxu ▸ hx : Within 135 (.finite s m e hm))
      have he' : e' ≤ 0 := (hyu ▸ hy : Within 0 (.finite t m' e' hm'))
      have hmantissa : m * m' < 2 ^ 120 :=
        (Nat.mul_lt_mul'' (mantissa_lt hxu) (mantissa_lt hyu)).trans (by decide)
      have hsum : e + e' ≤ 135 := by omega
      exact within_round _ _ hmantissa hsum (by decide)

end Words

end ImpuritySampler.Binary64
