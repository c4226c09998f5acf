import ImpuritySampler.Proofs.Binary64.Range

/-!
# Values of stored numbers

A number that is neither infinite nor undefined is stored with an exponent that is as small as its
digits allow. Its value is a rational number, and the order of the numbers is that of their values.
-/

set_option autoImplicit false

namespace ImpuritySampler.Binary64

open Float.Model UnpackedFloat

section Storing

/-- Digits and exponent of a number in the form in which it is stored. -/
structure Canonical (m : ℕ) (e : ℤ) : Prop where
  lt : m < 2 ^ 53
  low : -1074 ≤ e
  high : e ≤ 971
  full : 2 ^ 52 ≤ m ∨ e = -1074

def signed (s : UnpackedFloat.Sign) (v : ℚ) : ℚ :=
  match s with
  | .positive => v
  | .negative => -v

def Holds : UnpackedFloat → ℚ → Prop
  | .zero _, v => v = 0
  | .finite s m e _, v => Canonical m e ∧ v = signed s (m * 2 ^ e)
  | _, _ => False

theorem finite_congr {s : UnpackedFloat.Sign} {m n : ℕ} {d e : ℤ} {hm : 0 < m} {hn : 0 < n}
    (hmn : m = n) (hde : d = e) : UnpackedFloat.finite s m d hm = .finite s n e hn := by
  subst hmn hde
  rfl

theorem unpack_pack_canonical {s : UnpackedFloat.Sign} {m : ℕ} {e : ℤ} (hm : 0 < m)
    (h : Canonical m e) : (Float.Model.pack (.finite s m e hm)).unpack = .finite s m e hm := by
  show UnpackedFloat.unpack .binary64 (UnpackedFloat.pack .binary64 _) = _
  have hlt := h.lt
  have hlow := h.low
  have hhigh := h.high
  have hfield : (e + Format.binary64.exponentBias +
      Format.binary64.mantissaBitsWithoutImplicit).toNat = (e + 1075).toNat := by
    show (e + 1023 + 52).toNat = _
    omega
  unfold UnpackedFloat.pack
  dsimp only
  rw [hfield, if_neg (by show ¬2048 ≤ _; omega)]
  by_cases hnormal : 2 ^ 52 ≤ m
  · have hlog : m.log2 = 52 := (Nat.log2_eq_iff hm.ne').mpr ⟨hnormal, hlt⟩
    rw [if_pos (by rw [hlog]; rfl)]
    have hexponent : (BitVec.ofNat 11 (e + 1075).toNat).toNat = (e + 1075).toNat := by
      rw [BitVec.toNat_ofNat, Nat.mod_eq_of_lt (by omega)]
    have hfirst : BitVec.ofNat 11 (e + 1075).toNat ≠ 0#11 := fun h0 => by
      rw [h0] at hexponent
      simp at hexponent
      omega
    have hlast : BitVec.ofNat 11 (e + 1075).toNat ≠ -1#11 := fun h0 => by
      rw [h0] at hexponent
      have : (-1#11 : BitVec 11).toNat = 2047 := rfl
      omega
    have hdigits : (1#1 ++ BitVec.ofNat 52 m).toNat = m := by
      have hrest : (BitVec.ofNat 52 m).toNat = m - 2 ^ 52 := by
        rw [BitVec.toNat_ofNat]
        omega
      rw [BitVec.toNat_append, hrest, Nat.shiftLeft_eq, Nat.mul_comm,
        ← Nat.two_pow_add_eq_or_of_lt (by omega)]
      show 2 ^ 52 * 1 + (m - 2 ^ 52) = m
      omega
    unfold UnpackedFloat.unpack
    simp only [unpackSign_packComponents, unpackExponent_packComponents,
      unpackMantissa_packComponents, Sign.ofBitVec_toBitVec]
    rw [if_neg hlast, if_neg hfirst]
    refine finite_congr hdigits ?_
    rw [hexponent]
    show ((e + 1075).toNat : ℤ) - 1075 = e
    omega
  · have hsub : e = -1074 := h.full.resolve_left hnormal
    have hlog : m.log2 + 1 ≠ Format.binary64.mantissaBits := by
      have : m.log2 < 52 := (Nat.log2_lt hm.ne').mpr (not_le.mp hnormal)
      show m.log2 + 1 ≠ 53
      omega
    have hdigits : (BitVec.ofNat 52 m).toNat = m := by
      rw [BitVec.toNat_ofNat, Nat.mod_eq_of_lt (not_le.mp hnormal)]
    have hsome : BitVec.ofNat 52 m ≠ 0#52 := fun h0 => by
      rw [h0] at hdigits
      exact hm.ne hdigits
    rw [if_neg hlog]
    unfold UnpackedFloat.unpack
    simp only [unpackSign_packComponents, unpackExponent_packComponents,
      unpackMantissa_packComponents, Sign.ofBitVec_toBitVec]
    rw [if_neg (by decide), if_pos trivial, dif_neg hsome]
    refine finite_congr hdigits ?_
    rw [hsub]
    rfl

theorem holds_unpack (b : BitVec Format.binary64.numBits) :
    UnpackedFloat.unpack .binary64 b = .notANumber ∨
      (∃ s, UnpackedFloat.unpack .binary64 b = .infinity s) ∨
      ∃ v, Holds (UnpackedFloat.unpack .binary64 b) v := by
  have hexponent : (unpackExponent b).toNat < 2 ^ 11 := (unpackExponent b).isLt
  have hmantissa : (unpackMantissa b).toNat < 2 ^ 52 := (unpackMantissa b).isLt
  unfold UnpackedFloat.unpack
  dsimp only
  split_ifs with hlast hnone hfirst hzero
  · exact .inr (.inl ⟨_, rfl⟩)
  · exact .inl rfl
  · exact .inr (.inr ⟨0, rfl⟩)
  · refine .inr (.inr ⟨_, ⟨by omega, ?_, ?_, .inr ?_⟩, rfl⟩)
    all_goals
      rw [hfirst]
      decide
  · have hlow : 0 < (unpackExponent b).toNat :=
      Nat.pos_of_ne_zero fun h => hfirst (BitVec.eq_of_toNat_eq h)
    have hhigh : (unpackExponent b).toNat ≠ 2047 := fun h => hlast (BitVec.eq_of_toNat_eq h)
    have hbias : (Format.binary64.exponentBias +
        Format.binary64.mantissaBitsWithoutImplicit : ℤ) = 1075 := rfl
    have hdigits : (1#1 ++ unpackMantissa b).toNat = 2 ^ 52 + (unpackMantissa b).toNat := by
      rw [BitVec.toNat_append, Nat.shiftLeft_eq, Nat.mul_comm,
        ← Nat.two_pow_add_eq_or_of_lt hmantissa]
      rfl
    refine .inr (.inr ⟨_, ⟨?_, ?_, ?_, .inl ?_⟩, rfl⟩)
    · rw [hdigits]
      omega
    · rw [hbias]
      omega
    · rw [hbias]
      omega
    · rw [hdigits]
      exact Nat.le_add_right _ _

theorem two_pow_mul (k : ℕ) (e : ℤ) : (2 ^ k * 2 ^ e : ℚ) = 2 ^ (k + e) := by
  rw [zpow_add₀ two_ne_zero, zpow_natCast]

theorem Canonical.lt_limit {m : ℕ} {e : ℤ} (h : Canonical m e) : (m * 2 ^ e : ℚ) < 2 ^ (1024 : ℤ) :=
  calc (m * 2 ^ e : ℚ)
    _ < 2 ^ 53 * 2 ^ e := by
      gcongr
      exact_mod_cast h.lt
    _ ≤ 2 ^ 53 * 2 ^ (971 : ℤ) := by
      gcongr
      · exact one_le_two
      · exact h.high
    _ = 2 ^ (1024 : ℤ) := two_pow_mul 53 971

end Storing

section Order

variable {u w : UnpackedFloat} {v y : ℚ}

theorem Canonical.lt_of_exponent_lt {m n : ℕ} {d e : ℤ} (hm : Canonical m d) (hn : Canonical n e)
    (h : d < e) : (m * 2 ^ d : ℚ) < n * 2 ^ e := by
  have hfull : 2 ^ 52 ≤ n := hn.full.resolve_right fun he => by
    have := hm.low
    omega
  calc (m * 2 ^ d : ℚ)
    _ < 2 ^ 53 * 2 ^ d := by
      have := hm.lt
      gcongr
      exact_mod_cast this
    _ = 2 ^ 52 * 2 ^ (d + 1) := by
      rw [zpow_add_one₀ two_ne_zero]
      ring
    _ ≤ n * 2 ^ e := by
      gcongr
      · exact_mod_cast hfull
      · exact one_le_two
      · omega

/-- Of two stored numbers, the one with the larger exponent is larger. -/
theorem Canonical.compare_eq {m n : ℕ} {d e : ℤ} (hm : Canonical m d) (hn : Canonical n e) :
    (compare d e).then (compare m n) = compare (m * 2 ^ d : ℚ) (n * 2 ^ e) := by
  have hpos : (0 : ℚ) < 2 ^ e := by positivity
  rcases lt_trichotomy d e with h | rfl | h
  · rw [compare_lt_iff_lt.mpr h, compare_lt_iff_lt.mpr (hm.lt_of_exponent_lt hn h)]
    rfl
  · rw [compare_eq_iff_eq.mpr rfl, Ordering.then]
    rcases lt_trichotomy m n with h | rfl | h
    · rw [compare_lt_iff_lt.mpr h, eq_comm, compare_lt_iff_lt]
      gcongr
    · rw [compare_eq_iff_eq.mpr rfl, compare_eq_iff_eq.mpr rfl]
    · rw [compare_gt_iff_gt.mpr h, eq_comm, compare_gt_iff_gt]
      gcongr
  · rw [compare_gt_iff_gt.mpr h, compare_gt_iff_gt.mpr (hn.lt_of_exponent_lt hm h)]
    rfl

theorem Holds.compare (hu : Holds u v) (hw : Holds w y) :
    u.compare w = some (compare v y) := by
  cases u with
  | infinity s => exact hu.elim
  | notANumber => exact hu.elim
  | zero s =>
    obtain rfl : v = 0 := hu
    cases w with
    | infinity t => exact hw.elim
    | notANumber => exact hw.elim
    | zero t =>
      obtain rfl : y = 0 := hw
      rw [compare_eq_iff_eq.mpr rfl]
      rfl
    | finite t n e hn =>
      obtain ⟨hc, rfl⟩ := hw
      have hpos : (0 : ℚ) < n * 2 ^ e := by positivity
      cases t with
      | positive => exact congrArg some (compare_lt_iff_lt.mpr hpos).symm
      | negative => exact congrArg some (compare_gt_iff_gt.mpr (neg_neg_of_pos hpos)).symm
  | finite s m d hm =>
    obtain ⟨hc, rfl⟩ := hu
    have hpos : (0 : ℚ) < m * 2 ^ d := by positivity
    cases w with
    | infinity t => exact hw.elim
    | notANumber => exact hw.elim
    | zero t =>
      obtain rfl : y = 0 := hw
      cases s with
      | positive => exact congrArg some (compare_gt_iff_gt.mpr hpos).symm
      | negative => exact congrArg some (compare_lt_iff_lt.mpr (neg_neg_of_pos hpos)).symm
    | finite t n e hn =>
      obtain ⟨hc', rfl⟩ := hw
      have hpos' : (0 : ℚ) < n * 2 ^ e := by positivity
      cases s with
      | positive =>
        cases t with
        | positive => exact congrArg some (hc.compare_eq hc')
        | negative =>
          exact congrArg some (compare_gt_iff_gt.mpr ((neg_neg_of_pos hpos').trans hpos)).symm
      | negative =>
        cases t with
        | positive =>
          exact congrArg some (compare_lt_iff_lt.mpr ((neg_neg_of_pos hpos).trans hpos')).symm
        | negative =>
          refine congrArg some ?_
          rw [hc.compare_eq hc', signed, signed]
          rcases lt_trichotomy (m * 2 ^ d : ℚ) (n * 2 ^ e) with h | h | h
          · rw [compare_lt_iff_lt.mpr h, compare_gt_iff_gt.mpr (neg_lt_neg h)]
            rfl
          · rw [compare_eq_iff_eq.mpr h, compare_eq_iff_eq.mpr (congrArg Neg.neg h)]
            rfl
          · rw [compare_gt_iff_gt.mpr h, compare_lt_iff_lt.mpr (neg_lt_neg h)]
            rfl

end Order

section Values

variable {x y : Float} {v w : ℚ}

def HasValue (x : Float) (v : ℚ) : Prop := Holds x.toModel.unpack v

theorem HasValue.lt_iff (hx : HasValue x v) (hy : HasValue y w) : x < y ↔ v < w := by
  rw [Binary64.lt_iff, Holds.compare hx hy, Option.some_inj, compare_lt_iff_lt]

theorem HasValue.le_iff (hx : HasValue x v) (hy : HasValue y w) : x ≤ y ↔ v ≤ w := by
  rw [Binary64.le_iff, Holds.compare hx hy, ← compare_le_iff_le]
  exact Ordering.isLE_iff_ne_gt

theorem value_cases (x : Float) : IsUndefined x ∨ (∃ s, x.toModel.unpack = .infinity s) ∨
    ∃ v, HasValue x v := holds_unpack _

theorem Holds.cases {u : UnpackedFloat} (h : Holds u v) : ((∃ s, u = .zero s) ∧ v = 0) ∨
    ∃ s m e, ∃ hm : 0 < m, u = .finite s m e hm ∧ Canonical m e ∧ v = signed s (m * 2 ^ e) := by
  cases u with
  | infinity s => exact h.elim
  | notANumber => exact h.elim
  | zero s => exact .inl ⟨⟨s, rfl⟩, h⟩
  | finite s m e hm => exact .inr ⟨s, m, e, hm, rfl, h⟩

theorem HasValue.cases (h : HasValue x v) : (IsZero x ∧ v = 0) ∨
    ∃ s m e, ∃ hm : 0 < m, x.toModel.unpack = .finite s m e hm ∧ Canonical m e ∧
      v = signed s (m * 2 ^ e) := Holds.cases h

theorem HasValue.isFinite (h : HasValue x v) : Scalar.isFinite x = true := by
  rw [isFinite_iff]
  rcases h.cases with ⟨⟨s, hs⟩, -⟩ | ⟨s, m, e, hm, hs, -⟩ <;> rw [hs] <;> rfl

theorem HasValue.cases_of_nonneg (h : HasValue x v) (hv : 0 ≤ v) : (IsZero x ∧ v = 0) ∨
    ∃ m e, ∃ hm : 0 < m, x.toModel.unpack = .finite .positive m e hm ∧ Canonical m e ∧
      v = m * 2 ^ e := by
  rcases h.cases with hzero | ⟨s, m, e, hm, hx, hc, rfl⟩
  · exact .inl hzero
  cases s with
  | positive => exact .inr ⟨m, e, hm, hx, hc, rfl⟩
  | negative =>
    have hpos : (0 : ℚ) < m * 2 ^ e := by positivity
    exact absurd (neg_nonneg.mp hv) (not_le.mpr hpos)

theorem IsZero.hasValue (h : IsZero x) : HasValue x 0 := by
  obtain ⟨s, h⟩ := h
  rw [HasValue, h]
  rfl

theorem HasValue.lt_limit (h : HasValue x v) : v < 2 ^ (1024 : ℤ) := by
  have hlimit : (0 : ℚ) < 2 ^ (1024 : ℤ) := by positivity
  rcases h.cases with ⟨-, rfl⟩ | ⟨s, m, e, hm, -, hc, rfl⟩
  · exact hlimit
  cases s with
  | positive => exact hc.lt_limit
  | negative =>
    have hpos : (0 : ℚ) < m * 2 ^ e := by positivity
    exact (neg_neg_of_pos hpos).trans hlimit

theorem HasValue.lt_infinite (hy : HasValue y w) (hx : x.toModel.unpack = .infinity .positive) :
    y < x := by
  rw [Binary64.lt_iff, hx]
  rcases hy.cases with ⟨⟨s, hs⟩, -⟩ | ⟨s, m, e, hm, hs, -⟩
  · rw [hs]
    rfl
  · rw [hs]
    cases s <;> rfl

theorem HasValue.le_infinite (hy : HasValue y w) (hx : x.toModel.unpack = .infinity .positive) :
    y ≤ x := by
  have hlt := Binary64.lt_iff.mp (hy.lt_infinite hx)
  rw [Binary64.le_iff, hlt]
  rfl

theorem HasValue.neg (h : HasValue x v) : HasValue (-x) (-v) := by
  rw [HasValue, unpack_neg]
  rcases h.cases with ⟨⟨s, hs⟩, rfl⟩ | ⟨s, m, e, hm, hs, hc, rfl⟩ <;> rw [hs]
  · exact neg_zero
  · refine ⟨hc, ?_⟩
    cases s with
    | positive => rfl
    | negative => exact neg_neg _

theorem exists_value (h : Scalar.isFinite x = true) : ∃ v, HasValue x v := by
  rcases value_cases x with hx | ⟨s, hx⟩ | hx
  · exact absurd h hx.not_isFinite
  · rw [isFinite_iff, hx] at h
    cases h
  · exact hx

theorem exists_pos_value (h : Scalar.isFinite x = true) (hpos : 0 < x) :
    ∃ v, HasValue x v ∧ 0 < v := by
  obtain ⟨v, hv⟩ := exists_value h
  exact ⟨v, hv, (isZero_zero.hasValue.lt_iff hv).mp hpos⟩

theorem HasValue.of_le (hy : HasValue y w) (hlow : 0 ≤ x) (hhigh : x ≤ y) :
    ∃ v, HasValue x v ∧ 0 ≤ v ∧ v ≤ w := by
  rcases value_cases x with hx | ⟨s, hx⟩ | ⟨v, hx⟩
  · rw [Binary64.le_iff, hx] at hhigh
    cases hhigh
  · rw [Binary64.le_iff, hx] at hlow hhigh
    cases s with
    | positive => rcases hy.cases with ⟨⟨s, hs⟩, -⟩ | ⟨s, m, e, hm, hs, -⟩ <;> rw [hs] at hhigh <;>
        cases hhigh
    | negative => cases hlow
  · exact ⟨v, hx, (isZero_zero.hasValue.le_iff hx).mp hlow, (hx.le_iff hy).mp hhigh⟩

end Values

end ImpuritySampler.Binary64
