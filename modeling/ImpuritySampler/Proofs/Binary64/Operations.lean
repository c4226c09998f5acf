import ImpuritySampler.Proofs.Binary64.Rounding

/-!
# Rounded operations

Products, quotients and distances of numbers are the exact ones, rounded, and so are the numbers of
words.
-/

set_option autoImplicit false

namespace ImpuritySampler.Binary64

open Float.Model UnpackedFloat

variable {x y : Float} {v w : ℚ}

section Results

/-- The number is one nearest to `v`, which is not negative, or infinite if that is too large. -/
def Rounds (x : Float) (v : ℚ) : Prop :=
  ∃ r t, Nearest v r t ∧ Stored .positive (r * 2 ^ t) x.toModel.unpack

theorem nearest_zero : Nearest 0 0 (-1074) where
  low := le_rfl
  most := Nat.zero_le _
  near := by
    rw [Nat.cast_zero, zero_mul, sub_zero, abs_zero]
    positivity
  full := .inl rfl

theorem HasValue.rounds_zero (h : HasValue x 0) : Rounds x 0 := by
  refine ⟨0, -1074, nearest_zero, .inl ?_⟩
  rw [Nat.cast_zero, zero_mul]
  exact ⟨by positivity, h⟩

theorem HasValue.fits (h : HasValue x v) (hv : 0 ≤ v) : Fits v := by
  rcases h.cases_of_nonneg hv with ⟨-, rfl⟩ | ⟨m, e, -, -, hc, rfl⟩
  · exact fits_zero
  · exact ⟨m, e, hc.lt, hc.low, rfl⟩

theorem HasValue.multiple (h : HasValue x v) : ∃ n : ℤ, v = n * 2 ^ (-1074 : ℤ) := by
  rcases le_total 0 v with hv | hv
  · obtain ⟨n, hn⟩ := (h.fits hv).multiple (.inl rfl)
    exact ⟨n, by rw [hn, Int.cast_natCast]⟩
  · obtain ⟨n, hn⟩ := (h.neg.fits (neg_nonneg.mpr hv)).multiple (.inl rfl)
    exact ⟨-n, by rw [Int.cast_neg, Int.cast_natCast, neg_mul, ← hn, neg_neg]⟩

theorem HasValue.units (hx : HasValue x v) (hy : HasValue y w) (hlt : w < v) :
    ∃ n : ℕ, 1 ≤ n ∧ v - w = n * 2 ^ (-1074 : ℤ) := by
  obtain ⟨m, rfl⟩ := hx.multiple
  obtain ⟨n, rfl⟩ := hy.multiple
  have hunit : (0 : ℚ) < 2 ^ (-1074 : ℤ) := by positivity
  have hless : n < m := Int.cast_lt.mp (lt_of_mul_lt_mul_right hlt hunit.le)
  refine ⟨(m - n).toNat, by omega, ?_⟩
  have hcast : (((m - n).toNat : ℤ) : ℚ) = m - n := by
    rw [Int.toNat_of_nonneg (by omega), Int.cast_sub]
  rw [← sub_mul, ← hcast, Int.cast_natCast]

theorem Rounds.le (h : Rounds x v) (hw : Fits w) (hlimit : w < 2 ^ (1024 : ℤ)) (hv : v ≤ w) :
    ∃ r t, Nearest v r t ∧ HasValue x (r * 2 ^ t) ∧ r * 2 ^ t ≤ w := by
  obtain ⟨r, t, hnearest, hx⟩ := h
  have hle := hnearest.le hw hv
  rcases hx with ⟨-, hx⟩ | ⟨hlarge, -⟩
  · exact ⟨r, t, hnearest, hx, hle⟩
  · exact absurd (hlarge.trans hle) (not_le.mpr hlimit)

theorem Rounds.ge (h : Rounds x v) (hy : HasValue y w) (hw : 0 ≤ w)
    (hv : w - 2 ^ (-1074 : ℤ) / 2 < v) : y ≤ x := by
  obtain ⟨r, t, hnearest, ⟨-, hx⟩ | ⟨-, hx⟩⟩ := h
  · exact (hy.le_iff hx).mpr (hnearest.ge (hy.fits hw) hv)
  · exact hy.le_infinite hx

theorem Rounds.pos (h : Rounds x v) (hv : 2 ^ (-1074 : ℤ) / 2 < v) : 0 < x := by
  have hunit : (0 : ℚ) < 2 ^ (-1074 : ℤ) := by positivity
  have hzero : HasValue 0 0 := isZero_zero.hasValue
  obtain ⟨r, t, hnearest, ⟨-, hx⟩ | ⟨-, hx⟩⟩ := h
  · have hge := hnearest.ge (fits_two_pow le_rfl) (by linarith)
    exact (hzero.lt_iff hx).mpr (hunit.trans_le hge)
  · exact hzero.lt_infinite hx

theorem Rounds.of_not_lt (h : Rounds x v) (hy : HasValue y w) (hle : ¬y < x) :
    ∃ r t, Nearest v r t ∧ r * 2 ^ t ≤ w := by
  obtain ⟨r, t, hnearest, ⟨-, hx⟩ | ⟨-, hx⟩⟩ := h
  · exact ⟨r, t, hnearest, not_lt.mp fun h => hle ((hy.lt_iff hx).mpr h)⟩
  · exact absurd (hy.lt_infinite hx) hle

end Results

section Operations

theorem exponent_le_target {m : ℕ} {e : ℤ} (h : 2 ^ 52 ≤ m ∨ e ≤ -1074) :
    e ≤ Format.binary64.targetExponent (totalExponent m e) := by
  rw [targetExponent_eq]
  rcases h with h | h
  · have hlog : 52 ≤ m.log2 := (Nat.le_log2 (by omega)).mpr h
    omega
  · exact h.trans (le_max_right _ _)

theorem Rounds.mul (hx : HasValue x v) (hy : HasValue y w) (hv : 0 ≤ v) (hw : 0 ≤ w) :
    Rounds (x * y) (v * w) := by
  rcases hx.cases_of_nonneg hv with ⟨hzero, rfl⟩ | ⟨m, e, hm, hxu, hc, rfl⟩
  · rcases zero_mul_cases hzero y with ⟨-, h⟩ | ⟨h, -⟩
    · rw [zero_mul]
      exact h.hasValue.rounds_zero
    · exact absurd hy.isFinite h
  rcases hy.cases_of_nonneg hw with ⟨hzero, rfl⟩ | ⟨n, d, hn, hyu, hc', rfl⟩
  · rcases mul_zero_cases x hzero with ⟨-, h⟩ | ⟨h, -⟩
    · rw [mul_zero]
      exact h.hasValue.rounds_zero
    · exact absurd hx.isFinite h
  have hlocates : Locates (.ofMantissaAndAccuracy (m * n) .exact)
      (m * 2 ^ e * (n * 2 ^ d) / 2 ^ (e + d)) := by
    have hvalue : (m * 2 ^ e * (n * 2 ^ d) / 2 ^ (e + d) : ℚ) = (m * n : ℕ) := by
      rw [zpow_add₀ two_ne_zero, div_eq_iff (by positivity)]
      push_cast
      ring
    rw [hvalue]
    exact locates_exact _
  have htarget : 2 ^ 52 ≤ m * n ∨ e + d ≤ -1074 := by
    rcases hc.full with h | rfl
    · exact .inl (h.trans (Nat.le_mul_of_pos_right m hn))
    · rcases hc'.full with h | rfl
      · exact .inl (h.trans (Nat.le_mul_of_pos_left n hm))
      · exact .inr (by decide)
  obtain ⟨r, t, hnearest, hstored⟩ :=
    stored_round .positive hlocates (exponent_le_target htarget)
  refine ⟨r, t, hnearest, ?_⟩
  rw [unpack_mul, hxu, hyu]
  exact hstored

theorem unpack_div (x y : Float) : (x / y).toModel.unpack = (Float.Model.pack
    (UnpackedFloat.div .binary64 x.toModel.unpack y.toModel.unpack)).unpack := rfl

theorem divCore_spec {m n : ℕ} {e d : ℤ} (hm : 0 < m) (hn : 0 < n) :
    ∃ q c a, divCore .binary64 m e n d = (q, c, a) ∧
      Locates (.ofMantissaAndAccuracy q a) (m * 2 ^ e / (n * 2 ^ d) / 2 ^ c) ∧
      c ≤ Format.binary64.targetExponent (totalExponent q c) := by
  obtain ⟨c, hc⟩ : ∃ c, min (e - d)
      (Format.binary64.targetExponent (totalExponent m e - totalExponent n d)) = c := ⟨_, rfl⟩
  obtain ⟨k, hk⟩ : ∃ k : ℕ, e - d - c = k := ⟨(e - d - c).toNat, by omega⟩
  have hcore : divCore .binary64 m e n d =
      (m <<< k / n, c, accuracyOfFraction (m <<< k % n) n) := by
    have hshift : (e - d - c).toNat = k := by omega
    rw [← hshift, ← hc]
    rfl
  refine ⟨_, _, _, hcore, ?_, exponent_le_target ?_⟩
  · have hvalue : (m * 2 ^ e / (n * 2 ^ d) / 2 ^ c : ℚ) = (m <<< k : ℕ) / n := by
      have he : e = d + c + k := by omega
      rw [he, zpow_add₀ two_ne_zero, zpow_add₀ two_ne_zero, zpow_natCast, Nat.shiftLeft_eq]
      push_cast
      field_simp
    rw [hvalue]
    exact locates_quotient _ hn
  · have hmax : Format.binary64.targetExponent (totalExponent m e - totalExponent n d) =
        max ((m.log2 + 1 + e) - (n.log2 + 1 + d) - 53) (-1074) := rfl
    rcases le_or_gt c (-1074) with hlow | hlow
    · exact .inr hlow
    · left
      have hdigits : n.log2 + 1 + 52 ≤ m.log2 + k := by omega
      rw [Nat.le_div_iff_mul_le hn, Nat.shiftLeft_eq]
      calc 2 ^ 52 * n
        _ ≤ 2 ^ 52 * 2 ^ (n.log2 + 1) := Nat.mul_le_mul_left _ Nat.lt_log2_self.le
        _ = 2 ^ (n.log2 + 1 + 52) := by rw [← pow_add, add_comm]
        _ ≤ 2 ^ (m.log2 + k) := Nat.pow_le_pow_right two_pos hdigits
        _ = 2 ^ m.log2 * 2 ^ k := pow_add _ _ _
        _ ≤ m * 2 ^ k := Nat.mul_le_mul_right _ (Nat.log2_self_le hm.ne')

theorem Rounds.div (hx : HasValue x v) (hy : HasValue y w) (hv : 0 ≤ v) (hw : 0 < w) :
    Rounds (x / y) (v / w) := by
  rcases hy.cases_of_nonneg hw.le with ⟨-, rfl⟩ | ⟨n, d, hn, hyu, hc', rfl⟩
  · exact absurd hw (lt_irrefl 0)
  rcases hx.cases_of_nonneg hv with ⟨⟨s, hzero⟩, rfl⟩ | ⟨m, e, hm, hxu, hc, rfl⟩
  · have hquotient : IsZero (x / y) := by
      rw [IsZero, unpack_div, hzero, hyu]
      exact ⟨_, unpack_pack_zero _⟩
    rw [zero_div]
    exact hquotient.hasValue.rounds_zero
  · obtain ⟨q, c, a, hcore, hlocates, htarget⟩ := divCore_spec (e := e) (d := d) hm hn
    obtain ⟨r, t, hnearest, hstored⟩ := stored_round .positive hlocates htarget
    refine ⟨r, t, hnearest, ?_⟩
    rw [unpack_div, hxu, hyu, UnpackedFloat.div, hcore]
    exact hstored

theorem stored_normalized (s : UnpackedFloat.Sign) {m : ℕ} {e : ℤ} (hm : 0 < m) :
    ∃ r t, Nearest (m * 2 ^ e) r t ∧ Stored s (r * 2 ^ t)
      (Float.Model.pack (UnpackedFloat.round .binary64 s m e)).unpack := by
  obtain ⟨k, hk⟩ : ∃ k : ℕ,
      (e - Format.binary64.targetExponent (totalExponent m e)).toNat = k := ⟨_, rfl⟩
  have hround : UnpackedFloat.round .binary64 s m e =
      roundWithAccuracy .binary64 s (m <<< k) (e - k) .exact := by
    rw [← hk]
    rfl
  have hlog : (m <<< k).log2 = m.log2 + k := by
    rw [Nat.shiftLeft_eq, Nat.log2_eq_iff (by positivity), pow_add, pow_add, pow_add]
    have hlow := Nat.log2_self_le hm.ne'
    have hhigh := Nat.lt_log2_self (n := m)
    rw [pow_add] at hhigh
    constructor
    · gcongr
    · rw [mul_right_comm]
      gcongr
  have htarget : e - k ≤ Format.binary64.targetExponent (totalExponent (m <<< k) (e - k)) := by
    have h := targetExponent_eq m e
    rw [targetExponent_eq, hlog]
    push_cast
    omega
  have hlocates : Locates (.ofMantissaAndAccuracy (m <<< k) .exact)
      (m * 2 ^ e / 2 ^ (e - k)) := by
    have hvalue : (m * 2 ^ e / 2 ^ (e - k) : ℚ) = (m <<< k : ℕ) := by
      rw [mul_div_assoc, ← zpow_sub₀ two_ne_zero, sub_sub_cancel, zpow_natCast, Nat.shiftLeft_eq]
      push_cast
      rfl
    rw [hvalue]
    exact locates_exact _
  rw [hround]
  exact stored_round s hlocates htarget

def signOf (n : ℤ) : UnpackedFloat.Sign := if n < 0 then .negative else .positive

theorem stored_normalize (n : ℤ) (e : ℤ) : ∃ r t, Nearest (n.natAbs * 2 ^ e) r t ∧
    Stored (signOf n) (r * 2 ^ t)
      (Float.Model.pack (UnpackedFloat.normalize .binary64 n e .positive)).unpack := by
  rw [UnpackedFloat.normalize]
  cases hn : compare n 0 with
  | lt =>
    have hn := compare_lt_iff_lt.mp hn
    have habs : (-n).toNat = n.natAbs := by omega
    rw [signOf, if_pos hn, ← habs]
    exact stored_normalized .negative (by omega)
  | eq =>
    obtain rfl := compare_eq_iff_eq.mp hn
    refine ⟨0, -1074, ?_, ?_⟩
    · rw [Int.natAbs_zero, Nat.cast_zero, zero_mul]
      exact nearest_zero
    · rw [Nat.cast_zero, zero_mul]
      exact stored_zero .positive
  | gt =>
    have hn := compare_gt_iff_gt.mp hn
    have habs : n.toNat = n.natAbs := by omega
    rw [signOf, if_neg (not_lt.mpr hn.le), ← habs]
    exact stored_normalized .positive (by omega)

theorem signed_shifted (s : UnpackedFloat.Sign) (m : ℕ) {e c : ℤ} (h : c ≤ e) :
    signed s (m * 2 ^ e) = (s.apply (m <<< (e - c).toNat : ℕ) : ℤ) * 2 ^ c := by
  obtain ⟨k, rfl⟩ := Int.le.dest h
  rw [add_sub_cancel_left, Int.toNat_natCast, Nat.shiftLeft_eq, zpow_add₀ two_ne_zero, zpow_natCast]
  cases s <;> simp only [signed, UnpackedFloat.Sign.apply] <;> push_cast <;> ring

theorem abs_signed (s : UnpackedFloat.Sign) (hv : 0 ≤ v) : |signed s v| = v := by
  cases s with
  | positive => exact abs_of_nonneg hv
  | negative => exact (abs_neg v).trans (abs_of_nonneg hv)

theorem Canonical.nearest {m : ℕ} {e : ℤ} (h : Canonical m e) : Nearest (m * 2 ^ e) m e where
  low := h.low
  most := h.lt.le
  near := by
    rw [sub_self, abs_zero]
    positivity
  full := h.full.symm.imp_right fun hfull => by
    rw [add_comm, zpow_add₀ two_ne_zero]
    gcongr
    exact_mod_cast hfull

theorem unpack_sub (x y : Float) : (x - y).toModel.unpack = (Float.Model.pack
    (UnpackedFloat.sub .binary64 x.toModel.unpack y.toModel.unpack)).unpack := rfl

theorem stored_sub (hx : HasValue x v) (hy : HasValue y w) :
    ∃ s r t, Nearest |v - w| r t ∧ Stored s (r * 2 ^ t) (x - y).toModel.unpack := by
  rw [unpack_sub]
  rcases hx.cases with ⟨⟨s, hxu⟩, rfl⟩ | ⟨s, m, e, hm, hxu, hc, rfl⟩ <;>
    rcases hy.cases with ⟨⟨s', hyu⟩, rfl⟩ | ⟨s', n, d, hn, hyu, hc', rfl⟩ <;> rw [hxu, hyu]
  · obtain ⟨s'', hzero⟩ : ∃ s'', UnpackedFloat.sub .binary64 (.zero s) (.zero s') = .zero s'' := by
      unfold UnpackedFloat.sub
      dsimp only
      split_ifs
      · exact ⟨_, rfl⟩
      · exact ⟨_, rfl⟩
    refine ⟨s'', 0, -1074, ?_, ?_⟩
    · rw [sub_self, abs_zero]
      exact nearest_zero
    · rw [hzero, Nat.cast_zero, zero_mul]
      exact stored_zero s''
  · refine ⟨-s', n, d, ?_, stored_finite _ hn hc'.lt hc'.low hc'.full⟩
    rw [zero_sub, abs_neg, abs_signed s' (by positivity)]
    exact hc'.nearest
  · refine ⟨s, m, e, ?_, stored_finite _ hm hc.lt hc.low hc.full⟩
    rw [sub_zero, abs_signed s (by positivity)]
    exact hc.nearest
  · obtain ⟨r, t, h⟩ := stored_normalize (s.apply (m <<< (e - min e d).toNat : ℕ) -
      s'.apply (n <<< (d - min e d).toNat : ℕ)) (min e d)
    have hunit : (0 : ℚ) < 2 ^ min e d := by positivity
    rw [signed_shifted s m (min_le_left e d), signed_shifted s' n (min_le_right e d), ← sub_mul,
      abs_mul, abs_of_pos hunit, ← Int.cast_sub, ← Int.cast_abs, ← Nat.cast_natAbs]
    exact ⟨_, r, t, h⟩

theorem stored_abs {s : UnpackedFloat.Sign} (hv : 0 ≤ v) (h : Stored s v x.toModel.unpack) :
    Stored .positive v (Scalar.abs x).toModel.unpack := by
  rw [Scalar.abs]
  have hzero : HasValue 0 0 := isZero_zero.hasValue
  rcases h with ⟨hlt, hx⟩ | ⟨hle, hx⟩
  · refine .inl ⟨hlt, ?_⟩
    have hx : HasValue x (signed s v) := hx
    show HasValue _ v
    split_ifs with hneg
    · have hneg := (hx.lt_iff hzero).mp hneg
      cases s with
      | positive => exact absurd hneg (not_lt.mpr hv)
      | negative => simpa only [signed, neg_neg] using hx.neg
    · have hneg := not_lt.mp fun h => hneg ((hx.lt_iff hzero).mpr h)
      cases s with
      | positive => exact hx
      | negative =>
        obtain rfl : v = 0 := le_antisymm (neg_nonneg.mp hneg) hv
        simpa only [signed, neg_zero] using hx
  · refine .inr ⟨hle, ?_⟩
    cases s with
    | positive =>
      have hneg : ¬x < 0 := fun h => by
        rw [Binary64.lt_iff, hx] at h
        cases h
      rw [if_neg hneg, hx]
    | negative =>
      have hneg : x < 0 := by
        rw [Binary64.lt_iff, hx]
        rfl
      rw [if_pos hneg, unpack_neg, hx]
      rfl

theorem unpack_pack_infinite (s : UnpackedFloat.Sign) :
    (Float.Model.pack (.infinity s)).unpack = .infinity s := by
  cases s <;> rfl

theorem abs_sub_infinite {s : UnpackedFloat.Sign} (hx : x.toModel.unpack = .infinity s)
    (hy : HasValue y w) : (Scalar.abs (x - y)).toModel.unpack = .infinity .positive := by
  have hsub : (x - y).toModel.unpack = .infinity s := by
    rw [unpack_sub, hx]
    rcases hy.cases with ⟨⟨s', hs⟩, -⟩ | ⟨s', m, e, hm, hs, -⟩ <;> rw [hs] <;>
      exact unpack_pack_infinite s
  have hlimit : (0 : ℚ) ≤ 2 ^ (1024 : ℤ) := by positivity
  rcases stored_abs hlimit (.inr ⟨le_rfl, hsub⟩) with ⟨hlt, -⟩ | ⟨-, h⟩
  · exact absurd hlt (lt_irrefl _)
  · exact h

theorem Rounds.abs_sub (hx : HasValue x v) (hy : HasValue y w) :
    Rounds (Scalar.abs (x - y)) |v - w| := by
  obtain ⟨s, r, t, hnearest, hstored⟩ := stored_sub hx hy
  exact ⟨r, t, hnearest, stored_abs (by positivity) hstored⟩

theorem Rounds.natCast {n : ℕ} (hn : n < wordLimit) : Rounds (n : Float) n := by
  obtain ⟨r, t, hnearest, hstored⟩ := stored_normalize n 0
  rw [Int.natAbs_natCast, zpow_zero, mul_one] at hnearest
  have hsign : signOf n = .positive := if_neg (by omega)
  have hcast : (n : Float) = n.toUInt64.toFloat := if_pos hn
  have hword : n.toUInt64.toNat = n := Nat.mod_eq_of_lt hn
  refine ⟨r, t, hnearest, ?_⟩
  rw [← hsign, hcast]
  have hunpack : (n.toUInt64.toFloat).toModel.unpack =
      (Float.Model.pack (UnpackedFloat.ofNat .binary64 n.toUInt64.toNat)).unpack := rfl
  rw [hunpack, hword]
  exact hstored

end Operations

end ImpuritySampler.Binary64
