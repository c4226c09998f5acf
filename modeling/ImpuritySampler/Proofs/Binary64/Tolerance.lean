import ImpuritySampler.Proofs.Binary64.Operations
import ImpuritySampler.Proofs.MeshFunction
import ImpuritySampler.Params

/-!
# Tolerances in binary floating point

The tolerance for the period of a table, times the period of the cycle, and the margin of the table
are rounded. The margin is larger than the tolerance by more than what rounding takes away, so that
a table whose period is a number and passes the comparison covers the whole cycle. A period that is
undefined passes the comparison as well, and its table covers nothing. For a cycle whose period is
not extremely small, one tick does not underflow.
-/

set_option autoImplicit false

namespace ImpuritySampler.Binary64

open Float.Model UnpackedFloat

variable {x tau beta : Float} {v b : ℚ}

section Lengths

theorem one_value : HasValue 1 1 := by
  have h : (1 : Float).toModel.unpack = .finite .positive (2 ^ 52) (-52) (by decide) := rfl
  rw [HasValue, h]
  exact ⟨⟨by decide, by decide, by decide, .inl (by decide)⟩, by norm_num [signed]⟩

theorem ticksPerPeriod_value : HasValue (ticksPerPeriod : Float) (2 ^ (62 : ℤ)) := by
  have h : ((ticksPerPeriod : ℕ) : Float).toModel.unpack =
    .finite .positive (2 ^ 52) 10 (by decide) := rfl
  rw [HasValue, h]
  exact ⟨⟨by decide, by decide, by decide, .inl (by decide)⟩, by norm_num [signed]⟩

theorem fraction_value {n : ℕ} (hn : n < wordLimit) :
    ∃ q, HasValue ((n : Float) / (ticksPerPeriod : Float)) q ∧ 0 ≤ q ∧
      (n ≤ ticksPerPeriod → q ≤ 1) ∧ (0 < n → 2 ^ (-62 : ℤ) ≤ q) ∧ (n = 0 → q = 0) := by
  have hcycle : (0 : ℚ) < 2 ^ (62 : ℤ) := by positivity
  have hmost : (n : ℚ) ≤ 2 ^ (64 : ℤ) := by exact_mod_cast hn.le
  obtain ⟨r, t, hr, hx, hle⟩ := (Rounds.natCast hn).le (fits_two_pow (by decide))
    (zpow_lt_zpow_right₀ one_lt_two (by decide)) hmost
  have hlow : (0 : ℚ) ≤ r * 2 ^ t := by positivity
  have hfour : (r * 2 ^ t / 2 ^ (62 : ℤ) : ℚ) ≤ 2 ^ (2 : ℤ) := by
    rw [div_le_iff₀ hcycle, ← zpow_add₀ two_ne_zero]
    exact hle
  obtain ⟨k, s, hk, hq, -⟩ := (Rounds.div hx ticksPerPeriod_value hlow hcycle).le
    (fits_two_pow (by decide)) (zpow_lt_zpow_right₀ one_lt_two (by decide)) hfour
  refine ⟨_, hq, by positivity, fun h => ?_, fun h => ?_, fun h => ?_⟩
  · have hcast : (n : ℚ) ≤ 2 ^ (62 : ℤ) := by exact_mod_cast h
    have hcount := hr.le (fits_two_pow (by decide)) hcast
    exact hk.le (fits_two_pow (e := 0) (by decide)) ((div_le_one hcycle).mpr hcount)
  · have hcast : (2 ^ (0 : ℤ) : ℚ) ≤ n := by exact_mod_cast h
    have hcount := hr.ge_of_le (fits_two_pow (by decide)) hcast
    refine hk.ge_of_le (fits_two_pow (by decide)) ?_
    rw [le_div_iff₀ hcycle, ← zpow_add₀ two_ne_zero]
    exact hcount
  · have hcast : (n : ℚ) ≤ 0 := by exact_mod_cast h.le
    have hcount := hr.le fits_zero hcast
    have hquotient : (r * 2 ^ t / 2 ^ (62 : ℤ) : ℚ) ≤ 0 :=
      div_nonpos_of_nonpos_of_nonneg hcount hcycle.le
    exact le_antisymm (hk.le fits_zero hquotient) (by positivity)

theorem scale_value {n : ℕ} (hbeta : HasValue beta b) (hb : 0 < b) (hn : n < ticksPerPeriod) :
    ∃ s, HasValue (Time.scale n beta) s ∧ 0 ≤ s ∧ s ≤ b := by
  obtain ⟨q, hq, hlow, hone, -⟩ :=
    fraction_value (hn.trans (by decide : ticksPerPeriod < wordLimit))
  have hproduct : q * b ≤ b := mul_le_of_le_one_left hb.le (hone hn.le)
  obtain ⟨r, t, -, hs, hle⟩ :=
    (Rounds.mul hq hbeta hlow hb.le).le (hbeta.fits hb.le) hbeta.lt_limit hproduct
  exact ⟨_, hs, by positivity, hle⟩

/-- The square of the tolerance is lost next to one, so the whole axis is in reach. -/
theorem reach_value (hbeta : HasValue beta b) (hb : 0 ≤ b) : Rounds (Time.reach beta) b := by
  have hfactor : (1 - Scalar.tolerance * Scalar.tolerance : Float) = 1 := by decide +kernel
  have h := Rounds.mul hbeta one_value hb zero_le_one
  rw [mul_one] at h
  rw [Time.reach, hfactor]
  exact h

theorem le_reach (hpos : 0 < beta) (hfinite : Scalar.isFinite beta = true) (hlow : 0 ≤ tau)
    (hhigh : tau ≤ beta) : tau ≤ Time.reach beta := by
  obtain ⟨b, hbeta, hb⟩ := exists_pos_value hfinite hpos
  obtain ⟨u, htau, hu, hub⟩ := hbeta.of_le hlow hhigh
  have hunit : (0 : ℚ) < 2 ^ (-1074 : ℤ) := by positivity
  exact (reach_value hbeta hb.le).ge htau hu (by linarith)

theorem resolved (hbeta : HasValue beta b) (hb : 2 ^ (-1012 : ℤ) ≤ b) : Time.Resolved beta where
  same := ⟨(hbeta.le_iff hbeta).mpr le_rfl, (hbeta.le_iff hbeta).mpr le_rfl⟩
  zero := fun _ n hn => by
    have hzero : HasValue 0 0 := isZero_zero.hasValue
    have hpos : 0 < b := lt_of_lt_of_le (by positivity) hb
    obtain ⟨q, hq, hlow, -, hunit, hnone⟩ := fraction_value hn
    have hscale : Rounds (Time.scale n beta) (q * b) := Rounds.mul hq hbeta hlow hpos.le
    constructor
    · intro hsame
      by_contra hne
      have hsmallest : (2 ^ (-1074 : ℤ) : ℚ) ≤ q * b :=
        calc (2 ^ (-1074 : ℤ) : ℚ)
          _ = 2 ^ (-62 : ℤ) * 2 ^ (-1012 : ℤ) := by rw [← zpow_add₀ two_ne_zero]; rfl
          _ ≤ q * b := mul_le_mul (hunit (Nat.pos_of_ne_zero hne)) hb (by positivity) hlow
      have hsome := hscale.pos (lt_of_lt_of_le (half_lt_self (by positivity)) hsmallest)
      exact (zeros Float.exp).not_pos _ hsame hsome
    · intro h
      rw [hnone h, zero_mul] at hscale
      obtain ⟨r, t, -, hvalue, hle⟩ := hscale.le fits_zero (by positivity) le_rfl
      exact ⟨(hvalue.le_iff hzero).mpr hle, (hzero.le_iff hvalue).mpr (by positivity)⟩

instance : Time.Resolved (1 : Float) :=
  resolved one_value (zpow_le_one_of_nonpos₀ one_le_two (by decide))

end Lengths

section Tables

/-- The tolerance: the binary number nearest to `10⁻¹²`. -/
def toleranceValue : ℚ := 4951760157141521 * 2 ^ (-92 : ℤ)

/-- The rounded sum of one and the tolerance. It is above the exact sum. -/
def marginValue : ℚ := 4503599627375000 * 2 ^ (-52 : ℤ)

theorem tolerance_value : HasValue Scalar.tolerance toleranceValue := by
  have h : (Scalar.tolerance : Float).toModel.unpack =
    .finite .positive 4951760157141521 (-92) (by decide) := rfl
  rw [HasValue, h]
  exact ⟨⟨by decide, by decide, by decide, .inl (by decide)⟩, by simp [signed, toleranceValue]⟩

theorem margin_value : HasValue (1 + Scalar.tolerance) marginValue := by
  have h : (1 + Scalar.tolerance : Float).toModel.unpack =
    .finite .positive 4503599627375000 (-52) (by decide) := rfl
  rw [HasValue, h]
  exact ⟨⟨by decide, by decide, by decide, .inl (by decide)⟩, by simp [signed, marginValue]⟩

theorem toleranceValue_pos : 0 < toleranceValue := by
  rw [toleranceValue]
  positivity

theorem toleranceValue_le : toleranceValue ≤ 1 := by
  rw [toleranceValue]
  norm_num

theorem one_le_marginValue : 1 ≤ marginValue := by
  rw [marginValue]
  norm_num

/-- A period that passes the comparison with `b` falls short of it by no more than what the margin
adds. A difference that is not zero is one unit at least, so that the tolerance is large compared to
the unit, and the rounding of its product with `b` is small compared to the tolerance. -/
theorem margin_reaches {g d p : ℚ} (hb : 0 < b) (hunit : 2 ^ (-1074 : ℤ) ≤ b - g)
    (hd : |d - (b - g)| ≤ (b - g) / 2 ^ 53)
    (hp : |p - toleranceValue * b| ≤ toleranceValue * b / 2 ^ 53 + 2 ^ (-1074 : ℤ) / 2)
    (hle : d ≤ p) : 0 ≤ g ∧ b - 2 ^ (-1074 : ℤ) / 2 < g * marginValue := by
  have hpos : (0 : ℚ) < 2 ^ (-1074 : ℤ) := by positivity
  have hlow := (abs_le.mp hd).1
  have hhigh := (abs_le.mp hp).2
  generalize (2 ^ (-1074 : ℤ) : ℚ) = unit at *
  norm_num [toleranceValue, marginValue] at hlow hhigh ⊢
  constructor <;> linarith only [hb, hpos, hunit, hlow, hhigh, hle]

/-- A period that passes the comparison is a number, and reaches `b` with the margin. -/
theorem near_value (hbeta : HasValue beta b) (hb : 0 < b) (hnumber : Scalar.Same x x)
    (hnear : ¬Scalar.tolerance * beta < Scalar.abs (x - beta)) :
    ∃ g, HasValue x g ∧ 0 ≤ g ∧ b - 2 ^ (-1074 : ℤ) / 2 < g * marginValue := by
  have hunit : (0 : ℚ) < 2 ^ (-1074 : ℤ) := by positivity
  have hpos : 0 ≤ toleranceValue * b := (mul_pos toleranceValue_pos hb).le
  obtain ⟨k, s, hp, hproduct, -⟩ :=
    (Rounds.mul tolerance_value hbeta toleranceValue_pos.le hb.le).le (hbeta.fits hb.le)
      hbeta.lt_limit (mul_le_of_le_one_left hb.le toleranceValue_le)
  rcases value_cases x with hx | ⟨s, hx⟩ | ⟨g, hg⟩
  · have hself := hnumber.1
    rw [Binary64.le_iff, hx] at hself
    cases hself
  · exact absurd (hproduct.lt_infinite (abs_sub_infinite hx hbeta)) hnear
  · refine ⟨g, hg, ?_⟩
    rcases le_or_gt b g with hge | hlt
    · have hzero : 0 ≤ g := hb.le.trans hge
      have hmore : g ≤ g * marginValue := le_mul_of_one_le_right hzero one_le_marginValue
      exact ⟨hzero, by linarith⟩
    · have hd := Rounds.abs_sub hg hbeta
      rw [abs_sub_comm, abs_of_pos (sub_pos.mpr hlt)] at hd
      obtain ⟨r, t, hd, hle⟩ := hd.of_not_lt hproduct hnear
      obtain ⟨n, hn, hdiff⟩ := hbeta.units hg hlt
      refine margin_reaches hb ?_ (hd.error_of_multiple hdiff) (hp.error hpos) hle
      rw [hdiff]
      exact le_mul_of_one_le_left hunit.le (by exact_mod_cast hn)

theorem covers_of_near {f : MeshFunction Float} (hpos : 0 < beta)
    (hfinite : Scalar.isFinite beta = true) (hnumber : Scalar.Same f.beta f.beta)
    (hnear : ¬Scalar.tolerance * beta < Scalar.abs (f.beta - beta)) (hlow : 0 ≤ tau)
    (hhigh : tau ≤ Time.reach beta) : f.Covers tau := by
  obtain ⟨b, hbeta, hb⟩ := exists_pos_value hfinite hpos
  obtain ⟨r, t, -, hreach, hle⟩ :=
    (reach_value hbeta hb.le).le (hbeta.fits hb.le) hbeta.lt_limit le_rfl
  obtain ⟨u, htau, hu, hub⟩ := hreach.of_le hlow hhigh
  obtain ⟨g, hvalue, hg, hmargin⟩ := near_value hbeta hb hnumber hnear
  constructor
  · exact (tolerance_value.neg.le_iff htau).mpr ((neg_nonpos.mpr toleranceValue_pos.le).trans hu)
  · have hmargin₀ : 0 ≤ marginValue := zero_le_one.trans one_le_marginValue
    exact (Rounds.mul hvalue margin_value hg hmargin₀).ge htau hu (by linarith)

/-- In binary floating point the tolerance is within the margin, whatever the exponential is. -/
theorem tolerant (exp : Float → Float) : @Scalar.Tolerant Float (withExp exp) :=
  letI := withExp exp
  { covers := covers_of_near
    distance := fun {beta k} hpos hfinite hk => by
      obtain ⟨b, hbeta, hb⟩ := exists_pos_value hfinite hpos
      obtain ⟨s, hs, hlow, hhigh⟩ := scale_value hbeta hb hk
      have hlow := (isZero_zero.hasValue.le_iff hs).mpr hlow
      exact ⟨hlow, le_reach hpos hfinite hlow ((hs.le_iff hbeta).mpr hhigh)⟩ }

instance : Scalar.Tolerant Float := tolerant Float.exp

end Tables

section Undefined

theorem IsUndefined.not_lt (h : IsUndefined x) (y : Float) : ¬x < y := fun hlt => by
  rw [Binary64.lt_iff, h] at hlt
  cases hlt

theorem IsUndefined.not_gt (h : IsUndefined x) (y : Float) : ¬y < x := fun hlt => by
  rw [Binary64.lt_iff, h] at hlt
  cases hy : y.toModel.unpack <;> rw [hy] at hlt <;> cases hlt

theorem IsUndefined.not_ge (h : IsUndefined x) (y : Float) : ¬y ≤ x := fun hle => by
  rw [Binary64.le_iff, h] at hle
  cases hy : y.toModel.unpack <;> rw [hy] at hle <;> cases hle

theorem IsUndefined.sub (h : IsUndefined x) (y : Float) : IsUndefined (x - y) := by
  rw [IsUndefined, unpack_sub, h]
  exact unpack_pack_undefined

theorem IsUndefined.abs (h : IsUndefined x) : IsUndefined (Scalar.abs x) := by
  rw [Scalar.abs, if_neg (h.not_lt 0)]
  exact h

/-- An undefined period counts as every other one. -/
theorem IsUndefined.not_differentBeta (h : IsUndefined x) (beta : Float) :
    Params.differentBeta x beta = false := decide_eq_false ((h.sub beta).abs.not_gt _)

/-- A table with such a period has no value at any time. -/
theorem IsUndefined.value {f : MeshFunction Float} (h : IsUndefined f.beta) (tau : Float)
    (i j : ℕ) : f.value tau i j = .error (.outsideMesh tau) := by
  have hcovers : ¬(-Scalar.tolerance ≤ tau ∧ tau ≤ f.beta * (1 + Scalar.tolerance)) :=
    fun hcovers => (h.mul _).not_ge tau hcovers.2
  rw [MeshFunction.value, Outcome.require, if_neg hcovers]
  rfl

end Undefined

end ImpuritySampler.Binary64
