import Mathlib
import ImpuritySampler.Random.Draw
import ImpuritySampler.Scalar.Binary64
import ImpuritySampler.Sign

/-!
# Zeros and exceptional values

What binary floating point does at the ends of its range. There are two zeros, which are equal as
the order sees it. A product with a zero is a zero if the other factor is finite, and undefined
otherwise. Numbers that come from words are not below zero.
-/

set_option autoImplicit false

namespace ImpuritySampler

/-- How an arithmetic treats its zeros, next to what is infinite or undefined. -/
structure Scalar.Zeros (α : Type) [Scalar α] : Prop where
  not_pos : ∀ x : α, Same x 0 → ¬0 < x
  neg : ∀ x : α, Same (-x) 0 ↔ Same x 0
  finite : ∀ x : α, Same x 0 → isFinite x = true
  product : ∀ x z y : α, Same z 0 →
    isFinite x = true ∧ isFinite y = true ∧ Same (x * z * y) 0 ∨
      ¬(isFinite x = true ∧ isFinite y = true) ∧ ¬isFinite (x * z * y) = true
  fraction : ∀ (w : UInt64) (z : α), Same z 0 → ¬(Random.fraction 53 w : α) < abs z

theorem Scalar.Zeros.apply {α : Type} [Scalar α] (hz : Zeros α) (s : Sign) (x : α) :
    Same (s.apply x) 0 ↔ Same x 0 := by
  cases s with
  | plus => exact Iff.rfl
  | minus => exact hz.neg x

namespace Binary64

open Float.Model

def IsZero (x : Float) : Prop := ∃ s, x.toModel.unpack = .zero s

def IsUndefined (x : Float) : Prop := x.toModel.unpack = .notANumber

variable {x y z : Float}

theorem unpack_pack_zero (s : UnpackedFloat.Sign) :
    (Float.Model.pack (.zero s)).unpack = .zero s := UnpackedFloat.unpack_packedZero

theorem unpack_pack_undefined : (Float.Model.pack .notANumber).unpack = .notANumber :=
  UnpackedFloat.unpack_packedNaN

theorem unpack_mul (x y : Float) : (x * y).toModel.unpack = (Float.Model.pack
    (UnpackedFloat.mul .binary64 x.toModel.unpack y.toModel.unpack)).unpack := rfl

theorem lt_iff : x < y ↔ x.toModel.unpack.compare y.toModel.unpack = some .lt := by
  have h : x < y ↔ decide ((x.toModel.unpack.compare y.toModel.unpack == some .lt) = true) = true :=
    Iff.rfl
  rw [h, decide_eq_true_iff, beq_iff_eq]

theorem le_iff : x ≤ y ↔ (x.toModel.unpack.compare y.toModel.unpack).any (·.isLE) = true := by
  have h : x ≤ y ↔
      decide ((x.toModel.unpack.compare y.toModel.unpack).any (·.isLE) = true) = true := Iff.rfl
  rw [h, decide_eq_true_iff]

theorem isZero_zero : IsZero 0 := ⟨.positive, rfl⟩

theorem same_zero : Scalar.Same x 0 ↔ IsZero x := by
  have hzero : (0 : Float).toModel.unpack = .zero .positive := rfl
  have hsame : Scalar.Same x 0 ↔ x ≤ 0 ∧ 0 ≤ x := Iff.rfl
  rw [hsame, le_iff, le_iff, hzero, IsZero]
  cases x.toModel.unpack with
  | infinity s => cases s <;> simp [UnpackedFloat.compare]
  | notANumber => simp [UnpackedFloat.compare]
  | zero s => simp [UnpackedFloat.compare]
  | finite s m e h => cases s <;> simp [UnpackedFloat.compare]

section Products

theorem isFinite_iff : Scalar.isFinite x = true ↔ x.toModel.unpack.isFinite = true := Iff.rfl

theorem IsZero.isFinite (h : IsZero x) : Scalar.isFinite x = true := by
  obtain ⟨s, h⟩ := h
  rw [isFinite_iff, h]
  rfl

theorem IsUndefined.not_isFinite (h : IsUndefined x) : ¬Scalar.isFinite x = true := by
  rw [isFinite_iff, h]
  exact Bool.false_ne_true

theorem IsUndefined.mul (h : IsUndefined x) (y : Float) : IsUndefined (x * y) := by
  rw [IsUndefined, unpack_mul, h]
  exact unpack_pack_undefined

theorem mul_zero_cases (x : Float) (hz : IsZero z) :
    Scalar.isFinite x = true ∧ IsZero (x * z) ∨
      ¬Scalar.isFinite x = true ∧ IsUndefined (x * z) := by
  obtain ⟨s, hz⟩ := hz
  rw [isFinite_iff, IsZero, IsUndefined, unpack_mul, hz]
  cases x.toModel.unpack with
  | infinity t => exact .inr ⟨Bool.false_ne_true, unpack_pack_undefined⟩
  | notANumber => exact .inr ⟨Bool.false_ne_true, unpack_pack_undefined⟩
  | zero t => exact .inl ⟨rfl, t * s, unpack_pack_zero _⟩
  | finite t m e h => exact .inl ⟨rfl, t * s, unpack_pack_zero _⟩

theorem zero_mul_cases (hz : IsZero z) (y : Float) :
    Scalar.isFinite y = true ∧ IsZero (z * y) ∨
      ¬Scalar.isFinite y = true ∧ IsUndefined (z * y) := by
  obtain ⟨s, hz⟩ := hz
  rw [isFinite_iff, IsZero, IsUndefined, unpack_mul, hz]
  cases y.toModel.unpack with
  | infinity t => exact .inr ⟨Bool.false_ne_true, unpack_pack_undefined⟩
  | notANumber => exact .inr ⟨Bool.false_ne_true, unpack_pack_undefined⟩
  | zero t => exact .inl ⟨rfl, s * t, unpack_pack_zero _⟩
  | finite t m e h => exact .inl ⟨rfl, s * t, unpack_pack_zero _⟩

/-- A product of three factors with a zero in the middle is a zero exactly if it is finite, and this
is the case exactly if both other factors are. -/
theorem mul_zero_mul_cases (x : Float) (hz : IsZero z) (y : Float) :
    Scalar.isFinite x = true ∧ Scalar.isFinite y = true ∧ IsZero (x * z * y) ∨
      ¬(Scalar.isFinite x = true ∧ Scalar.isFinite y = true) ∧
        ¬Scalar.isFinite (x * z * y) = true := by
  rcases mul_zero_cases x hz with ⟨hx, hxz⟩ | ⟨hx, hxz⟩
  · rcases zero_mul_cases hxz y with ⟨hy, hxzy⟩ | ⟨hy, hxzy⟩
    · exact .inl ⟨hx, hy, hxzy⟩
    · exact .inr ⟨fun h => hy h.2, hxzy.not_isFinite⟩
  · exact .inr ⟨fun h => hx h.1, (hxz.mul y).not_isFinite⟩

end Products

section Negation

theorem unpack_pack_unpack (b : BitVec Format.binary64.numBits) :
    UnpackedFloat.unpack .binary64 (UnpackedFloat.pack .binary64 (UnpackedFloat.unpack .binary64 b))
      = UnpackedFloat.unpack .binary64 b := by
  rw [UnpackedFloat.pack_unpack b]
  split_ifs with h
  · rw [UnpackedFloat.unpack_packedNaN]
    simp only [UnpackedFloat.isNaNBits, decide_eq_true_eq] at h
    rw [UnpackedFloat.unpack]
    simp only [if_pos h.1, if_neg h.2]
  · rfl

theorem neg_unpack (b : BitVec Format.binary64.numBits) :
    (UnpackedFloat.unpack .binary64 b).neg =
      UnpackedFloat.unpack .binary64 (UnpackedFloat.packComponents .binary64
        (-.ofBitVec (UnpackedFloat.unpackSign b)) (UnpackedFloat.unpackExponent b)
        (UnpackedFloat.unpackMantissa b)) := by
  unfold UnpackedFloat.unpack
  simp only [UnpackedFloat.unpackSign_packComponents, UnpackedFloat.unpackExponent_packComponents,
    UnpackedFloat.unpackMantissa_packComponents, UnpackedFloat.Sign.ofBitVec_toBitVec]
  split_ifs <;> rfl

theorem unpack_neg (x : Float) : (-x).toModel.unpack = x.toModel.unpack.neg := by
  show UnpackedFloat.unpack .binary64 (UnpackedFloat.pack .binary64
    (UnpackedFloat.unpack .binary64 x.toModel.toBits.toBitVec).neg) =
      (UnpackedFloat.unpack .binary64 x.toModel.toBits.toBitVec).neg
  rw [neg_unpack, unpack_pack_unpack]

theorem isZero_neg : IsZero (-x) ↔ IsZero x := by
  rw [IsZero, IsZero, unpack_neg]
  cases x.toModel.unpack with
  | infinity s => simp [UnpackedFloat.neg]
  | notANumber => simp [UnpackedFloat.neg]
  | zero s => exact ⟨fun _ => ⟨s, rfl⟩, fun _ => ⟨-s, rfl⟩⟩
  | finite s m e h => simp [UnpackedFloat.neg]

end Negation

section Unsigned

def Plain : UnpackedFloat → Prop
  | .notANumber => True
  | .infinity s => s = .positive
  | .zero s => s = .positive
  | .finite s _ _ _ => s = .positive

theorem plain_unpack_components (e : BitVec Format.binary64.exponentBits)
    (m : BitVec Format.binary64.mantissaBitsWithoutImplicit) :
    Plain (UnpackedFloat.unpack .binary64
      (UnpackedFloat.packComponents .binary64 .positive e m)) := by
  unfold UnpackedFloat.unpack
  simp only [UnpackedFloat.unpackSign_packComponents, UnpackedFloat.Sign.ofBitVec_toBitVec]
  split_ifs <;> trivial

theorem plain_unpack_pack {u : UnpackedFloat} (h : Plain u) :
    Plain (Float.Model.pack u).unpack := by
  have hcomponents : ∃ e m, UnpackedFloat.pack .binary64 u =
      UnpackedFloat.packComponents .binary64 .positive e m := by
    cases u with
    | notANumber => exact ⟨_, _, rfl⟩
    | infinity s => exact ⟨_, _, by rw [UnpackedFloat.pack, UnpackedFloat.packedInfinity, h]⟩
    | zero s => exact ⟨_, _, by rw [UnpackedFloat.pack, UnpackedFloat.packedZero, h]⟩
    | finite s m e hm =>
      obtain rfl : s = .positive := h
      rw [UnpackedFloat.pack]
      dsimp only
      split_ifs
      · exact ⟨_, _, rfl⟩
      · exact ⟨_, _, rfl⟩
      · exact ⟨_, _, rfl⟩
  obtain ⟨e, m, hpack⟩ := hcomponents
  show Plain (UnpackedFloat.unpack .binary64 (UnpackedFloat.pack .binary64 u))
  rw [hpack]
  exact plain_unpack_components e m

theorem plain_round (m : ℕ) (e : ℤ) (a : UnpackedFloat.Accuracy) :
    Plain (UnpackedFloat.roundWithAccuracy .binary64 .positive m e a) := by
  rw [UnpackedFloat.roundWithAccuracy]
  dsimp only
  split_ifs <;> rfl

theorem plain_div {u v : UnpackedFloat} (hu : Plain u) (hv : Plain v) :
    Plain (UnpackedFloat.div .binary64 u v) := by
  cases u with
  | notANumber => trivial
  | infinity s =>
    obtain rfl : s = .positive := hu
    cases v with
    | notANumber => trivial
    | infinity t => trivial
    | zero t =>
      cases hv
      rfl
    | finite t m e h =>
      cases hv
      rfl
  | zero s =>
    obtain rfl : s = .positive := hu
    cases v with
    | notANumber => trivial
    | infinity t =>
      cases hv
      rfl
    | zero t => trivial
    | finite t m e h =>
      cases hv
      rfl
  | finite s m e h =>
    obtain rfl : s = .positive := hu
    cases v with
    | notANumber => trivial
    | infinity t =>
      cases hv
      rfl
    | zero t =>
      cases hv
      rfl
    | finite t m' e' h' =>
      cases hv
      exact plain_round _ _ _

theorem plain_ofNat (n : ℕ) : Plain (UnpackedFloat.ofNat .binary64 n) := by
  rw [UnpackedFloat.ofNat, UnpackedFloat.ofInt, UnpackedFloat.normalize]
  cases hn : compare (n : ℤ) 0 with
  | lt => exact absurd (compare_lt_iff_lt.mp hn) (by omega)
  | eq => rfl
  | gt => exact plain_round _ _ _

theorem plain_word (n : UInt64) : Plain n.toFloat.toModel.unpack :=
  plain_unpack_pack (plain_ofNat n.toNat)

theorem plain_natCast {n : ℕ} (hn : n < wordLimit) : Plain ((n : Float)).toModel.unpack := by
  have hcast : (n : Float) = n.toUInt64.toFloat := if_pos hn
  rw [hcast]
  exact plain_word _

theorem plain_fraction (w : UInt64) : Plain (Random.fraction 53 w : Float).toModel.unpack := by
  apply plain_unpack_pack
  apply plain_div
  · exact plain_natCast ((Nat.div_le_self _ _).trans_lt w.toNat_lt)
  · exact plain_natCast (by decide)

theorem not_lt_isZero (hx : Plain x.toModel.unpack) (hz : IsZero z) : ¬x < z := by
  obtain ⟨s, hz⟩ := hz
  rw [lt_iff, hz]
  cases h : x.toModel.unpack with
  | notANumber => simp [UnpackedFloat.compare]
  | infinity t =>
    rw [h] at hx
    cases hx
    simp [UnpackedFloat.compare]
  | zero t => simp [UnpackedFloat.compare]
  | finite t m e hm =>
    rw [h] at hx
    cases hx
    simp [UnpackedFloat.compare]

theorem IsZero.abs (hz : IsZero z) : IsZero (Scalar.abs z) := by
  rw [Scalar.abs]
  split_ifs
  · exact isZero_neg.mpr hz
  · exact hz

end Unsigned

/-- Binary floating point with another function in place of the exponential. -/
@[reducible]
def withExp (exp : Float → Float) : Scalar Float :=
  { (inferInstance : Scalar Float) with exp := exp }

theorem zeros (exp : Float → Float) : @Scalar.Zeros Float (withExp exp) :=
  letI := withExp exp
  { not_pos := fun x hx => not_lt_isZero (x := 0) rfl (same_zero.mp hx)
    neg := fun x => same_zero.trans (isZero_neg.trans same_zero.symm)
    finite := fun x hx => (same_zero.mp hx).isFinite
    product := fun x z y hz => by
      have hproduct := mul_zero_mul_cases x (same_zero.mp hz) y
      rwa [← same_zero] at hproduct
    fraction := fun w z hz => not_lt_isZero (plain_fraction w) (same_zero.mp hz).abs }

end Binary64

end ImpuritySampler
