import ImpuritySampler.Proofs.Binary64.Range
import ImpuritySampler.Proofs.Decimal
import ImpuritySampler.Proofs.Json.Number

/-!
# Floats and words as written numbers

A finite float is written as a number that obeys the grammar. Whether it is read as the same float
is a matter of the conversion of decimal digits, and a property of the float. A word is read as a
word, and is in the range of floats as well.
-/

set_option autoImplicit false

namespace ImpuritySampler

open Float.Model

theorem Decimal.Binary.exists_finite {x : Float} (h : x.isFinite = true) :
    ∃ negative mantissa exponent, ofFloat x = .finite negative mantissa exponent := by
  have hfield := Binary64.isFinite_unpack.mp h
  have hexponent : ¬x.toBits.toNat / hiddenBit % 2048 = 2047 := by
    intro hlast
    apply hfield
    apply BitVec.eq_of_toNat_eq
    rw [UnpackedFloat.unpackExponent_def, BitVec.extractLsb'_toNat, Nat.shiftRight_eq_div_pow]
    exact hlast
  rw [ofFloat, ofBits]
  simp only [if_neg hexponent]
  split_ifs
  · exact ⟨_, _, _, rfl⟩
  · exact ⟨_, _, _, rfl⟩

namespace Json.Number

theorem exists_ofFloat? {x : Float} (h : x.isFinite = true) :
    ∃ n, ofFloat? x = some n ∧ n.Written := by
  obtain ⟨negative, mantissa, exponent, hx⟩ := Decimal.Binary.exists_finite h
  rw [ofFloat?, hx]
  dsimp only
  split_ifs with hzero
  · exact ⟨_, rfl, by simp, by simp [isDigit], fun _ => rfl, by simp [isDigit],
      fun p hp => by cases hp⟩
  · have hpos := Decimal.shortest_pos .even exponent (Nat.pos_of_ne_zero hzero)
    exact ⟨_, rfl,
      written_ofDigits Nat.toDigits_ne_nil (isDigit_toDigits _) (head_toDigits hpos) _ _⟩

/-- Is what is written for a float read as this float? -/
def Exact (x : Float) : Prop := ∀ n ∈ ofFloat? x, n.toFloat? = some x

instance (x : Float) : Decidable (Exact x) :=
  inferInstanceAs (Decidable (∀ n ∈ ofFloat? x, n.toFloat? = some x))

-- the product of 3 and 1e25 is rounded once more than the literal
example : Exact 0.1 ∧ ¬Exact 3e25 := by decide +kernel

theorem scale_zero {x : Float} (h : (x * tenPower 0).isFinite = true) (fuel : ℕ) :
    scale fuel x 0 = some (x * tenPower 0) := by
  unfold scale
  simp only [Int.natAbs_zero, Nat.zero_le, le_refl, if_true, if_pos h]

theorem toFloat?_ofNat {n : ℕ} (h : n < wordLimit) : (ofNat n).toFloat?.isSome = true := by
  have hdigits : takeDigits (ofNat n).whole 0 = (n, (ofNat n).whole.length) := by
    have hvalue : digitsValue (ofNat n).whole 0 = n := digitsValue_toDigits n
    rw [takeDigits_eq (hvalue.trans_lt h), hvalue]
  have hexponent : ((ofNat n).whole.length - (ofNat n).whole.length : ℕ) - ((0 : ℕ) : ℤ) +
      (ofNat n).powerValue = 0 := by
    rw [Nat.sub_self]
    rfl
  have hone : Binary64.Within 0 (tenPower 0).toModel.unpack := show (-52 : ℤ) ≤ 0 by decide
  have hfinite := Binary64.isFinite_mul (Binary64.within_word n.toUInt64) hone
  have hfraction : takeDigits (ofNat n).fraction n = (n, 0) := rfl
  rw [toFloat?, hdigits]
  simp only [hfraction, hexponent, scale_zero hfinite, Option.map_some, Option.isSome_some]

end Json.Number

end ImpuritySampler
