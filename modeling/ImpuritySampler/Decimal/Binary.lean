/-!
# The exact value of a float

A finite float is a natural mantissa times a power of two, with a sign. The decimal texts are
computed from these three numbers, in natural arithmetic.
-/

set_option autoImplicit false

namespace ImpuritySampler.Decimal

def hiddenBit : Nat := Nat.pow 2 52

def signBit : Nat := Nat.pow 2 63

inductive Binary where
  | finite (negative : Bool) (mantissa : Nat) (exponent : Int)
  | infinite (negative : Bool)
  | undefined
deriving DecidableEq

namespace Binary

def ofBits (bits : Nat) : Binary :=
  let negative := decide (bits / signBit % 2 = 1)
  let exponent : Nat := bits / hiddenBit % 2048
  let fraction : Nat := bits % hiddenBit
  if exponent = 2047 then if fraction = 0 then .infinite negative else .undefined
  else if exponent = 0 then .finite negative fraction (-1074)
  else .finite negative (fraction + hiddenBit) ((exponent : Int) - 1075)

def ofFloat (x : Float) : Binary := ofBits x.toBits.toNat

def toFloat (negative : Bool) (mantissa : Nat) (exponent : Int) : Float :=
  let excess := (mantissa.log2 : Int) - 52
  -- a full mantissa of 53 bits, or the smallest exponent
  let shift := max excess (-1074 - exponent)
  let m := mantissa * Nat.pow 2 (-shift).toNat / Nat.pow 2 shift.toNat
  let field := if m < hiddenBit then 0 else (exponent + shift + 1075).toNat
  let bits := (if negative then signBit else 0) + field * hiddenBit + m % hiddenBit
  Float.ofBits bits.toUInt64

end Binary

structure Quotient where
  num : Nat
  den : Nat

def Quotient.scaled (mantissa : Nat) (exponent scale : Int) : Quotient where
  num := mantissa * Nat.pow 2 exponent.toNat * Nat.pow 10 (-scale).toNat
  den := Nat.pow 2 (-exponent).toNat * Nat.pow 10 scale.toNat

def digitCount (n : Nat) : Nat := (Nat.toDigits 10 n).length

def Quotient.magnitude (q : Quotient) : Int :=
  if q.den ≤ q.num then digitCount (q.num / q.den)
  else 1 - digitCount ((q.den - 1) / q.num)

inductive Tie where
  | up
  | even
deriving DecidableEq

def Quotient.nearest (tie : Tie) (q : Quotient) : Nat :=
  let n := q.num / q.den
  let twice := 2 * (q.num % q.den)
  if twice < q.den then n
  else if q.den < twice then n + 1
  else match tie with
    | .up => n + 1
    | .even => n + n % 2

end ImpuritySampler.Decimal
