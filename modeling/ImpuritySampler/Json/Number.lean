import ImpuritySampler.Decimal.Text
import ImpuritySampler.Word

/-!
# Numbers in JSON texts

A number is kept as it is written: sign, digits before and after the point, and a power of ten. It
is read as a natural number if it is written as one that fits into 64 bits. Read as a float, the
leading digits that fit into 64 bits are scaled by the power of ten in floating arithmetic.
-/

set_option autoImplicit false

namespace ImpuritySampler.Json

structure Power where
  sign : Option Char
  digits : List Char
deriving DecidableEq

structure Number where
  negative : Bool
  whole : List Char
  /-- Empty if there is no point. -/
  fraction : List Char
  power : Option Power
deriving DecidableEq

def digitValue (c : Char) : Nat := c.toNat - '0'.toNat

def digitsValue (digits : List Char) (n : Nat) : Nat :=
  digits.foldl (fun n c => n * 10 + digitValue c) n

namespace Number

def chars (n : Number) : List Char :=
  (if n.negative then ['-'] else []) ++ n.whole
    ++ (if n.fraction.isEmpty then [] else '.' :: n.fraction)
    ++ match n.power with
      | none => []
      | some p => 'e' :: (p.sign.toList ++ p.digits)

def toNat? (n : Number) : Option Nat :=
  if n.negative = false ∧ n.fraction = [] ∧ n.power = none then
    let value := digitsValue n.whole 0
    if value < wordLimit then some value else none
  else none

def powerValue (n : Number) : Int :=
  match n.power with
  | none => 0
  | some p =>
    let size : Int := digitsValue p.digits 0
    if p.sign = some '-' then -size else size

def takeDigits : List Char → Nat → Nat × Nat
  | [], n => (n, 0)
  | c :: rest, n =>
    let next := n * 10 + digitValue c
    if next < wordLimit then
      let (value, count) := takeDigits rest next
      (value, count + 1)
    else (n, 0)

def tenPower (n : Nat) : Float := Float.ofScientific 1 false n

/-- Scales by a power of ten. Powers beyond the largest float are infinite, and downwards they are
taken in steps. -/
def scale : Nat → Float → Int → Option Float
  | fuel, x, e =>
    if e.natAbs ≤ 308 then
      if 0 ≤ e then
        let y := x * tenPower e.natAbs
        if y.isFinite then some y else none
      else some (x / tenPower e.natAbs)
    else if x == 0 then some x
    else if 0 ≤ e then none
    else match fuel with
      | 0 => some 0
      | fuel + 1 => scale fuel (x / tenPower 308) (e + 308)

def toFloat? (n : Number) : Option Float :=
  let (head, taken) := takeDigits n.whole 0
  let (digits, places) := takeDigits n.fraction head
  let exponent : Int := (n.whole.length - taken : Nat) - (places : Int) + n.powerValue
  -- two steps down already lead to zero
  (scale 3 digits.toUInt64.toFloat exponent).map fun x => if n.negative then -x else x

def ofNat (n : Nat) : Number where
  negative := false
  whole := Nat.toDigits 10 n
  fraction := []
  power := none

/-- The number `0.d × 10 ^ point` for digits `d`: with all its places from `1e-5` up to `1e16`, in
which case there is always a fraction, otherwise with a power of ten. -/
def ofDigits (negative : Bool) (digits : List Char) (point : Int) : Number :=
  let count : Int := digits.length
  if -5 < point ∧ point ≤ 16 then
    if point ≤ 0 then
      ⟨negative, ['0'], List.replicate (-point).toNat '0' ++ digits, none⟩
    else if count ≤ point then
      ⟨negative, digits ++ List.replicate (point - count).toNat '0', ['0'], none⟩
    else ⟨negative, digits.take point.toNat, digits.drop point.toNat, none⟩
  else
    let power : Power :=
      ⟨some (if 0 < point then '+' else '-'), Nat.toDigits 10 (point - 1).natAbs⟩
    ⟨negative, digits.take 1, digits.drop 1, some power⟩

def ofFloat? (x : Float) : Option Number :=
  match Decimal.Binary.ofFloat x with
  | .finite negative mantissa exponent =>
    if mantissa = 0 then some ⟨negative, ['0'], ['0'], none⟩
    else
      let d := Decimal.shortest .even mantissa exponent
      let digits := Nat.toDigits 10 d.value
      some (ofDigits negative digits (d.exponent + digits.length))
  | _ => none

end Number
end ImpuritySampler.Json
