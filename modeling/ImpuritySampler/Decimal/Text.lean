import ImpuritySampler.Decimal.Shortest

/-!
# Decimal texts of floats

Three forms: the shortest digits without an exponent, a fixed number of decimals, and scientific
notation. The last two round the exact value, halves to even.
-/

set_option autoImplicit false

namespace ImpuritySampler.Decimal

def signText (negative : Bool) : String := if negative then "-" else ""

def digitText (n : Nat) : String := String.ofList (Nat.toDigits 10 n)

def zeros (n : Nat) : String := String.ofList (List.replicate n '0')

def withPoint (n places : Nat) : String :=
  if places = 0 then digitText n
  else
    let digits := Nat.toDigits 10 n
    let padded := List.replicate (places + 1 - digits.length) '0' ++ digits
    let whole := padded.length - places
    String.ofList (padded.take whole ++ '.' :: padded.drop whole)

def Digits.plain (d : Digits) : String :=
  if 0 ≤ d.exponent then digitText d.value ++ zeros d.exponent.toNat
  else withPoint d.value (-d.exponent).toNat

def text (finite : Bool → Nat → Int → String) (x : Float) : String :=
  match Binary.ofFloat x with
  | .finite negative mantissa exponent => finite negative mantissa exponent
  | .infinite negative => signText negative ++ "inf"
  | .undefined => "NaN"

/-- The shortest digits that read back, never with an exponent; a zero keeps its sign. -/
def plain : Float → String :=
  text fun negative mantissa exponent =>
    signText negative ++
      if mantissa = 0 then "0" else (shortest .up mantissa exponent).plain

def fixed (places : Nat) : Float → String :=
  text fun negative mantissa exponent =>
    signText negative ++
      withPoint ((Quotient.scaled mantissa exponent (-(places : Int))).nearest .even) places

def scientific (places : Nat) : Float → String :=
  text fun negative mantissa exponent =>
    if mantissa = 0 then withPoint 0 places ++ "e0"
    else
      let magnitude := (Quotient.scaled mantissa exponent 0).magnitude
      let n := (Quotient.scaled mantissa exponent (magnitude - 1 - places)).nearest .even
      let carried := Nat.pow 10 (places + 1) ≤ n
      let digits := if carried then n / 10 else n
      let power := if carried then magnitude else magnitude - 1
      signText negative ++ withPoint digits places ++ "e" ++ toString power

end ImpuritySampler.Decimal
