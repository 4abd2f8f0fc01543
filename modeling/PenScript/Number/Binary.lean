/-!
# Binary floating point

What a 64-bit float stands for, exactly, and the two roundings that are made from it: to a 32-bit
integer toward zero, and to three decimal places with ties to even.
-/

set_option autoImplicit false

namespace PenScript

/-- A float as `mantissa * 2 ^ exponent` with a sign, or a special value. -/
inductive Binary where
  | finite (negative : Bool) (mantissa : Nat) (exponent : Int)
  | infinite (negative : Bool)
  | nan
  deriving DecidableEq, Repr

namespace Binary

def fractions : Nat := 1 <<< 52

/-- Split the sixty-four bits of a float into sign, eleven exponent bits and fraction. -/
def ofFloat (x : Float) : Binary :=
  let bits := x.toBits.toNat
  let negative : Bool := (bits >>> 63) % 2 = 1
  let field : Nat := (bits >>> 52) % 2048
  let fraction : Nat := bits % fractions
  if field = 2047 then
    if fraction = 0 then .infinite negative else .nan
  else if field = 0 then .finite negative fraction (-1074)
  else .finite negative (fractions + fraction) (field - 1075)

/-! ## Integers -/

/-- The magnitude without its fractional part. -/
def floorAbs (mantissa : Nat) (exponent : Int) : Nat :=
  (mantissa <<< exponent.toNat) >>> (-exponent).toNat

def clampInt32 (n : Int) : Int32 :=
  Int32.ofInt (max Int32.minValue.toInt (min n Int32.maxValue.toInt))

/-- Truncation toward zero, held to the bounds of 32 bits; not-a-number gives zero. -/
def toInt32 : Binary → Int32
  | .finite negative mantissa exponent =>
      let n : Int := floorAbs mantissa exponent
      clampInt32 (if negative then -n else n)
  | .infinite negative => if negative then Int32.minValue else Int32.maxValue
  | .nan => 0

/-! ## Three decimal places -/

/-- The quotient rounded to the nearest integer, a tie going to the even one. -/
def roundHalfEven (num den : Nat) : Nat :=
  let q := num / den
  let r := num % den
  if 2 * r < den then q
  else if den < 2 * r then q + 1
  else if q % 2 = 0 then q else q + 1

/-- A count of thousandths with a point and exactly three places. -/
def thousandths (n : Nat) : String :=
  let places := n % 1000
  let padding := if places < 10 then "00" else if places < 100 then "0" else ""
  s!"{n / 1000}.{padding}{places}"

/-- Three places, with a sign whenever the sign bit is set, even before a zero. -/
def toFixed : Binary → String
  | .finite negative mantissa exponent =>
      let digits := thousandths <|
        roundHalfEven ((1000 * mantissa) <<< exponent.toNat) (1 <<< (-exponent).toNat)
      if negative then "-" ++ digits else digits
  | .infinite negative => if negative then "-inf" else "inf"
  | .nan => "NaN"

end Binary
end PenScript
