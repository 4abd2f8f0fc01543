import PenScript.Number.Literal
import PenScript.Number.Binary

/-!
# Scalars

The numbers that positions, sizes and lists are made of. Scripts run on 64-bit floats; the same
definitions over the rationals show what they compute without rounding.
-/

set_option autoImplicit false

namespace PenScript

/-- Arithmetic on coordinates, and the ways in and out of it. -/
class Scalar (α : Type) extends Add α, Sub α, Mul α, Div α, NatCast α where
  /-- Is the number zero, of either sign? -/
  isZero : α → Bool
  /-- The nearest number to a literal. -/
  ofLiteral : Literal → α
  /-- The number equal to an integer. -/
  ofInt32 : Int32 → α
  /-- Truncation toward zero into 32 bits. -/
  toInt32 : α → Int32

namespace Scalar

/-! ## Floats -/

/--
The nearest float to a decimal. Exponents so large that the result overflows or vanishes whatever
the mantissa's digits are settled first, so that no huge power of ten is formed.
-/
def floatOfDecimal (mantissa : Nat) (exponent : Int) : Float :=
  if mantissa = 0 then 0
  else if 400 < exponent then Float.ofBits 0x7FF0000000000000
  else if 0 ≤ exponent then Float.ofScientific mantissa false exponent.toNat
  else if mantissa.log2 + 1101 < 3 * exponent.natAbs then 0
  else Float.ofScientific mantissa true exponent.natAbs

def floatOfLiteral : Literal → Float
  | .decimal negative mantissa exponent =>
      let magnitude := floatOfDecimal mantissa exponent
      if negative then -magnitude else magnitude
  | .infinite negative =>
      if negative then Float.ofBits 0xFFF0000000000000 else Float.ofBits 0x7FF0000000000000
  | .nan => Float.ofBits 0x7FF8000000000000

def floatOfInt (n : Int) : Float :=
  if n < 0 then -Float.ofNat n.natAbs else Float.ofNat n.natAbs

instance : Scalar Float where
  natCast := Float.ofNat
  isZero x := x == 0
  ofLiteral := floatOfLiteral
  ofInt32 n := floatOfInt n.toInt
  toInt32 x := (Binary.ofFloat x).toInt32

/-! ## Rationals -/

/-- A decimal exactly; the special values, which no rational equals, count as zero. -/
def ratOfLiteral : Literal → Rat
  | .decimal negative mantissa exponent =>
      let magnitude := (mantissa : Rat) * (10 : Rat) ^ exponent
      if negative then -magnitude else magnitude
  | .infinite _ => 0
  | .nan => 0

instance : Scalar Rat where
  isZero x := x == 0
  ofLiteral := ratOfLiteral
  ofInt32 n := (n.toInt : Rat)
  toInt32 x := Binary.clampInt32 (x.num.tdiv x.den)

end Scalar
end PenScript
