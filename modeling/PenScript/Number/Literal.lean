import PenScript.Text.Utf8

/-!
# Numbers in text

The decimal grammar over bytes: an optional sign, digits with an optional point and at least one
digit, and an optional exponent. A reader takes the longest number at the front of the bytes; a
whole text is a number when nothing is left over, or when it spells infinity or not-a-number.
-/

set_option autoImplicit false

namespace PenScript

/-- A number as written: `mantissa * 10 ^ exponent` with a sign, or a special value. -/
inductive Literal where
  | decimal (negative : Bool) (mantissa : Nat) (exponent : Int)
  | infinite (negative : Bool)
  | nan
  deriving DecidableEq, Repr

namespace Literal

/-! ## Digits and signs -/

def isDigit (b : UInt8) : Bool :=
  0x30 ≤ b && b ≤ 0x39

def digitsValue (digits : List UInt8) : Nat :=
  digits.foldl (fun value d => 10 * value + (d.toNat - 0x30)) 0

/--
The value of an exponent's digits. Once it has passed every exponent that a number can use, further
digits are not counted.
-/
def exponentValue (digits : List UInt8) : Nat :=
  digits.foldl (fun value d => if value < 65536 then 10 * value + (d.toNat - 0x30) else value) 0

/-- Take one leading sign; the flag tells whether it is a minus. -/
def takeSign : List UInt8 → Bool × List UInt8
  | [] => (false, [])
  | b :: rest =>
      if b = 0x2D then (true, rest) else if b = 0x2B then (false, rest) else (false, b :: rest)

def signed (negative : Bool) (n : Nat) : Int :=
  if negative then -n else n

/-! ## Numbers at the front of the bytes -/

/-- The digits before and after an optional point, and the rest. -/
def takeMantissa (bytes : List UInt8) : List UInt8 × List UInt8 × List UInt8 :=
  let whole := bytes.takeWhile isDigit
  match bytes.dropWhile isDigit with
  | [] => (whole, [], [])
  | b :: rest =>
      if b = 0x2E then (whole, rest.takeWhile isDigit, rest.dropWhile isDigit)
      else (whole, [], b :: rest)

/-- An exponent, or nothing taken where the mark `e` has no digits behind it. -/
def takeExponent : List UInt8 → Int × List UInt8
  | [] => (0, [])
  | b :: rest =>
      if b = 0x65 ∨ b = 0x45 then
        let (negative, body) := takeSign rest
        let digits := body.takeWhile isDigit
        if digits.isEmpty then (0, b :: rest)
        else (signed negative (exponentValue digits), body.dropWhile isDigit)
      else (0, b :: rest)

/-- The longest decimal number at the front of the bytes, and the rest. -/
def takeNumber? (bytes : List UInt8) : Option (Literal × List UInt8) :=
  let (negative, body) := takeSign bytes
  let (whole, fraction, rest) := takeMantissa body
  if whole.isEmpty && fraction.isEmpty then none
  else
    let (exponent, rest) := takeExponent rest
    some (.decimal negative (digitsValue (whole ++ fraction)) (exponent - fraction.length), rest)

def isInt32 (n : Int) : Bool :=
  Int32.minValue.toInt ≤ n && n ≤ Int32.maxValue.toInt

/-- The whole signed run of digits at the front of the bytes, if 32 bits hold it. -/
def takeInteger? (bytes : List UInt8) : Option (Int32 × List UInt8) :=
  let (negative, body) := takeSign bytes
  let digits := body.takeWhile isDigit
  let value := signed negative (digitsValue digits)
  if digits.isEmpty || !isInt32 value then none
  else some (Int32.ofInt value, body.dropWhile isDigit)

/-! ## Whole texts -/

def lower (b : UInt8) : UInt8 :=
  if 0x41 ≤ b ∧ b ≤ 0x5A then b + 0x20 else b

/-- Are the bytes a given word of small letters, in any case? -/
def spells (bytes : List UInt8) (word : String) : Bool :=
  bytes.map lower == Utf8.encode word.toList

/-- The special values, after an optional sign. -/
def special? (bytes : List UInt8) : Option Literal :=
  let (negative, body) := takeSign bytes
  if spells body "inf" || spells body "infinity" then some (.infinite negative)
  else if spells body "nan" then some .nan
  else none

def ofBytes? (bytes : List UInt8) : Option Literal :=
  match takeNumber? bytes with
  | some (literal, []) => some literal
  | _ => special? bytes

end Literal
end PenScript
