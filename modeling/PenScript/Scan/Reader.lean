import PenScript.Text.Utf8
import PenScript.Text.Blank
import PenScript.Number.Literal

/-!
# Reading fields from a line

A reader is a position in the bytes of a line together with the bytes from there on. Every step
either takes something and moves on, or reports what is missing and where; a numeric field skips
blanks first, and keeps that much even when it fails.
-/

set_option autoImplicit false

namespace PenScript

inductive Expected where
  | char (c : Char)
  | integer
  | number
  deriving DecidableEq, Repr

/-- Something missing: the 1-based byte column, the number of the field being read, and what. -/
structure Mismatch where
  column : Nat
  field : Option Nat
  expected : Expected
  deriving DecidableEq, Repr

namespace Expected

def text : Expected → String
  | .char c => "`" ++ String.singleton c ++ "`"
  | .integer => "an integer"
  | .number => "a number"

end Expected

def Mismatch.message (m : Mismatch) : String :=
  s!"expected {m.expected.text} at column {m.column}"

/-- A position in bytes, and the bytes from it to the end. -/
structure Reader where
  position : Nat
  rest : List UInt8
  deriving DecidableEq, Repr

namespace Reader

/-- What a step returns: a value or what is missing, and the reader afterwards. -/
abbrev Result (α : Type) := Except Mismatch α × Reader

/-! ## Positions -/

/-- A reader at a byte offset of a line, or at its end if the offset lies beyond. -/
def start (line : List Char) (offset : Nat) : Reader :=
  let bytes := Utf8.encode line
  ⟨min offset bytes.length, bytes.drop offset⟩

def atEnd (r : Reader) : Bool :=
  r.rest.isEmpty

/-- The reader further on, where the given bytes are left. -/
def leaving (r : Reader) (rest : List UInt8) : Reader :=
  ⟨r.position + (r.rest.length - rest.length), rest⟩

def mismatch (r : Reader) (field : Option Nat) (expected : Expected) : Mismatch :=
  ⟨r.position + 1, field, expected⟩

/-! ## Steps -/

def skipBlanks (r : Reader) : Reader :=
  r.leaving (r.rest.dropWhile Blank.isBlankByte)

def char (r : Reader) (c : Char) : Result Unit :=
  match (Utf8.encode [c]).isPrefixOf? r.rest with
  | some rest => (.ok (), r.leaving rest)
  | none => (.error (r.mismatch none (.char c)), r)

def integer (r : Reader) (field : Option Nat) : Result Int32 :=
  let r := r.skipBlanks
  match Literal.takeInteger? r.rest with
  | some (value, rest) => (.ok value, r.leaving rest)
  | none => (.error (r.mismatch field .integer), r)

def number (r : Reader) (field : Option Nat) : Result Literal :=
  let r := r.skipBlanks
  match Literal.takeNumber? r.rest with
  | some (value, rest) => (.ok value, r.leaving rest)
  | none => (.error (r.mismatch field .number), r)

/-- Take the text before the next double quote, and the quote. -/
def untilQuote (r : Reader) : Option (List Char) × Reader :=
  match r.rest.dropWhile (· != 0x22) with
  | [] => (none, r)
  | _ :: rest =>
      match Utf8.decode? (r.rest.takeWhile (· != 0x22)) with
      | some text => (some text, r.leaving rest)
      | none => (none, r)

end Reader
end PenScript
