import PenScript.Command.Error
import PenScript.Command.Dialect
import PenScript.Canvas.Basic
import PenScript.Scan.Pattern
import PenScript.Text.Split

/-!
# Commands

A command with its arguments, and how the arguments are taken from a line. Quotes, brackets and a
random choice are looked for in the whole line; the other arguments are read by a pattern from the
keyword on.
-/

set_option autoImplicit false

namespace PenScript

/--
A command. A square with a choice keeps its fixed side for want of a pick, readable or not; one
without a choice has a readable side.
-/
inductive Command (α : Type) where
  | write (text : String)
  | createObject (name : String)
  | createList (values : List α)
  | listName (name : String)
  | drawColor (color : Rgb)
  | drawPos (position : Point α)
  | drawSquare (choice : Option String) (side : Except Mismatch α)
  | drawCurve (dx dy : α)
  | endWork

namespace Command

def keyword {α : Type} : Command α → Keyword
  | .write _ => .write
  | .createObject _ => .createObject
  | .createList _ => .createList
  | .listName _ => .listName
  | .drawColor _ => .drawColor
  | .drawPos _ => .drawPos
  | .drawSquare .. => .drawSquare
  | .drawCurve .. => .drawCurve
  | .endWork => .endWork

/-! ## Quoted text -/

/-- What stands between the first and the last quote of a line. -/
def quotedSpan? (line : List Char) : Option Span := do
  let first ← Span.find? ['"'] line
  let last ← Span.findLast? '"' line
  if first + 1 ≤ last then some ⟨first + 1, last⟩ else none

def quoted? (line : List Char) : Option (List Char) :=
  (quotedSpan? line).bind fun span => span.slice? line

def quotedArgument (line : List Char) : Except Cause String :=
  match quoted? line with
  | some text => .ok (String.ofList text)
  | none => .error .missingQuote

/-! ## Lists of numbers -/

/-- What stands between the first opening and the first closing bracket of a line. -/
def bracketSpan? (line : List Char) : Option Span := do
  let first ← Span.find? ['['] line
  let last ← Span.find? [']'] line
  if first < last then some ⟨first + 1, last⟩ else none

/-- The items between commas; an empty piece at the very end is none. -/
def items (text : List Char) : List (List Char) :=
  let pieces := Split.pieces ',' text
  if pieces.getLast? = some [] then pieces.dropLast else pieces

variable {α : Type} [Scalar α]

def itemValue (item : List Char) : Except Cause α :=
  let text := Blank.trim item
  match Literal.ofBytes? (Utf8.encode text) with
  | some literal => .ok (Scalar.ofLiteral literal)
  | none => .error (.badNumber (String.ofList text))

def listArgument (line : List Char) : Except Cause (List α) :=
  match (bracketSpan? line).bind fun span => span.slice? line with
  | some text => (items text).mapM itemValue
  | none => .error .missingBracket

/-! ## Random choices -/

def choiceOpening : List Char := "random.choice(".toList

/-- The name of the list to choose from, where the line asks for a choice. -/
def choiceArgument (line : List Char) : Except Cause (Option String) :=
  match Span.find? choiceOpening line with
  | none => .ok none
  | some offset =>
      match (Reader.start line (offset + Utf8.size choiceOpening)).skipBlanks.char '"' with
      | (.error e, _) => .error (.mismatch e)
      | (.ok _, r) =>
          match r.untilQuote with
          | (some name, _) => .ok (some (String.ofList name))
          | (none, _) => .error .missingQuote

/-! ## Patterns -/

def colorPattern : Pattern := .ofText "draw.color(R:%d G:%d B:%d)".toList

def positionPattern : Pattern := .ofText "draw.pos(x:%f y:%f)".toList

def sidePattern : Pattern := .ofText "draw.square(L:%f)".toList

def curvePattern : Pattern := .ofText "draw.line.curve(x:%f y:%f)".toList

/-- The fields of a line, or the cause why it has them not. -/
def fields (pattern : Pattern) (line : List Char) (offset : Nat) : Except Cause (List (Field α)) :=
  (pattern.read line offset).mapError .mismatch

def sideArgument (line : List Char) (offset : Nat) : Except Mismatch α :=
  (sidePattern.read line offset).map fun fields => Field.numberAt fields 0

/-! ## Whole commands -/

/-- The command of a line, given its keyword and the byte at which that starts. -/
def ofLine (keyword : Keyword) (line : List Char) (offset : Nat) : Except Cause (Command α) :=
  match keyword with
  | .write => (quotedArgument line).map .write
  | .createObject => (quotedArgument line).map .createObject
  | .createList => (listArgument line).map .createList
  | .listName => (quotedArgument line).map .listName
  | .drawColor => do
      let values : List (Field α) ← fields colorPattern line offset
      return .drawColor
        ⟨Field.int32At values 0, Field.int32At values 1, Field.int32At values 2⟩
  | .drawPos => do
      let values ← fields positionPattern line offset
      return .drawPos ⟨Field.numberAt values 0, Field.numberAt values 1⟩
  | .drawSquare => do
      let choice ← choiceArgument line
      match choice, sideArgument line offset with
      | none, .error e => .error (.mismatch e)
      | choice, side => return .drawSquare choice side
  | .drawCurve => do
      let values ← fields curvePattern line offset
      return .drawCurve (Field.numberAt values 0) (Field.numberAt values 1)
  | .endWork => .ok .endWork

end Command
end PenScript
