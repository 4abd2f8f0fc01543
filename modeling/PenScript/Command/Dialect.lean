import PenScript.Command.Keyword
import PenScript.Text.Blank
import PenScript.Text.Span
import PenScript.Text.Utf8

/-!
# Dialects

How a line is told apart from others: whether it is skipped, which command it holds and from which
byte on, and whether it ends the script. The strict dialect looks at the leading word; the legacy
dialect looks for fixed texts anywhere in the line, in a fixed order.
-/

set_option autoImplicit false

namespace PenScript

inductive Dialect where
  | strict
  | legacy
  deriving DecidableEq, Repr

namespace Dialect

def comment : List Char := "//".toList

def terminator : List Char := Keyword.endWork.text.toList

/-! ## The leading word -/

/-- A word ends at an opening bracket of either kind or at white space. -/
def endsWord (c : Char) : Bool :=
  c == '(' || c == '[' || Blank.isBlank c

def leadingWord (line : List Char) : Span :=
  let offset := Utf8.size (line.takeWhile Blank.isBlank)
  let word := (Blank.trimStart line).takeWhile fun c => !endsWord c
  ⟨offset, offset + Utf8.size word⟩

def findLeading (line : List Char) : Option (Keyword × Nat) := do
  let span := leadingWord line
  let word ← span.slice? line
  let keyword ← Keyword.ofWord? word
  return (keyword, span.start)

/-! ## Fixed texts anywhere -/

/-- What the legacy dialect looks for; the first entry that occurs decides. -/
def needles : List (Keyword × String) :=
  [(.write, "write(\""),
   (.createObject, "create.object(\""),
   (.createList, "create.list["),
   (.listName, "list.name(\""),
   (.drawColor, "draw.color"),
   (.drawPos, "draw.pos"),
   (.drawSquare, "draw.square"),
   (.drawCurve, "draw.line.curve")]

def findAnywhere (line : List Char) : Option (Keyword × Nat) :=
  needles.findSome? fun (keyword, needle) =>
    (Span.find? needle.toList line).map fun offset => (keyword, offset)

/-! ## Lines -/

/-- Is the line empty or a comment? Only the strict dialect looks past white space. -/
def skips : Dialect → List Char → Bool
  | .strict, line =>
      let text := Blank.trim line
      text.isEmpty || comment.isPrefixOf text
  | .legacy, line => line.isEmpty || comment.isPrefixOf line

/-- The command of a line, and the byte its keyword starts at. -/
def recognize : Dialect → List Char → Option (Keyword × Nat)
  | .strict, line => findLeading line
  | .legacy, line => findAnywhere line

def stops : Dialect → List Char → Bool
  | .strict, line =>
      !skips .strict line && (recognize .strict line).any fun (keyword, _) => keyword = .endWork
  | .legacy, line => (Span.find? terminator line).isSome

end Dialect
end PenScript
