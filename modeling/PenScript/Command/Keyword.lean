/-!
# Keywords

The nine commands of the language and the words that name them.
-/

set_option autoImplicit false

namespace PenScript

inductive Keyword where
  | write
  | createObject
  | createList
  | listName
  | drawColor
  | drawPos
  | drawSquare
  | drawCurve
  | endWork
  deriving DecidableEq, Repr

namespace Keyword

def text : Keyword → String
  | .write => "write"
  | .createObject => "create.object"
  | .createList => "create.list"
  | .listName => "list.name"
  | .drawColor => "draw.color"
  | .drawPos => "draw.pos"
  | .drawSquare => "draw.square"
  | .drawCurve => "draw.line.curve"
  | .endWork => "end.work"

def all : List Keyword :=
  [.write, .createObject, .createList, .listName, .drawColor, .drawPos, .drawSquare, .drawCurve,
   .endWork]

def ofWord? (word : List Char) : Option Keyword :=
  all.find? fun keyword => keyword.text.toList == word

end Keyword
end PenScript
