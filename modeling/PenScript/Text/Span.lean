/-!
# Byte spans of a text

Places in a text are counted in bytes. A search gives the offset at which a match starts, and a
slice exists only between two character boundaries.
-/

set_option autoImplicit false

namespace PenScript

/-- The bytes from `start` up to `stop`. -/
structure Span where
  start : Nat
  stop : Nat
  deriving DecidableEq, Repr

namespace Span

/-! ## Cutting -/

/-- Move `n` bytes of whole characters from the second text to the reversed first. -/
def cutFrom (before : List Char) : Nat → List Char → Option (List Char × List Char)
  | 0, rest => some (before.reverse, rest)
  | _ + 1, [] => none
  | n + 1, c :: rest =>
      if c.utf8Size ≤ n + 1 then cutFrom (c :: before) (n + 1 - c.utf8Size) rest else none

/-- The text before byte `n` and the text after it; nothing where `n` is no boundary. -/
def cut? (n : Nat) (text : List Char) : Option (List Char × List Char) :=
  cutFrom [] n text

def slice? (text : List Char) (span : Span) : Option (List Char) :=
  if span.stop < span.start then none
  else (cut? span.start text).bind fun (_, rest) =>
    (cut? (span.stop - span.start) rest).map Prod.fst

/-! ## Searching -/

/-- The offset of the first suffix that satisfies `p`, where the text starts at `offset`. -/
def findFrom (p : List Char → Bool) : Nat → List Char → Option Nat
  | _, [] => none
  | offset, c :: rest =>
      if p (c :: rest) then some offset else findFrom p (offset + c.utf8Size) rest

def find? (needle text : List Char) : Option Nat :=
  findFrom needle.isPrefixOf 0 text

def findLast? (c : Char) (text : List Char) : Option Nat :=
  (text.foldl
    (fun (offset, last) d => (offset + d.utf8Size, if d = c then some offset else last))
    (0, none)).2

end Span
end PenScript
