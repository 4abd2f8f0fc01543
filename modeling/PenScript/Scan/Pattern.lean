import PenScript.Scan.Reader
import PenScript.Number.Scalar

/-!
# Field patterns

A pattern says what a line must hold: characters as they stand, integer and number fields, and
places where any run of blanks may stand. Reading a line by a pattern gives the values of the
fields in order, or the first thing missing.
-/

set_option autoImplicit false

namespace PenScript

inductive Item where
  | integer
  | number
  | literal (c : Char)
  | blanks
  deriving DecidableEq, Repr

inductive Field (α : Type) where
  | integer (value : Int32)
  | number (value : α)
  deriving DecidableEq, Repr

/-! ## Fields -/

namespace Field

variable {α : Type} [Scalar α]

def toNumber : Field α → α
  | .integer value => Scalar.ofInt32 value
  | .number value => value

def toInt32 : Field α → Int32
  | .integer value => value
  | .number value => Scalar.toInt32 value

/-- The number in a field; a field that is not there counts as zero. -/
def numberAt (fields : List (Field α)) (index : Nat) : α :=
  (fields[index]?.map toNumber).getD (Nat.cast 0)

def int32At (fields : List (Field α)) (index : Nat) : Int32 :=
  (fields[index]?.map toInt32).getD 0

end Field

/-! ## Patterns -/

abbrev Pattern := List Item

namespace Pattern

/--
A pattern as it is written: `%d` and `%f` are fields, a percent sign makes any other character
after it stand for itself, and white space is where blanks may stand.
-/
def ofText : List Char → Pattern
  | [] => []
  | ['%'] => [.literal '%']
  | '%' :: 'd' :: rest => .integer :: ofText rest
  | '%' :: 'f' :: rest => .number :: ofText rest
  | '%' :: c :: rest => .literal c :: ofText rest
  | c :: rest => (if Blank.isBlank c then .blanks else .literal c) :: ofText rest

variable {α : Type} [Scalar α]

/-- Read by a pattern, counting fields from `index`; what follows the last item is left alone. -/
def readFrom (index : Nat) : Pattern → Reader → Except Mismatch (List (Field α))
  | [], _ => .ok []
  | .integer :: items, r =>
      match r.integer (some index) with
      | (.ok value, r) => (readFrom (index + 1) items r).map (.integer value :: ·)
      | (.error e, _) => .error e
  | .number :: items, r =>
      match r.number (some index) with
      | (.ok value, r) =>
          (readFrom (index + 1) items r).map (.number (Scalar.ofLiteral value) :: ·)
      | (.error e, _) => .error e
  | .literal c :: items, r =>
      match r.char c with
      | (.ok _, r) => readFrom index items r
      | (.error e, _) => .error e
  | .blanks :: items, r => readFrom index items r.skipBlanks

/-- The fields of a line from a byte offset on. -/
def read (pattern : Pattern) (line : List Char) (offset : Nat) :
    Except Mismatch (List (Field α)) :=
  readFrom 0 pattern (Reader.start line offset)

end Pattern
end PenScript
