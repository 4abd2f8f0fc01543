/-!
# UTF-8

The bytes of a text, and the text of a byte string. Bytes that decode to nothing are reported one
maximal piece at a time: a piece is the longest run that starts like a character without finishing
one, or a single byte that starts no character.
-/

set_option autoImplicit false

namespace PenScript.Utf8

/-! ## Writing -/

def encode (text : List Char) : List UInt8 :=
  text.flatMap String.utf8EncodeChar

def size (text : List Char) : Nat :=
  text.foldr (fun c n => c.utf8Size + n) 0

/-! ## Reading -/

/--
Between two bytes the decoder stands at a character boundary, or inside a character: the next byte
must lie between `low` and `high`, `owed` continuation bytes follow it, and `value` is what the
bytes so far are worth.
-/
inductive State where
  | boundary
  | inside (low high : UInt8) (owed value : Nat)
  deriving DecidableEq, Repr

/-- One step's result: the new state, and the characters finished (`none` for a bad piece). -/
abbrev Step := State × List (Option Char)

/-- A byte that follows a boundary. The bounds rule out overlong forms and surrogates. -/
def lead (b : UInt8) : Step :=
  if b < 0x80 then (.boundary, [some (Char.ofNat b.toNat)])
  else if b < 0xC2 then (.boundary, [none])
  else if b < 0xE0 then (.inside 0x80 0xBF 0 (b.toNat - 0xC0), [])
  else if b < 0xF0 then
    (.inside (if b = 0xE0 then 0xA0 else 0x80) (if b = 0xED then 0x9F else 0xBF) 1
      (b.toNat - 0xE0), [])
  else if b < 0xF5 then
    (.inside (if b = 0xF0 then 0x90 else 0x80) (if b = 0xF4 then 0x8F else 0xBF) 2
      (b.toNat - 0xF0), [])
  else (.boundary, [none])

/-- A byte that cannot continue the open character ends it as a bad piece and is read afresh. -/
def step : State → UInt8 → Step
  | .boundary, b => lead b
  | .inside low high owed value, b =>
      if low ≤ b ∧ b ≤ high then
        let value := 64 * value + b.toNat % 64
        match owed with
        | 0 => (.boundary, [some (Char.ofNat value)])
        | owed + 1 => (.inside 0x80 0xBF owed value, [])
      else
        let (next, units) := lead b
        (next, none :: units)

def finish : State → List (Option Char)
  | .boundary => []
  | .inside .. => [none]

/-- The characters of a byte string in order, `none` for each bad piece. -/
def units (bytes : List UInt8) : List (Option Char) :=
  let (state, read) := bytes.foldl
    (fun (state, read) b => let (next, new) := step state b; (next, read ++ new))
    (State.boundary, (#[] : Array (Option Char)))
  (read ++ finish state).toList

def isValid (bytes : List UInt8) : Bool :=
  (units bytes).all Option.isSome

/-- The text of a byte string, each bad piece replaced by U+FFFD. -/
def decodeLossy (bytes : List UInt8) : List Char :=
  (units bytes).map (·.getD '\uFFFD')

def decode? (bytes : List UInt8) : Option (List Char) :=
  if isValid bytes then some (decodeLossy bytes) else none

end PenScript.Utf8
