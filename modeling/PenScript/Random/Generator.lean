import PenScript.Random.ChaCha

/-!
# Random picks

A generator is a key and the number of 64-bit values drawn so far. A pick from `n` items draws
values until one is acceptable; the acceptable ones are so many for each item as for any other.
-/

set_option autoImplicit false

namespace PenScript

/-- A keystream, read as 64-bit values, and the place reached in it. -/
structure Generator where
  key : ChaCha.Key
  drawn : Nat
  deriving DecidableEq, Repr

namespace Generator

/-! ## Seeds -/

/-- One step of the linear congruence that spreads a seed. -/
def advance (state : UInt64) : UInt64 :=
  state * 6364136223846793005 + 11634580027462260723

/-- The word that a state stands for: its middle bits, rotated by its highest five. -/
def scramble (state : UInt64) : UInt32 :=
  let x := (((state >>> 18) ^^^ state) >>> 27).toUInt32
  let turn := (state >>> 59).toUInt32
  (x >>> turn) ||| (x <<< ((32 - turn) % 32))

def spread (seed : UInt64) : Nat → UInt64
  | 0 => seed
  | n + 1 => advance (spread seed n)

def ofKey (key : ChaCha.Key) : Generator :=
  ⟨key, 0⟩

/-- The generator of a seed: its key is the next eight words spread from it. -/
def ofSeed (seed : UInt64) : Generator :=
  ofKey (Vector.ofFn fun i : Fin 8 => scramble (spread seed (i + 1)))

/-! ## Values -/

/-- The value at a place in the keystream, eight to a block, each with its low word first. -/
def valueAt (key : ChaCha.Key) (place : Nat) : UInt64 :=
  let block := ChaCha.block key (UInt64.ofNat (place / 8))
  let word := fun i : Nat => (block[i]?.getD 0).toUInt64
  word (2 * (place % 8)) + (word (2 * (place % 8) + 1) <<< 32)

/-! ## Picks -/

/-- The greatest low half that an acceptable product may have, for `n` items. -/
def zone (n : Nat) : Nat :=
  (n <<< (63 - n.log2)) - 1

/-- Is the value acceptable for a pick from `n` items? -/
def accepts (n : Nat) (value : UInt64) : Bool :=
  value.toNat * n % UInt64.size ≤ zone n

/-- The item that an acceptable value picks. -/
def index (n : Nat) (value : UInt64) : Nat :=
  value.toNat * n / UInt64.size

/-- The number of values after which the keystream repeats: eight in each of its blocks. -/
def period : Nat := 8 * UInt64.size

/-- Draw until a value is acceptable; the count bounds the values still to be tried. -/
def drawBelow (n : Nat) : Nat → Generator → Nat × Generator
  | 0, g => (0, g)
  | count + 1, g =>
      let value := valueAt g.key g.drawn
      let g := { g with drawn := g.drawn + 1 }
      if accepts n value then (index n value, g) else drawBelow n count g

/--
A number below `n`, all equally likely. A keystream without one acceptable value in its whole
period never yields one, and then the first item stands in.
-/
def below (g : Generator) (n : Nat) : Nat × Generator :=
  drawBelow n period g

/-- An item of a list; an empty list gives none and draws nothing. -/
def pick? {α : Type} (g : Generator) (items : Array α) : Option α × Generator :=
  if items.isEmpty then (none, g)
  else
    let (i, g) := g.below items.size
    (items[i]?, g)

end Generator
end PenScript
