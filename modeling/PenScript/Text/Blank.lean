/-!
# White space

Two classes: the characters with the Unicode property `White_Space`, by which lines and list items
are trimmed, and the five ASCII blanks that are skipped between fields.
-/

set_option autoImplicit false

namespace PenScript.Blank

/-! ## Characters -/

/-- The ranges of the property `White_Space`, by code point. -/
def ranges : List (Nat × Nat) :=
  [(0x09, 0x0D), (0x20, 0x20), (0x85, 0x85), (0xA0, 0xA0), (0x1680, 0x1680), (0x2000, 0x200A),
   (0x2028, 0x2029), (0x202F, 0x202F), (0x205F, 0x205F), (0x3000, 0x3000)]

def isBlank (c : Char) : Bool :=
  ranges.any fun (first, last) => first ≤ c.toNat && c.toNat ≤ last

def trimStart (text : List Char) : List Char :=
  text.dropWhile isBlank

def trimEnd (text : List Char) : List Char :=
  (text.reverse.dropWhile isBlank).reverse

def trim (text : List Char) : List Char :=
  trimEnd (trimStart text)

/-! ## Bytes -/

/-- Tab, line feed, form feed, carriage return and space; a vertical tab is none of them. -/
def isBlankByte (b : UInt8) : Bool :=
  b == 0x09 || b == 0x0A || b == 0x0C || b == 0x0D || b == 0x20

end PenScript.Blank
