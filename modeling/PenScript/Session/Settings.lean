import PenScript.Canvas.Basic
import PenScript.Command.Dialect

/-!
# Settings

What is fixed before a script runs.
-/

set_option autoImplicit false

namespace PenScript

/-- The cursor is given in script coordinates; without a seed, picks differ from run to run. -/
structure Settings (α : Type) where
  canvas : Canvas α
  background : Rgb
  color : Rgb
  cursor : Point α
  title : String
  script : String
  dialect : Dialect
  seed : Option UInt64
  deriving Repr

namespace Settings

def defaultScript : String := "script.xnss"

/-- A white pen, fifty above the bottom-left corner of a dark canvas. -/
def standard {α : Type} [Scalar α] : Settings α where
  canvas := .standard
  background := ⟨30, 30, 30⟩
  color := .white
  cursor := ⟨Nat.cast 0, Nat.cast 50⟩
  title := "XNSS Engine 4.0"
  script := defaultScript
  dialect := .strict
  seed := none

end Settings
end PenScript
