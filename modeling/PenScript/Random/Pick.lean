import PenScript.Random.Generator
import PenScript.Store

/-!
# Picks from named lists

A list that is not there gives no pick, like an empty one, and leaves the generator as it is.
-/

set_option autoImplicit false

namespace PenScript.Generator

variable {α : Type}

def pickNamed? (g : Generator) (store : Store α) (name : String) : Option α × Generator :=
  match store.list? name with
  | none => (none, g)
  | some values => g.pick? values

/-- An item of a named list, or zero. -/
def pickNamed [Scalar α] (g : Generator) (store : Store α) (name : String) : α × Generator :=
  let (pick, g) := g.pickNamed? store name
  (pick.getD (Nat.cast 0), g)

end PenScript.Generator
