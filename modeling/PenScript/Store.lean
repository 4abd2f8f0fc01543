import Std.Data.TreeMap.Basic
import PenScript.Canvas.Basic

/-!
# The store

Everything that a script can change: the pen's position and color, the scratch list, and the lists
and objects that have names. Names are kept in the order of their UTF-8 bytes.
-/

set_option autoImplicit false

namespace PenScript

structure Store (α : Type) where
  cursor : Point α
  color : Rgb
  scratch : Array α
  lists : Std.TreeMap String (Array α)
  objects : Std.TreeMap String α

namespace Store

variable {α : Type}

def initial (cursor : Point α) (color : Rgb) : Store α :=
  ⟨cursor, color, #[], ∅, ∅⟩

/-! ## Pen -/

def setCursor (store : Store α) (cursor : Point α) : Store α :=
  { store with cursor }

def setColor (store : Store α) (color : Rgb) : Store α :=
  { store with color }

/-! ## Lists -/

def setScratch (store : Store α) (scratch : Array α) : Store α :=
  { store with scratch }

/-- Keep a copy of the scratch list under a name, in place of any list of that name. -/
def nameList (store : Store α) (name : String) : Store α :=
  { store with lists := store.lists.insert name store.scratch }

def list? (store : Store α) (name : String) : Option (Array α) :=
  store.lists[name]?

/-! ## Objects -/

/-- Make an object of value zero, in place of any object of that name. -/
def createObject [Scalar α] (store : Store α) (name : String) : Store α :=
  { store with objects := store.objects.insert name (Nat.cast 0) }

def object? (store : Store α) (name : String) : Option α :=
  store.objects[name]?

def hasObject (store : Store α) (name : String) : Bool :=
  store.objects.contains name

end Store
end PenScript
