import PenScript.Number.Scalar

/-!
# Points, colors and shapes

Scripts measure from the bottom-left corner of the canvas with y growing upward; shapes are placed
on the surface, whose origin is the top-left corner with y growing downward.
-/

set_option autoImplicit false

namespace PenScript

structure Point (α : Type) where
  x : α
  y : α
  deriving DecidableEq, Repr

/-- A color as a script gives it; no channel is held to any range. -/
structure Rgb where
  red : Int32
  green : Int32
  blue : Int32
  deriving DecidableEq, Repr

structure Canvas (α : Type) where
  width : α
  height : α
  deriving DecidableEq, Repr

structure Vertex (α : Type) where
  position : Point α
  color : Rgb
  deriving DecidableEq, Repr

/-- What is drawn: a filled rectangle from its top-left corner, or a connected line. -/
inductive Shape (α : Type) where
  | rect (corner : Point α) (width height : α) (color : Rgb)
  | polyline (vertices : List (Vertex α))
  deriving DecidableEq, Repr

/-! ## Colors -/

namespace Rgb

def white : Rgb := ⟨255, 255, 255⟩

def lowByte (channel : Int32) : UInt8 :=
  UInt8.ofNat (channel.toInt % 256).toNat

/-- The color that the surface shows: each channel narrowed to its low byte. -/
def shown (color : Rgb) : UInt8 × UInt8 × UInt8 :=
  (lowByte color.red, lowByte color.green, lowByte color.blue)

end Rgb

/-! ## Coordinates -/

namespace Canvas

variable {α : Type} [Scalar α]

def standard : Canvas α :=
  ⟨Nat.cast 800, Nat.cast 600⟩

/-- Both systems measure x from the left edge. -/
def toSurfaceX (_ : Canvas α) (x : α) : α :=
  x

/-- The surface measures y from the top edge down. -/
def toSurfaceY (canvas : Canvas α) (y : α) : α :=
  canvas.height - y

def toSurface (canvas : Canvas α) (p : Point α) : Point α :=
  ⟨canvas.toSurfaceX p.x, canvas.toSurfaceY p.y⟩

end Canvas
end PenScript
