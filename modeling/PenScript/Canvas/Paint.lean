import PenScript.Canvas.Basic

/-!
# Painting

What a surface is told to paint, in single-precision coordinates: the background, then each shape
in order, a line as one stroke for each pair of neighbouring vertices.
-/

set_option autoImplicit false

namespace PenScript

/-- Red, green and blue as the surface takes them. -/
abbrev Paint := UInt8 × UInt8 × UInt8

inductive Mark where
  | fill (left top right bottom : Float32) (paint : Paint)
  | stroke (x₁ y₁ x₂ y₂ : Float32) (width : Float32) (paint : Paint)

namespace Mark

/-! ## Places -/

/-- The canvas's top-left corner on the surface, in either direction. -/
def origin : Float32 := 0

/-- A coordinate on the surface, counted from the canvas's corner. -/
def place (x : Float) : Float32 :=
  origin + x.toFloat32

/-- The rectangle of a size that starts at a given corner. -/
def fillFrom (left top : Float32) (width height : Float) (color : Rgb) : Mark :=
  .fill left top (left + width.toFloat32) (top + height.toFloat32) color.shown

/-! ## Shapes -/

def background (canvas : Canvas Float) (color : Rgb) : Mark :=
  fillFrom origin origin canvas.width canvas.height color

/-- The stroke between two vertices, in the color of the first. -/
def segment (a b : Vertex Float) : Mark :=
  .stroke (place a.position.x) (place a.position.y) (place b.position.x) (place b.position.y) 1
    a.color.shown

def segments (vertices : List (Vertex Float)) : List Mark :=
  List.zipWith segment vertices vertices.tail

def ofShape : Shape Float → List Mark
  | .rect corner width height color =>
      [fillFrom (place corner.x) (place corner.y) width height color]
  | .polyline vertices => segments vertices

def picture (canvas : Canvas Float) (color : Rgb) (shapes : List (Shape Float)) : List Mark :=
  background canvas color :: shapes.flatMap ofShape

end Mark
end PenScript
