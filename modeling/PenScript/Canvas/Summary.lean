import PenScript.Canvas.Basic

/-!
# Shapes in words

One line of text for each shape, with coordinates to three places.
-/

set_option autoImplicit false

namespace PenScript

def Point.summary (p : Point Float) : String :=
  s!"({(Binary.ofFloat p.x).toFixed}, {(Binary.ofFloat p.y).toFixed})"

def Rgb.channelText (channel : Int32) : String :=
  let n := channel.toInt
  if n < 0 then s!"-{n.natAbs}" else s!"{n.natAbs}"

def Rgb.summary (color : Rgb) : String :=
  s!"({channelText color.red}, {channelText color.green}, {channelText color.blue})"

/-- A rectangle with its size and color; a line with its ends and the color of its first vertex. -/
def Shape.summary : Shape Float → String
  | .rect corner width height color =>
      let size : Point Float := ⟨width, height⟩
      s!"fill_rect  pos={corner.summary}  size={size.summary}  rgb={color.summary}"
  | .polyline [] => "polyline  (empty)"
  | .polyline (first :: rest) =>
      let last := (first :: rest).getLast (by simp)
      let count := rest.length + 1
      let ends := s!"from={first.position.summary}  to={last.position.summary}"
      s!"polyline   n={count}  {ends}  rgb={first.color.summary}"

end PenScript
