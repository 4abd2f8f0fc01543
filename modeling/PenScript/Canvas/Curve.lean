import PenScript.Canvas.Basic

/-!
# Arches

A curve is drawn as an arch: a quadratic Bézier curve between two points of equal height, sampled
at equal steps of its parameter.
-/

set_option autoImplicit false

namespace PenScript.Curve

variable {α : Type} [Scalar α]

/-! ## Bézier curves -/

/-- One coordinate of a quadratic Bézier curve at the parameter `t`. -/
def blend (a b c t : α) : α :=
  let s := Nat.cast 1 - t
  s * s * a + Nat.cast 2 * s * t * b + t * t * c

/-- The point at the parameter `t` of the curve from `a` to `c` with the control point `b`. -/
def bezier (a b c : Point α) (t : α) : Point α :=
  ⟨blend a.x b.x c.x t, blend a.y b.y c.y t⟩

/-! ## Samples -/

def steps : Nat := 50

/-- One point more than steps. -/
def samples : Nat := steps + 1

def stepSize : Float := 0.02

/--
An arch from a point to the point `dx` further right, with its control point `dy` above the middle
of the two. The parameter is computed from the sample's index, so that the last one is exactly 1.
-/
def arch (source : Point α) (dx dy : α) : List (Point α) :=
  let target : Point α := ⟨source.x + dx, source.y⟩
  let control : Point α := ⟨source.x + dx / Nat.cast 2, source.y - dy⟩
  (List.range samples).map fun i => bezier source control target (Nat.cast i / Nat.cast steps)

end PenScript.Curve
