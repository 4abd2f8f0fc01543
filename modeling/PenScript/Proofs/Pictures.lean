import PenScript.Canvas.Paint
import PenScript.Proofs.Stamps
import Mathlib.Data.List.Forall2

/-!
# Pictures

What is painted for the shapes that a pass hands out: one mark for a square, and for a curve fifty
strokes without a gap between them.
-/

set_option autoImplicit false

namespace PenScript

/-! ## Shapes by kind -/

namespace Shape

variable {α : Type}

def isRect : Shape α → Bool
  | .rect .. => true
  | .polyline _ => false

def isPolyline : Shape α → Bool
  | .rect .. => false
  | .polyline _ => true

end Shape

/-! ## Colors and places -/

namespace Rgb

/-- The low bytes of the three channels. -/
def lowBytes (color : Rgb) : Paint :=
  (color.red.toUInt32.toUInt8, color.green.toUInt32.toUInt8, color.blue.toUInt32.toUInt8)

theorem lowByte_eq (channel : Int32) : lowByte channel = channel.toUInt32.toUInt8 := by
  have hsigned : channel.toInt = (channel.toUInt32.toNat : Int).bmod (2 ^ 32) :=
    BitVec.toInt_eq_toNat_bmod channel.toBitVec
  have hdvd : (256 : Int) ∣ (2 ^ 32 : Nat) := by decide
  -- The sign moves a channel by 2 ^ 32, which the low byte does not see.
  have hlow : channel.toInt % 256 = (channel.toUInt32.toNat : Int) % 256 := by
    rw [hsigned, ← Int.emod_emod_of_dvd _ hdvd, Int.bmod_emod, Int.emod_emod_of_dvd _ hdvd]
  rw [lowByte, ← UInt8.toNat_inj, UInt8.toNat_ofNat', UInt32.toNat_toUInt8]
  omega

theorem shown_eq_lowBytes (color : Rgb) : color.shown = color.lowBytes := by
  simp only [shown, lowBytes, lowByte_eq]

end Rgb

namespace Mark

/-- A point of a shape in single precision, with the corner of the canvas at zero. -/
def onSurface (p : Point Float) : Point Float32 :=
  ⟨0 + p.x.toFloat32, 0 + p.y.toFloat32⟩

theorem place_eq (x : Float) : place x = 0 + x.toFloat32 :=
  rfl

theorem fillFrom_eq (left top : Float32) (width height : Float) (color : Rgb) :
    fillFrom left top width height color =
      .fill left top (left + width.toFloat32) (top + height.toFloat32) color.lowBytes := by
  rw [fillFrom, Rgb.shown_eq_lowBytes]

theorem segment_eq (a b : Vertex Float) :
    segment a b = .stroke (onSurface a.position).x (onSurface a.position).y
      (onSurface b.position).x (onSurface b.position).y 1 a.color.lowBytes := by
  simp only [segment, place_eq, Rgb.shown_eq_lowBytes, onSurface]

/-! ## Lines -/

/-- Strokes of one color from a point to another, each beginning where the one before it ends. -/
inductive Path (paint : Paint) : Point Float32 → List Mark → Point Float32 → Prop where
  | nil (p : Point Float32) : Path paint p [] p
  | cons {p q r : Point Float32} {marks : List Mark} (hrest : Path paint q marks r) :
      Path paint p (.stroke p.x p.y q.x q.y 1 paint :: marks) r

theorem path_segments {vertices : List (Vertex Float)} {first last : Vertex Float} {color : Rgb}
    (hfirst : vertices.head? = some first) (hlast : vertices.getLast? = some last)
    (hcolors : ∀ v ∈ vertices, v.color = color) :
    Path color.lowBytes (onSurface first.position) (segments vertices)
      (onSurface last.position) := by
  induction vertices generalizing first with
  | nil => cases hfirst
  | cons v rest ih =>
      cases hfirst
      cases rest with
      | nil =>
          cases hlast
          exact .nil _
      | cons w rest =>
          obtain ⟨hcolor, hrest⟩ := List.forall_mem_cons.mp hcolors
          have hpath := ih rfl (by rwa [List.getLast?_cons_cons] at hlast) hrest
          have hsegments : segments (v :: w :: rest) = segment v w :: segments (w :: rest) := rfl
          rw [hsegments, segment_eq, hcolor]
          exact .cons hpath

theorem length_segments (vertices : List (Vertex Float)) :
    (segments vertices).length = vertices.length - 1 := by
  simp [segments]

theorem getElem?_segments {vertices : List (Vertex Float)} {i : Nat}
    (h : i + 1 < vertices.length) :
    (segments vertices)[i]? = some (segment vertices[i] vertices[i + 1]) := by
  simp [segments, List.getElem?_zipWith, h, Nat.lt_of_succ_lt h]

/-! ## Shapes -/

/--
What is painted for a shape: its one mark, or fifty strokes from its first vertex to its last in the
color of all its vertices.
-/
inductive Paints : Shape Float → List Mark → Prop where
  | rect (corner : Point Float) (width height : Float) (color : Rgb) :
      Paints (.rect corner width height color)
        [.fill (0 + corner.x.toFloat32) (0 + corner.y.toFloat32)
          (0 + corner.x.toFloat32 + width.toFloat32) (0 + corner.y.toFloat32 + height.toFloat32)
          color.lowBytes]
  | polyline {vertices : List (Vertex Float)} {first last : Vertex Float} {color : Rgb}
      {marks : List Mark} (hfirst : vertices.head? = some first)
      (hlast : vertices.getLast? = some last) (hcolors : ∀ v ∈ vertices, v.color = color)
      (hlength : marks.length = 50)
      (hpath : Path color.lowBytes (onSurface first.position) marks (onSurface last.position)) :
      Paints (.polyline vertices) marks

theorem paints_of_stamped {cursor : Point Float} {color : Rgb} {command : Command Float}
    {shape : Shape Float} (h : Stamped cursor color command shape) :
    Paints shape (ofShape shape) := by
  cases h with
  | square choice fixed side =>
      rw [ofShape, fillFrom_eq, place_eq, place_eq]
      exact .rect cursor side side color
  | @curve dx dy vertices hlength _ hcolors =>
      have hfifty : (segments vertices).length = 50 := by rw [length_segments, hlength]
      have hne : vertices ≠ [] := by
        rintro rfl
        cases hlength
      have hfirst := List.head?_eq_some_head hne
      have hlast := List.getLast?_eq_some_getLast hne
      exact .polyline hfirst hlast hcolors hfifty (path_segments hfirst hlast hcolors)

theorem forall₂_paints {shapes : List (Shape Float)}
    (h : ∀ shape ∈ shapes, Paints shape (ofShape shape)) :
    List.Forall₂ Paints shapes (shapes.map ofShape) := by
  rw [List.forall₂_map_right_iff, List.forall₂_same]
  exact h

theorem length_flatten_of_paints {shapes : List (Shape Float)} {groups : List (List Mark)}
    (h : List.Forall₂ Paints shapes groups) :
    groups.flatten.length = shapes.countP Shape.isRect + 50 * shapes.countP Shape.isPolyline := by
  induction h with
  | nil => rfl
  | cons hshape _ ih =>
      rw [List.flatten_cons, List.length_append, ih]
      cases hshape with
      | rect corner width height color =>
          rw [List.countP_cons_of_pos rfl, List.countP_cons_of_neg Bool.false_ne_true,
            List.length_singleton]
          omega
      | polyline _ _ _ hlength _ =>
          rw [List.countP_cons_of_neg Bool.false_ne_true, List.countP_cons_of_pos rfl, hlength]
          omega

end Mark

/-! ## Passes -/

namespace Session

open Mark

theorem paints_of_mem {settings : Settings Float} {entropy : ChaCha.Key} {limit : Option Nat}
    {calls : List Call} {v : Visit Float} {pass : Pass Float} {shape : Shape Float}
    (hv : v ∈ (start settings entropy limit).visits calls) (hpass : v.outcome = .ok pass)
    (hshape : shape ∈ pass.shapes.toList) : Paints shape (ofShape shape) := by
  have hhanded : shape ∈ v.handedOut := by
    rw [Visit.handedOut, hpass]
    exact hshape
  obtain ⟨e, -, he⟩ := exists_execution_of_shape
    (List.mem_append_left _ (List.mem_flatMap_of_mem hv hhanded))
  obtain ⟨command, -, hstamped⟩ := Execution.stamped_of_shape? he
  exact paints_of_stamped hstamped

/--
For every pass that is handed out, the background is painted and then each of its shapes in order:
one mark for a square, and for a curve fifty strokes from its first vertex to its last in their one
color. Of any polyline, each stroke joins two neighbouring vertices in the color of the first.
-/
theorem picture_of_visits (settings : Settings Float) (entropy : ChaCha.Key) (limit : Option Nat)
    (calls : List Call) (v : Visit Float) (pass : Pass Float)
    (hv : v ∈ (start settings entropy limit).visits calls) (hpass : v.outcome = .ok pass)
    (canvas : Canvas Float) (color : Rgb) :
    let shapes := pass.shapes.toList
    (∃ groups, List.Forall₂ Paints shapes groups ∧
      picture canvas color shapes =
        .fill 0 0 (0 + canvas.width.toFloat32) (0 + canvas.height.toFloat32) color.lowBytes ::
          groups.flatten) ∧
    (picture canvas color shapes).length =
      1 + shapes.countP Shape.isRect + 50 * shapes.countP Shape.isPolyline ∧
    ∀ vertices : List (Vertex Float),
      (ofShape (.polyline vertices)).length = vertices.length - 1 ∧
      ∀ i (h : i + 1 < vertices.length), (ofShape (.polyline vertices))[i]? =
        some (.stroke (0 + vertices[i].position.x.toFloat32) (0 + vertices[i].position.y.toFloat32)
          (0 + vertices[i + 1].position.x.toFloat32) (0 + vertices[i + 1].position.y.toFloat32) 1
          vertices[i].color.lowBytes) := by
  intro shapes
  have hgroups : List.Forall₂ Paints shapes (shapes.map ofShape) :=
    forall₂_paints fun _ hshape => paints_of_mem hv hpass hshape
  have hpicture : picture canvas color shapes =
      .fill 0 0 (0 + canvas.width.toFloat32) (0 + canvas.height.toFloat32) color.lowBytes ::
        (shapes.map ofShape).flatten := by
    rw [picture, List.flatMap_def, background, fillFrom_eq, origin]
  refine ⟨⟨_, hgroups, hpicture⟩, ?_, ?_⟩
  · rw [hpicture, List.length_cons, length_flatten_of_paints hgroups]
    omega
  · intro vertices
    refine ⟨length_segments vertices, fun i h => ?_⟩
    rw [ofShape, getElem?_segments h, segment_eq]
    rfl

theorem picture_of_square_and_curve :
    let s : Session Float := start Settings.standard (.replicate 8 0) none
    let source : Source :=
      ⟨Utf8.encode "draw.square(L:1)\ndraw.line.curve(x:9 y:5)\n".toList, none⟩
    let v : Visit Float := ⟨s, .run source⟩
    ∃ pass, v ∈ s.visits [v.call] ∧ v.outcome = .ok pass ∧
      pass.shapes.toList.map Shape.isRect = [true, false] ∧
      (picture .standard .white pass.shapes.toList).length = 52 := by
  intro s source v
  have hv : v ∈ s.visits [v.call] := List.mem_singleton_self v
  have hpass : v.outcome = .ok (s.passOf (s.ranLines source)) :=
    outcome_of_ended s source (Or.inr rfl)
  have hrects : (s.passOf (s.ranLines source)).shapes.toList.countP Shape.isRect = 1 := by
    decide +kernel
  have hcurves : (s.passOf (s.ranLines source)).shapes.toList.countP Shape.isPolyline = 1 := by
    decide +kernel
  obtain ⟨-, hlength, -⟩ := picture_of_visits _ _ _ _ v _ hv hpass .standard .white
  rw [hrects, hcurves] at hlength
  exact ⟨_, hv, hpass, by decide +kernel, hlength⟩

end Session
end PenScript
