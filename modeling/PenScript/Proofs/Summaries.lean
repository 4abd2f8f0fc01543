import PenScript.Canvas.Summary

/-!
# Summaries on one line

No number, no point and no shape is put into words with a line feed.
-/

set_option autoImplicit false

namespace PenScript

/-- The text has no line feed in it. -/
def OneLine (text : String) : Prop :=
  '\n' ∉ text.toList

instance (text : String) : Decidable (OneLine text) :=
  inferInstanceAs (Decidable ('\n' ∉ text.toList))

@[simp] theorem oneLine_append (first later : String) :
    OneLine (first ++ later) ↔ OneLine first ∧ OneLine later := by
  rw [OneLine, String.toList_append, List.mem_append, not_or]
  rfl

/-- Interpolation puts a text into another as it is. -/
@[simp] theorem toString_text (text : String) : toString text = text := rfl

/-! ## Numbers -/

@[simp] theorem oneLine_repr (n : Nat) : OneLine n.repr := by
  intro h
  rw [Nat.repr, String.toList_ofList] at h
  exact absurd (Nat.isDigit_of_mem_toDigits (by decide) (by decide) h) (by decide)

namespace Binary

theorem oneLine_thousandths (n : Nat) : OneLine (thousandths n) := by
  have hpadding : OneLine (if n % 1000 < 10 then "00" else if n % 1000 < 100 then "0" else "") := by
    split
    · decide
    · split <;> decide
  have hpoint : OneLine "." := by decide
  simp [thousandths, hpadding, hpoint]

@[simp] theorem oneLine_toFixed (x : Binary) : OneLine x.toFixed := by
  cases x with
  | finite negative mantissa exponent =>
      have hminus : OneLine "-" := by decide
      cases negative <;> simp [toFixed, hminus, oneLine_thousandths]
  | infinite negative => cases negative <;> decide
  | nan => decide

end Binary

/-! ## Shapes -/

@[simp] theorem Point.oneLine_summary (p : Point Float) : OneLine p.summary := by
  simp +decide [summary]

@[simp] theorem Rgb.oneLine_channelText (channel : Int32) : OneLine (channelText channel) := by
  have hminus : OneLine "-" := by decide
  unfold channelText
  dsimp only
  split <;> simp [hminus]

@[simp] theorem Rgb.oneLine_summary (color : Rgb) : OneLine color.summary := by
  simp +decide [summary]

namespace Shape

/-- What a line's summary says of its ends. -/
def ends (first last : Vertex Float) : String :=
  "from=" ++ first.position.summary ++ "  to=" ++ last.position.summary

theorem summary_polyline (first : Vertex Float) (rest : List (Vertex Float)) :
    summary (.polyline (first :: rest)) =
      "polyline   n=" ++ toString (rest.length + 1) ++ "  " ++
        ends first ((first :: rest).getLast (List.cons_ne_nil _ _)) ++
        "  rgb=" ++ first.color.summary :=
  rfl

theorem summary_rect (corner : Point Float) (width height : Float) (color : Rgb) :
    summary (.rect corner width height color) =
      "fill_rect  pos=" ++ corner.summary ++ "  size=" ++ Point.summary ⟨width, height⟩ ++
        "  rgb=" ++ color.summary :=
  rfl

theorem oneLine_summary (shape : Shape Float) : OneLine shape.summary := by
  have hcolor : OneLine "  rgb=" := by decide
  cases shape with
  | rect corner width height color =>
      have hcorner : OneLine "fill_rect  pos=" := by decide
      have hsize : OneLine "  size=" := by decide
      simp only [summary_rect, oneLine_append, Point.oneLine_summary, Rgb.oneLine_summary, hcorner,
        hsize, hcolor, and_self]
  | polyline vertices =>
      cases vertices with
      | nil => decide
      | cons first rest =>
          have hcount : OneLine "polyline   n=" := by decide
          have hgap : OneLine "  " := by decide
          have hfirst : OneLine "from=" := by decide
          have hlast : OneLine "  to=" := by decide
          simp only [summary_polyline, ends, oneLine_append, Nat.toString_eq_repr, oneLine_repr,
            Point.oneLine_summary, Rgb.oneLine_summary, hcount, hgap, hfirst, hlast, hcolor,
            and_self]

end Shape
end PenScript
