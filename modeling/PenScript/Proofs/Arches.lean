import PenScript.Proofs.Stamps
import Mathlib.Algebra.Order.Field.Basic
import Mathlib.Algebra.Order.Ring.Rat
import Mathlib.Tactic.Linarith
import Mathlib.Tactic.Positivity
import Mathlib.Tactic.Ring

/-!
# Arches without rounding

Over the rationals the samples of an arch lie on a parabola: they go from the pen to a point of the
same height in equal steps, and their middle one stands out by half of the control point's height.
-/

set_option autoImplicit false

namespace PenScript

namespace Curve

/-! ## The parabola -/

/-- The part of the control point's height by which a sample is lifted. -/
def lift (i : Nat) : Rat :=
  2 * (i / 50) * (1 - i / 50)

def sample (source : Point Rat) (dx dy : Rat) (i : Nat) : Point Rat :=
  ⟨source.x + dx * i / 50, source.y - lift i * dy⟩

theorem blend_eq (a b c t : Rat) :
    blend a b c t = a + 2 * (1 - t) * t * (b - a) + t * t * (c - a) := by
  change (1 - t) * (1 - t) * a + 2 * (1 - t) * t * b + t * t * c = _
  ring

theorem arch_eq_map_sample (source : Point Rat) (dx dy : Rat) :
    arch source dx dy = (List.range 51).map (sample source dx dy) := by
  have harch : arch source dx dy = (List.range 51).map fun i : Nat =>
      bezier source ⟨source.x + dx / 2, source.y - dy⟩ ⟨source.x + dx, source.y⟩
        ((i : Rat) / 50) := rfl
  rw [harch]
  refine List.map_congr_left fun i _ => ?_
  rw [bezier, blend_eq, blend_eq, sample, lift]
  congr 1 <;> ring

theorem getElem?_arch_of_le {source : Point Rat} {dx dy : Rat} {i : Nat} (h : i ≤ 50) :
    (arch source dx dy)[i]? = some (sample source dx dy i) := by
  rw [arch_eq_map_sample, List.getElem?_map, List.getElem?_range (Nat.lt_succ_of_le h)]
  rfl

theorem sample_of_getElem? {source : Point Rat} {dx dy : Rat} {i : Nat} {p : Point Rat}
    (h : (arch source dx dy)[i]? = some p) : i ≤ 50 ∧ sample source dx dy i = p := by
  have hlt : i < (arch source dx dy).length := (List.getElem?_eq_some_iff.mp h).1
  rw [length_arch] at hlt
  have hle : i ≤ 50 := Nat.le_of_lt_succ hlt
  rw [getElem?_arch_of_le hle] at h
  exact ⟨hle, Option.some.inj h⟩

/-! ## Heights -/

theorem lift_eq (i : Nat) : lift i = 1 / 2 - 2 * ((i : Rat) / 50 - 1 / 2) ^ 2 := by
  rw [lift]
  ring

theorem lift_nonneg {i : Nat} (h : i ≤ 50) : 0 ≤ lift i := by
  have hle : (i : Rat) ≤ 50 := by exact_mod_cast h
  have hpart : (0 : Rat) ≤ 1 - (i : Rat) / 50 := by linarith
  exact mul_nonneg (by positivity) hpart

theorem lift_le (i : Nat) : lift i ≤ 1 / 2 := by
  have hsquare : 0 ≤ ((i : Rat) / 50 - 1 / 2) ^ 2 := sq_nonneg _
  rw [lift_eq]
  linarith

/-- The control point's height takes effect by its half in the middle, and by less anywhere else. -/
theorem lift_eq_half_iff (i : Nat) : lift i = 1 / 2 ↔ i = 25 := by
  rw [lift_eq]
  constructor
  · intro h
    have hsquare : ((i : Rat) / 50 - 1 / 2) ^ 2 = 0 := by linarith
    have hmiddle : (i : Rat) / 50 - 1 / 2 = 0 := (pow_eq_zero_iff two_ne_zero).mp hsquare
    have hcast : (i : Rat) = (25 : Nat) := by
      push_cast
      linarith
    exact_mod_cast hcast
  · rintro rfl
    norm_num

theorem lift_sub {i : Nat} (h : i ≤ 50) : lift (50 - i) = lift i := by
  rw [lift, lift, Nat.cast_sub h]
  push_cast
  ring

/-! ## Laws of arches -/

/-- Points that run from a source to `dx` further right in a parabola of height `dy / 2`. -/
structure IsArch (source : Point Rat) (dx dy : Rat) (points : List (Point Rat)) : Prop where
  length : points.length = 51
  point : ∀ i ≤ 50, points[i]? = some
    ⟨source.x + dx * i / 50, source.y - 2 * (i / 50) * (1 - i / 50) * dy⟩
  first : points.head? = some source
  last : points.getLast? = some ⟨source.x + dx, source.y⟩
  step : ∀ i p q, points[i]? = some p → points[i + 1]? = some q → q.x = p.x + dx / 50
  increasing : 0 < dx → points.Pairwise fun p q => p.x < q.x
  decreasing : dx < 0 → points.Pairwise fun p q => q.x < p.x
  symmetric : ∀ i p q, points[i]? = some p → points[50 - i]? = some q → p.y = q.y
  between : ∀ p ∈ points,
    min source.y (source.y - dy / 2) ≤ p.y ∧ p.y ≤ max source.y (source.y - dy / 2)
  extreme : dy ≠ 0 → ∀ i p, points[i]? = some p → (p.y = source.y - dy / 2 ↔ i = 25)

theorem cast_sub_pos {i j : Nat} (h : i < j) : (0 : Rat) < j - i := by
  rw [sub_pos]
  exact_mod_cast h

section Samples

variable (source : Point Rat) (dx dy : Rat)

theorem sample_zero : sample source dx dy 0 = source := by
  simp [sample, lift]

theorem sample_last : sample source dx dy 50 = ⟨source.x + dx, source.y⟩ := by
  have hlift : lift 50 = 0 := by norm_num [lift]
  rw [sample, hlift, zero_mul, sub_zero]
  congr 2
  push_cast
  ring

theorem sample_x_sub (i j : Nat) :
    (sample source dx dy j).x - (sample source dx dy i).x = dx * ((j : Rat) - i) / 50 := by
  simp only [sample]
  ring

theorem pairwise_arch (before : Point Rat → Point Rat → Prop)
    (h : ∀ i j : Nat, i < j → before (sample source dx dy i) (sample source dx dy j)) :
    (arch source dx dy).Pairwise before := by
  rw [arch_eq_map_sample, List.pairwise_map]
  exact List.pairwise_lt_range.imp fun hlt => h _ _ hlt

theorem sample_between {i : Nat} (h : i ≤ 50) :
    min source.y (source.y - dy / 2) ≤ (sample source dx dy i).y ∧
      (sample source dx dy i).y ≤ max source.y (source.y - dy / 2) := by
  rcases le_total 0 dy with hdy | hdy
  · have hlow := mul_nonneg (lift_nonneg h) hdy
    have hhigh := mul_le_mul_of_nonneg_right (lift_le i) hdy
    rw [min_eq_right (by linarith), max_eq_left (by linarith), sample]
    constructor <;> linarith
  · have hlow := mul_le_mul_of_nonpos_right (lift_le i) hdy
    have hhigh := mul_nonpos_of_nonneg_of_nonpos (lift_nonneg h) hdy
    rw [min_eq_left (by linarith), max_eq_right (by linarith), sample]
    constructor <;> linarith

theorem sample_y_eq_iff {i : Nat} (hdy : dy ≠ 0) :
    (sample source dx dy i).y = source.y - dy / 2 ↔ i = 25 := by
  rw [← lift_eq_half_iff, sample, sub_right_inj, div_eq_mul_one_div, mul_comm dy]
  exact mul_left_inj' hdy

end Samples

theorem isArch_arch (source : Point Rat) (dx dy : Rat) :
    IsArch source dx dy (arch source dx dy) where
  length := length_arch source dx dy
  point i h := getElem?_arch_of_le h
  first := by
    rw [List.head?_eq_getElem?, getElem?_arch_of_le (Nat.zero_le _), sample_zero]
  last := by
    rw [List.getLast?_eq_getElem?, length_arch, ← sample_last]
    exact getElem?_arch_of_le (Nat.le_refl 50)
  step i p q hp hq := by
    obtain ⟨-, rfl⟩ := sample_of_getElem? hp
    obtain ⟨-, rfl⟩ := sample_of_getElem? hq
    have hstep := sample_x_sub source dx dy i (i + 1)
    push_cast at hstep
    linarith
  increasing hdx := by
    refine pairwise_arch source dx dy _ fun i j hlt => ?_
    have hgap := sample_x_sub source dx dy i j
    have hpositive := mul_pos hdx (cast_sub_pos hlt)
    linarith
  decreasing hdx := by
    refine pairwise_arch source dx dy _ fun i j hlt => ?_
    have hgap := sample_x_sub source dx dy i j
    have hnegative := mul_neg_of_neg_of_pos hdx (cast_sub_pos hlt)
    linarith
  symmetric i p q hp hq := by
    obtain ⟨hle, rfl⟩ := sample_of_getElem? hp
    obtain ⟨-, rfl⟩ := sample_of_getElem? hq
    rw [sample, sample, lift_sub hle]
  between p hp := by
    obtain ⟨i, hi⟩ := List.mem_iff_getElem?.mp hp
    obtain ⟨hle, rfl⟩ := sample_of_getElem? hi
    exact sample_between source dx dy hle
  extreme hdy i p hp := by
    obtain ⟨-, rfl⟩ := sample_of_getElem? hp
    exact sample_y_eq_iff source dx dy hdy

end Curve

/-! ## Drawn curves -/

namespace Session

/--
Every arch obeys the laws, whatever its source and its two extents; and so does every line that a
session hands out or still holds, with its source where the pen stood when the line was drawn.
-/
theorem arches_obey_laws :
    (∀ (source : Point Rat) (dx dy : Rat),
      Curve.IsArch source dx dy (Curve.arch source dx dy)) ∧
    ∀ (settings : Settings Rat) (entropy : ChaCha.Key) (limit : Option Nat) (calls : List Call)
      (vertices : List (Vertex Rat)),
      let s := start settings entropy limit
      .polyline vertices ∈
        (s.visits calls).flatMap Visit.handedOut ++ (s.afterCalls calls).queue.toList →
      ∃ e ∈ (s.visits calls).flatMap Visit.executions, ∃ dx dy,
        e.accepted? = some (.drawCurve dx dy) ∧ e.shape? = some (.polyline vertices) ∧
        Curve.IsArch e.session.store.cursor dx dy (vertices.map Vertex.position) := by
  refine ⟨Curve.isArch_arch, ?_⟩
  intro settings entropy limit calls vertices s hmem
  obtain ⟨e, he, hshape⟩ := exists_execution_of_shape hmem
  obtain ⟨command, haccepted, hstamped⟩ := Execution.stamped_of_shape? hshape
  cases hstamped with
  | @curve dx dy _ _ hpositions _ =>
      refine ⟨e, he, dx, dy, haccepted, hshape, ?_⟩
      rw [hpositions]
      exact Curve.isArch_arch _ dx dy

/-- A curve down and to the left of where the pen was put. -/
theorem arches_obey_laws_leftwards :
    let s : Session Rat := start Settings.standard (.replicate 8 0) none
    let call : Call :=
      .run ⟨Utf8.encode "draw.pos(x:100 y:200)\ndraw.line.curve(x:-50 y:-20)\n".toList, none⟩
    let points := Curve.arch (⟨100, 400⟩ : Point Rat) (-50) (-20)
    let vertices := points.map fun position => (⟨position, .white⟩ : Vertex Rat)
    (s.visits [call]).flatMap Visit.handedOut = [.polyline vertices] ∧
      ∃ dy, Curve.IsArch ⟨100, 400⟩ (-50) dy points := by
  intro s call points vertices
  have hdrawn : (s.visits [call]).flatMap Visit.handedOut = [.polyline vertices] := by
    decide +kernel
  have hpoints : vertices.map Vertex.position = points := by decide +kernel
  obtain ⟨-, hlaws⟩ := arches_obey_laws
  obtain ⟨e, -, dx, dy, -, -, harch⟩ :=
    hlaws Settings.standard (.replicate 8 0) none [call] vertices
      (List.mem_append_left _ (hdrawn ▸ List.mem_singleton_self _))
  rw [hpoints] at harch
  -- The first point is where the pen stood, and the last one is that much further right.
  have hcursor : e.session.store.cursor = ⟨100, 400⟩ :=
    Option.some.inj (harch.first.symm.trans (by decide +kernel))
  rw [hcursor] at harch
  have hlast : points.getLast? = some ⟨50, 400⟩ := by decide +kernel
  have hright : (100 : Rat) + dx = 50 :=
    congrArg Point.x (Option.some.inj (harch.last.symm.trans hlast))
  obtain rfl : dx = -50 := by linarith
  exact ⟨hdrawn, dy, harch⟩

end Session
end PenScript
