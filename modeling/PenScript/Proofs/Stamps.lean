import PenScript.Proofs.Stores

/-!
# Stamped shapes

A shape bears the pen that was in force when its own line ran. It may wait in the queue until a
later pass hands it out, and the pen may have moved on by then; the shape has not.
-/

set_option autoImplicit false

namespace PenScript

variable {α : Type} [Scalar α]

/-! ## Shapes of commands -/

/--
The shape is what the command draws with a pen of the given place and color: a square has its corner
there, and a curve is an arch from there in as many vertices as it has samples.
-/
inductive Stamped (cursor : Point α) (color : Rgb) : Command α → Shape α → Prop where
  | square (choice : Option String) (fixed : Except Mismatch α) (side : α) :
      Stamped cursor color (.drawSquare choice fixed) (.rect cursor side side color)
  | curve {dx dy : α} {vertices : List (Vertex α)} (length : vertices.length = 51)
      (positions : vertices.map Vertex.position = Curve.arch cursor dx dy)
      (colors : ∀ v ∈ vertices, v.color = color) :
      Stamped cursor color (.drawCurve dx dy) (.polyline vertices)

theorem Curve.length_arch (source : Point α) (dx dy : α) :
    (arch source dx dy).length = samples := by
  simp [arch]

theorem Context.stamped_of_shape? {c : Context α} {command : Command α} {shape : Shape α}
    (h : c.shape? command = some shape) :
    Stamped c.store.cursor c.store.color command shape := by
  cases command with
  | drawSquare choice fixed =>
      rw [shape?, Option.map_eq_some_iff] at h
      obtain ⟨side, -, rfl⟩ := h
      exact .square choice fixed side
  | drawCurve dx dy =>
      cases h
      refine .curve ?_ ?_ ?_
      · rw [List.length_map, Curve.length_arch]
        rfl
      · simp [Function.comp_def]
      · simp
  | _ => cases h

/-! ## Shapes of lines -/

namespace Execution

theorem exists_stamped {e : Execution α} (h : e.draws) :
    ∃ command shape, e.accepted? = some command ∧ e.shape? = some shape ∧
      Stamped e.session.store.cursor e.session.store.color command shape := by
  obtain ⟨shape, hshape⟩ := Option.isSome_iff_exists.mp (e.isSome_shape?.trans h)
  rw [draws, Bool.and_eq_true] at h
  cases hreading : e.session.context.reading e.line with
  | parsed command =>
      have hdrawn : e.session.context.shape? command = some shape := by
        simpa [shape?, Context.drawn?, hreading] using hshape
      exact ⟨command, shape, by simp [accepted?, hreading, h.1], hshape,
        Context.stamped_of_shape? hdrawn⟩
  | _ => simp [shape?, Context.drawn?, hreading] at hshape

theorem stamped_of_shape? {e : Execution α} {shape : Shape α} (h : e.shape? = some shape) :
    ∃ command, e.accepted? = some command ∧
      Stamped e.session.store.cursor e.session.store.color command shape := by
  have hdraws : e.draws := by
    rw [← e.isSome_shape?, h]
    rfl
  obtain ⟨command, found, haccepted, hfound, hstamped⟩ := exists_stamped hdraws
  obtain rfl : shape = found := Option.some.inj (h.symm.trans hfound)
  exact ⟨command, haccepted, hstamped⟩

/-- A line that draws, carried out or refused, does not move the pen. -/
theorem store_next_of_isDrawing {e : Execution α} (h : e.isDrawing) :
    e.next.store = e.session.store := by
  rw [store_next_eq_step, Context.step]
  unfold isDrawing at h
  split at h
  · rename_i choice side hreading
    rw [hreading]
    rfl
  · rename_i dx dy hreading
    rw [hreading]
    rfl
  · cases h

end Execution

/-! ## Shapes handed out -/

namespace Session

/-- A shape that is handed out or still waits comes from a line that some call has executed. -/
theorem exists_execution_of_shape {settings : Settings α} {entropy : ChaCha.Key}
    {limit : Option Nat} {calls : List Call} {shape : Shape α}
    (h : shape ∈ ((start settings entropy limit).visits calls).flatMap Visit.handedOut ++
      ((start settings entropy limit).afterCalls calls).queue.toList) :
    ∃ e ∈ ((start settings entropy limit).visits calls).flatMap Visit.executions,
      e.shape? = some shape := by
  rw [shapes_eq_filterMap rfl] at h
  exact List.mem_filterMap.mp h

/--
The shapes that any calls hand out or leave in the queue are, in order, one for each line that
draws, with the place and the color that the lines before it had given to the pen. No such line
moves the pen.
-/
theorem shapes_stamped (settings : Settings α) (entropy : ChaCha.Key) (limit : Option Nat)
    (calls : List Call) :
    let s := start settings entropy limit
    let executions := (s.visits calls).flatMap Visit.executions
    let shapes := (s.visits calls).flatMap Visit.handedOut ++ (s.afterCalls calls).queue.toList
    shapes.map some = (executions.filter Execution.draws).map Execution.shape? ∧
      ∀ earlier e later, executions = earlier ++ e :: later →
        let before := earlier.filterMap Execution.accepted?
        let position := (Command.lastOf Command.position? before).getD settings.cursor
        let color := (Command.lastOf Command.color? before).getD settings.color
        (e.draws → ∃ command shape, e.accepted? = some command ∧ e.shape? = some shape ∧
          Stamped ⟨position.x, settings.canvas.height - position.y⟩ color command shape) ∧
        (e.isDrawing → e.next.store = e.session.store) := by
  intro s executions shapes
  refine ⟨map_some_shapes rfl calls, ?_⟩
  intro earlier e later hexecutions before position color
  have hleads := leads_calls s calls
  change Leads s executions _ at hleads
  rw [hexecutions] at hleads
  have hrecalls := hleads.around.1.recalls (Store.Recalls.initial settings)
  refine ⟨?_, Execution.store_next_of_isDrawing⟩
  intro hdraws
  have hstamped := Execution.exists_stamped hdraws
  rwa [hrecalls.cursor, hrecalls.color] at hstamped

end Session
end PenScript
