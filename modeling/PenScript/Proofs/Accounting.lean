import PenScript.Proofs.Passes

/-!
# Accounting for shapes

Every line that draws leaves one shape, and every shape is handed out once or still queued. Calls that
break off only delay what they have drawn.
-/

set_option autoImplicit false

namespace PenScript

variable {α : Type} [Scalar α]

/-! ## Executions -/

/-- A line, and the session that meets it. -/
structure Execution (α : Type) where
  session : Session α
  line : List Char

namespace Execution

def next (e : Execution α) : Session α :=
  (e.session.execute e.line).1

def result (e : Execution α) : Except CommandError Unit :=
  (e.session.execute e.line).2

/-- Is the line a square or a curve? A line that is skipped or cannot be read is neither. -/
def isDrawing (e : Execution α) : Bool :=
  match e.session.context.reading e.line with
  | .parsed (.drawSquare ..) | .parsed (.drawCurve ..) => true
  | _ => false

/-- Is the line a square or a curve that was carried out? -/
def draws (e : Execution α) : Bool :=
  e.result.isOk && e.isDrawing

def shape? (e : Execution α) : Option (Shape α) :=
  e.session.context.drawn? e.line

theorem isSome_shape? (e : Execution α) : e.shape?.isSome = e.draws := by
  unfold shape? draws isDrawing result
  rw [Session.result_execute, Context.drawn?, Context.rejection?, Context.bytes]
  cases e.session.context.reading e.line with
  | skipped | ignored | malformed => simp
  | parsed command =>
      cases command with
      | drawSquare choice fixed =>
          cases hside : e.session.context.side choice fixed with
          | ok side =>
              simp [Context.shape?, Context.refusal?, hside, Command.bytes, Except.toOption,
                Except.isOk, Except.toBool]
          | error mismatch =>
              simp [Context.shape?, Context.refusal?, hside, Except.toOption, Except.isOk,
                Except.toBool]
      | drawCurve dx dy =>
          simp [Context.shape?, Context.refusal?, Command.bytes, Except.isOk, Except.toBool]
      | _ => simp [Context.shape?]

theorem queue_next (e : Execution α) :
    e.next.queue = e.session.queue ++ e.shape?.toArray :=
  Session.queue_execute e.session e.line

theorem exists_shape_of_draws {e : Execution α} (h : e.draws) :
    ∃ shape, e.shape? = some shape ∧ e.next.queue = e.session.queue.push shape := by
  obtain ⟨shape, hshape⟩ := Option.isSome_iff_exists.mp (e.isSome_shape?.trans h)
  refine ⟨shape, hshape, ?_⟩
  rw [e.queue_next, hshape]
  rfl

theorem queue_next_of_not_draws {e : Execution α} (h : ¬ e.draws) :
    e.next.queue = e.session.queue := by
  have hnone : e.shape? = none := by
    rw [← Option.not_isSome_iff_eq_none, e.isSome_shape?]
    exact h
  rw [e.queue_next, hnone]
  simp

end Execution

theorem map_some_filterMap {β γ : Type} {p : β → Bool} {f : β → Option γ}
    (h : ∀ x, (f x).isSome = p x) (items : List β) :
    (items.filterMap f).map some = (items.filter p).map f := by
  induction items with
  | nil => rfl
  | cons x items ih =>
      have hx := h x
      cases hf : f x with
      | none => simp [hf, ← hx, ih]
      | some y => simp [hf, ← hx, ih]

namespace Session

def executions (s : Session α) : List (List Char) → List (Execution α)
  | [] => []
  | line :: lines => ⟨s, line⟩ :: (s.execute line).1.executions lines

theorem answers_eq_map (s : Session α) (lines : List (List Char)) :
    s.answers lines = (s.executions lines).map Execution.result := by
  induction lines generalizing s with
  | nil => rfl
  | cons line lines ih => rw [answers, ih, executions, List.map_cons, Execution.result]

theorem map_line_executions (s : Session α) (lines : List (List Char)) :
    (s.executions lines).map Execution.line = lines := by
  induction lines generalizing s with
  | nil => rfl
  | cons line lines ih => rw [executions, List.map_cons, ih]

theorem settings_of_mem_executions {s : Session α} {lines : List (List Char)} {e : Execution α}
    (h : e ∈ s.executions lines) : e.session.settings = s.settings := by
  induction lines generalizing s with
  | nil => cases h
  | cons line lines ih =>
      rw [executions, List.mem_cons] at h
      rcases h with rfl | h
      · rfl
      · rw [ih h, settings_execute]

theorem exists_execution_of_getElem? {s : Session α} {lines : List (List Char)} {i : Nat}
    {line : List Char} (h : lines[i]? = some line) :
    ∃ e, (s.executions lines)[i]? = some e ∧ e.line = line := by
  rw [← map_line_executions s lines, List.getElem?_map] at h
  exact Option.map_eq_some_iff.mp h

theorem drawn_eq_filterMap (s : Session α) (lines : List (List Char)) :
    s.context.drawn lines = (s.executions lines).filterMap Execution.shape? := by
  induction lines generalizing s with
  | nil => rfl
  | cons line lines ih =>
      rw [Context.drawn, ← context_execute, ih, executions, List.filterMap_cons]
      cases hshape : s.context.drawn? line <;> simp [Execution.shape?, hshape]

end Session

/-! ## Calls -/

namespace Visit

def executions (v : Visit α) : List (Execution α) :=
  v.session.beginPass.executions (v.session.linesOf v.call)

def handedOut (v : Visit α) : List (Shape α) :=
  match v.outcome with
  | .ok pass => pass.shapes.toList
  | .error _ => []

theorem drawn_eq_filterMap (v : Visit α) :
    v.drawn = v.executions.filterMap Execution.shape? :=
  Session.drawn_eq_filterMap v.session.beginPass _

/-- What was queued or is drawn is handed out or still queued. -/
theorem handedOut_append_queue (v : Visit α) :
    v.handedOut ++ (v.session.call v.call).1.queue.toList =
      v.session.queue.toList ++ v.drawn := by
  unfold handedOut outcome drawn
  rcases Session.queue_call_cases v.session v.call with
    ⟨t, pass, hcall, ht, hpass⟩ | ⟨t, e, hcall, ht⟩
  · simp [hcall, ht, hpass]
  · simp [hcall, ht]

end Visit

namespace Session

def afterCalls (s : Session α) (calls : List Call) : Session α :=
  calls.foldl (fun s call => (s.call call).1) s

theorem handedOut_append_queue (s : Session α) (calls : List Call) :
    (s.visits calls).flatMap Visit.handedOut ++ (s.afterCalls calls).queue.toList =
      s.queue.toList ++ (s.visits calls).flatMap Visit.drawn := by
  induction calls generalizing s with
  | nil => simp [visits, afterCalls]
  | cons call calls ih =>
      have hvisit := Visit.handedOut_append_queue (⟨s, call⟩ : Visit α)
      have hrest := ih (s.call call).1
      calc ((s.visits (call :: calls)).flatMap Visit.handedOut ++
            (s.afterCalls (call :: calls)).queue.toList)
        _ = Visit.handedOut ⟨s, call⟩ ++ (((s.call call).1.visits calls).flatMap Visit.handedOut ++
            ((s.call call).1.afterCalls calls).queue.toList) := by
              simp [visits, afterCalls]
        _ = Visit.handedOut ⟨s, call⟩ ++ (s.call call).1.queue.toList ++
            ((s.call call).1.visits calls).flatMap Visit.drawn := by
              rw [hrest, List.append_assoc]
        _ = s.queue.toList ++ (s.visits (call :: calls)).flatMap Visit.drawn := by
              rw [hvisit, visits, List.flatMap_cons, List.append_assoc]

/-- Nothing but the lines executed adds to the shapes of a session that starts with none. -/
theorem shapes_eq_filterMap {s : Session α} (hempty : s.queue = #[]) (calls : List Call) :
    (s.visits calls).flatMap Visit.handedOut ++ (s.afterCalls calls).queue.toList =
      ((s.visits calls).flatMap Visit.executions).filterMap Execution.shape? := by
  rw [handedOut_append_queue, hempty, funext Visit.drawn_eq_filterMap, ← List.filterMap_flatMap]
  rfl

theorem map_some_shapes {s : Session α} (hempty : s.queue = #[]) (calls : List Call) :
    ((s.visits calls).flatMap Visit.handedOut ++ (s.afterCalls calls).queue.toList).map some =
      (((s.visits calls).flatMap Visit.executions).filter Execution.draws).map
        Execution.shape? := by
  rw [shapes_eq_filterMap hempty, map_some_filterMap Execution.isSome_shape?]

/--
The shapes handed out over any calls on a fresh session, with those still queued behind them, are one
for each line that draws, in the order of execution. Such a line queues its shape, and any other line
leaves the queue as it is.
-/
theorem shapes_accounted (settings : Settings α) (entropy : ChaCha.Key) (limit : Option Nat)
    (calls : List Call) :
    let s := start settings entropy limit
    let executions := (s.visits calls).flatMap Visit.executions
    let shapes := (s.visits calls).flatMap Visit.handedOut ++ (s.afterCalls calls).queue.toList
    shapes.map some = (executions.filter Execution.draws).map Execution.shape? ∧
      ∀ e ∈ executions, if e.draws then
          ∃ shape, e.shape? = some shape ∧ e.next.queue = e.session.queue.push shape
        else e.next.queue = e.session.queue := by
  intro s executions shapes
  refine ⟨map_some_shapes rfl calls, ?_⟩
  intro e _
  split_ifs with hdraws
  · exact Execution.exists_shape_of_draws hdraws
  · exact Execution.queue_next_of_not_draws hdraws

end Session
end PenScript
