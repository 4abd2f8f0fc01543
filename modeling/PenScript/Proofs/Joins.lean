import PenScript.Proofs.Runs

/-!
# One source after another

A session that runs one source and then another ends where it would end after running both as one.
All that begins anew is the count of lines, and the queue is handed out in between.
-/

set_option autoImplicit false

namespace PenScript

/-- The error of a line that many lines further on. -/
def CommandError.laterBy (lines : Nat) (e : CommandError) : CommandError :=
  { e with line := e.line + lines }

theorem errorsOf_append (first later : List (Except CommandError Unit)) :
    errorsOf (first ++ later) = errorsOf first ++ errorsOf later :=
  List.filterMap_append

theorem errorsOf_map (f : CommandError → CommandError) (answers : List (Except CommandError Unit)) :
    errorsOf (answers.map (Except.mapError f)) = (errorsOf answers).map f := by
  induction answers with
  | nil => rfl
  | cons answer answers ih =>
      unfold errorsOf at ih ⊢
      cases answer <;> simp [ih]

variable {α : Type}

namespace Session

/-! ## Joined sources -/

theorem ranLines_append {s : Session α} {first : List UInt8} (hended : Source.Ended first)
    (hstops : ∀ line ∈ (Source.linesOf first).map Utf8.decodeLossy,
      s.settings.dialect.stops line = false) (later : List UInt8) :
    s.ranLines ⟨first ++ later, none⟩ =
      (Source.linesOf first).map Utf8.decodeLossy ++ s.ranLines ⟨later, none⟩ := by
  rw [ranLines, Source.lines, Source.linesOf_append hended, List.map_append,
    throughFirst_append hstops]
  rfl

variable [Scalar α]

/-! ## Sessions further on -/

/-- The first session has the state of the second, but has counted `n` lines more in its pass. -/
structure Ahead (n : Nat) (s t : Session α) : Prop where
  context : s.context = t.context
  sink : s.sink = t.sink
  line : s.line = t.line + n

namespace Ahead

variable {n : Nat} {s t : Session α}

theorem execute (h : Ahead n s t) (line : List Char) :
    Ahead n (s.execute line).1 (t.execute line).1 ∧
      (s.execute line).2 = (t.execute line).2.mapError (CommandError.laterBy n) := by
  refine ⟨⟨?_, ?_, ?_⟩, ?_⟩
  · rw [context_execute, context_execute, h.context]
  · rw [sink_execute, sink_execute, h.context, h.sink]
  · rw [line_execute, line_execute, h.line, Nat.add_right_comm]
  · have hline : s.line + 1 = t.line + 1 + n := by rw [h.line, Nat.add_right_comm]
    rw [result_execute, result_execute, h.context, h.sink, hline]
    cases t.context.rejection? line with
    | some rejection => rfl
    | none => cases (t.sink.write (t.context.bytes line)).2 <;> rfl

theorem after (h : Ahead n s t) (lines : List (List Char)) :
    Ahead n (s.after lines) (t.after lines) ∧
      s.answers lines = (t.answers lines).map (Except.mapError (CommandError.laterBy n)) := by
  induction lines generalizing s t with
  | nil => exact ⟨h, rfl⟩
  | cons line lines ih =>
      obtain ⟨hnext, hresult⟩ := h.execute line
      obtain ⟨hafter, hanswers⟩ := ih hnext
      exact ⟨hafter, by rw [answers, answers, hresult, hanswers, List.map_cons]⟩

theorem drawn (h : Ahead n s t) (lines : List (List Char)) :
    (s.after lines).queue.toList = s.queue.toList ++ t.context.drawn lines := by
  rw [queue_after, h.context]

end Ahead

/-! ## Joined runs -/

/-- The session that has run a source begins the next pass where the lines of that source end. -/
theorem ahead_of_run (s : Session α) (source : Source) :
    Ahead (s.ranLines source).length (s.beginPass.after (s.ranLines source))
      (s.run source).1.beginPass where
  context := by
    rw [context_after]
    exact (context_run s source).symm
  sink := (sink_run s source).symm
  line := line_after s.beginPass (s.ranLines source)

/-- The pass over joined lines is put together from the pass over the first and that over the rest. -/
theorem passOf_append {s t : Session α} {first : List (List Char)}
    (hstops : ∀ line ∈ first, s.settings.dialect.stops line = false)
    (h : Ahead first.length (s.beginPass.after first) t.beginPass)
    (hsettings : t.settings = s.settings) (hqueue : t.queue = #[]) (later : List (List Char)) :
    s.passOf (first ++ later) =
      ⟨(s.passOf first).shapes ++ (t.passOf later).shapes,
        (s.passOf first).errors ++ (t.passOf later).errors.map (CommandError.laterBy first.length),
        first.length + later.length, (t.passOf later).terminated⟩ := by
  obtain ⟨-, hanswers⟩ := h.after later
  have hfirst : first.any s.settings.dialect.stops = false := by simpa using hstops
  have hshapes : (s.beginPass.after (first ++ later)).queue =
      (s.beginPass.after first).queue ++ (t.beginPass.after later).queue := by
    have hempty : t.beginPass.queue = #[] := hqueue
    rw [← Array.toList_inj, Array.toList_append, after_append, h.drawn, queue_after t.beginPass,
      hempty]
    rfl
  simp only [passOf, hshapes, answers_append, hanswers, errorsOf_append, errorsOf_map,
    List.length_append, List.any_append, hfirst, hsettings, Bool.false_or, List.map_toArray,
    List.append_toArray]

/--
Running two sources as one, where the first is ended and none of its lines ends the script, leaves
what running one after the other leaves. The pass is that of the first with the other's behind it,
whose lines are numbered on.
-/
theorem run_append (s : Session α) {first : List UInt8} (hended : Source.Ended first)
    (hstops : ∀ line ∈ (Source.linesOf first).map Utf8.decodeLossy,
      s.settings.dialect.stops line = false) (later : List UInt8) :
    let joined := s.run ⟨first ++ later, none⟩
    let head := s.run ⟨first, none⟩
    let tail := head.1.run ⟨later, none⟩
    joined.1.store = tail.1.store ∧ joined.1.generator = tail.1.generator ∧
      joined.1.sink = tail.1.sink ∧ joined.1.queue = tail.1.queue ∧
      ∃ p q, head.2 = .ok p ∧ tail.2 = .ok q ∧ p.lines = (Source.linesOf first).length ∧
        joined.2 = .ok ⟨p.shapes ++ q.shapes,
          p.errors ++ q.errors.map (CommandError.laterBy p.lines),
          p.lines + q.lines, q.terminated⟩ := by
  intro joined head tail
  have hfirst : s.ranLines ⟨first, none⟩ = (Source.linesOf first).map Utf8.decodeLossy :=
    throughFirst_eq_self hstops
  have hlater : head.1.ranLines ⟨later, none⟩ = s.ranLines ⟨later, none⟩ := by
    rw [ranLines, settings_run]
    rfl
  have hjoined : s.ranLines ⟨first ++ later, none⟩ =
      s.ranLines ⟨first, none⟩ ++ head.1.ranLines ⟨later, none⟩ := by
    rw [ranLines_append hended hstops, hfirst, hlater]
  have hahead := ahead_of_run s ⟨first, none⟩
  have hcontext : joined.1.context = tail.1.context := by
    rw [context_run, context_run, context_run, hjoined, Context.after_append]
  have hsink : joined.1.sink = tail.1.sink := by
    rw [sink_run, sink_run, hjoined, after_append, (hahead.after _).1.sink]
  have hqueue : joined.1.queue = tail.1.queue :=
    (queue_of_ended s _ (Or.inr rfl)).trans (queue_of_ended head.1 _ (Or.inr rfl)).symm
  refine ⟨congrArg Context.store hcontext, congrArg Context.generator hcontext, hsink, hqueue,
    _, _, outcome_of_ended s _ (Or.inr rfl), outcome_of_ended head.1 _ (Or.inr rfl), ?_, ?_⟩
  · rw [hfirst]
    exact List.length_map _
  · have hpass := passOf_append (by rwa [hfirst]) hahead (settings_run s _)
      (queue_of_ended s ⟨first, none⟩ (Or.inr rfl)) (head.1.ranLines ⟨later, none⟩)
    rw [← hjoined] at hpass
    rw [outcome_of_ended s _ (Or.inr rfl), hpass]
    rfl

theorem run_append_full_sink :
    let s : Session Float :=
      start { Settings.standard with dialect := .legacy } (.replicate 8 0) (some 5)
    let first := Utf8.encode "write(\"abc\")\nwrite(\"de\")\n".toList
    let later := Utf8.encode "draw.square(L:x)\r\nsay end.work".toList
    let head := s.run ⟨first, none⟩
    let tail := head.1.run ⟨later, none⟩
    Source.Ended first ∧
      (∀ line ∈ (Source.linesOf first).map Utf8.decodeLossy,
        s.settings.dialect.stops line = false) ∧
      (s.run ⟨first ++ later, none⟩).1.sink = tail.1.sink ∧
      ∃ p q, head.2 = .ok p ∧ tail.2 = .ok q ∧ p.lines = 2 ∧
        (s.run ⟨first ++ later, none⟩).2 = .ok ⟨p.shapes ++ q.shapes,
          p.errors ++ q.errors.map (CommandError.laterBy 2), 2 + q.lines, q.terminated⟩ := by
  intro s first later head tail
  have hended : Source.Ended first := Or.inr (by decide +kernel)
  have hstops : ∀ line ∈ (Source.linesOf first).map Utf8.decodeLossy,
      s.settings.dialect.stops line = false := by
    decide +kernel
  have htwo : (Source.linesOf first).length = 2 := by decide +kernel
  obtain ⟨-, -, hsink, -, p, q, hp, hq, hlines, hjoined⟩ := run_append s hended hstops later
  rw [htwo] at hlines
  rw [hlines] at hjoined
  exact ⟨hended, hstops, hsink, p, q, hp, hq, hlines, hjoined⟩

end Session
end PenScript
