import PenScript.Proofs.Codes
import PenScript.Proofs.Histories

/-!
# Limited sinks

Two sessions get the same calls, one with a limit to its sink and one without. The first keeps the
beginning of what the second writes, and refuses each write that ends behind its limit. Nothing else
tells them apart.
-/

set_option autoImplicit false

namespace PenScript

/-! ## Sinks -/

namespace Sink

/-- The sink that has kept the first `n` bytes of what another was given. -/
def cut (n : Nat) (sink : Sink) : Sink :=
  ⟨some n, sink.written.take n⟩

theorem write_unlimited {sink : Sink} (h : sink.limit = none) (bytes : List UInt8) :
    sink.write bytes = (⟨none, sink.written ++ bytes⟩, .ok ()) := by
  obtain ⟨limit, written⟩ := sink
  cases h
  rfl

theorem take_append_take (written : Array UInt8) (bytes : List UInt8) (n : Nat) :
    written.take n ++ bytes.take (n - written.size) = (written ++ bytes).take n := by
  apply Array.toList_inj.mp
  simp [List.take_append]

theorem write_cut {sink : Sink} (h : sink.limit = none) (n : Nat) (bytes : List UInt8) :
    (sink.cut n).write bytes =
      ((sink.write bytes).1.cut n,
        if bytes ≠ [] ∧ n < sink.written.size + bytes.length then .error full else .ok ()) := by
  have hroom : n - (sink.written.take n).size = n - sink.written.size := by
    simp only [Array.take_eq_extract, Array.size_extract]
    omega
  rw [write_unlimited h, cut, write]
  simp only [hroom, cut, ← take_append_take]
  split
  · rename_i hfits
    rw [List.take_of_length_le hfits, if_neg]
    rintro ⟨hne, hbehind⟩
    have hpos := List.length_pos_iff.mpr hne
    omega
  · rename_i hfull
    rw [if_pos]
    refine ⟨?_, by omega⟩
    rintro rfl
    simp at hfull

end Sink

variable {α : Type} [Scalar α]

/-! ## Writes -/

namespace Execution

def bytes (e : Execution α) : List UInt8 :=
  e.session.context.bytes e.line

/-- Is the line a write, whether or not the sink takes it? -/
def writes (e : Execution α) : Bool :=
  match e.session.context.reading e.line with
  | .parsed (.write _) => true
  | _ => false

/-- Is the line a write that ends, with its line feed, behind the first `n` bytes of the text? -/
def overflows (n : Nat) (e : Execution α) : Bool :=
  e.writes && n < e.session.sink.written.size + e.bytes.length

/-- The error of a write that the sink does not take in whole. -/
def refusal (e : Execution α) : CommandError :=
  ⟨e.session.line + 1, .write, .sinkFailed Sink.full⟩

/-- What the line returns where the sink takes no more than `n` bytes. -/
def resultWithin (n : Nat) (e : Execution α) : Except CommandError Unit :=
  if e.overflows n then .error e.refusal else e.result

theorem bytes_eq_nil_iff (e : Execution α) : e.bytes = [] ↔ e.writes = false := by
  unfold bytes writes Context.bytes
  cases e.session.context.reading e.line with
  | parsed command => cases command <;> simp [Command.bytes, Utf8.encode]
  | _ => simp

theorem rejection?_of_writes {e : Execution α} (h : e.writes) :
    e.session.context.rejection? e.line = none := by
  unfold writes at h
  split at h
  · rename_i text hreading
    simp [Context.rejection?, hreading, Context.refusal?]
  · cases h

/-- A sink without a limit has no part in what a line returns. -/
theorem result_of_unlimited {e : Execution α} (h : e.session.sink.limit = none) :
    e.result = match e.session.context.rejection? e.line with
      | some (keyword, cause) => .error ⟨e.session.line + 1, keyword, cause⟩
      | none => .ok () := by
  rw [result, Session.result_execute, Sink.write_unlimited h]
  rfl

theorem code_of_unlimited {e : Execution α} (h : e.session.sink.limit = none)
    {error : CommandError} (herror : e.result = .error error) : error.code ≠ .X005 := by
  rw [result_of_unlimited h] at herror
  split at herror
  · rename_i keyword cause hrejection
    cases herror
    intro hcode
    exact keyword.sinkCode_not_mem_codes (hcode ▸ Context.code_of_rejection? hrejection)
  · cases herror

theorem sink_next {e : Execution α} (h : e.session.sink.limit = none) :
    e.next.sink = ⟨none, e.session.sink.written ++ e.bytes⟩ := by
  rw [next, Session.sink_execute, Sink.write_unlimited h, bytes]

theorem limit_next {e : Execution α} (h : e.session.sink.limit = none) :
    e.next.sink.limit = none := by
  rw [sink_next h]

theorem size_next {e : Execution α} (h : e.session.sink.limit = none) :
    e.next.sink.written.size = e.session.sink.written.size + e.bytes.length := by
  rw [sink_next h]
  simp [← Array.length_toList]

theorem result_of_overflows {n : Nat} {e : Execution α} (h : e.session.sink.limit = none)
    (hoverflows : e.overflows n) : e.result = .ok () := by
  rw [overflows, Bool.and_eq_true] at hoverflows
  rw [result_of_unlimited h, rejection?_of_writes hoverflows.1]

end Execution

namespace Session

/-! ## Sessions with a limit -/

/-- The first session is as far as the second, but has a limit of `n` bytes where that has none. -/
structure Limited (n : Nat) (s t : Session α) : Prop where
  context : s.context = t.context
  queue : s.queue = t.queue
  line : s.line = t.line
  sink : s.sink = t.sink.cut n
  unlimited : t.sink.limit = none

namespace Limited

variable {n : Nat} {s t : Session α}

theorem start (settings : Settings α) (entropy : ChaCha.Key) (n : Nat) :
    Limited n (start settings entropy (some n)) (start settings entropy none) where
  context := rfl
  queue := rfl
  line := rfl
  sink := by simp [Session.start, Sink.empty, Sink.cut]
  unlimited := rfl

theorem execute (h : Limited n s t) (line : List Char) :
    Limited n (s.execute line).1 (t.execute line).1 ∧
      (s.execute line).2 = (⟨t, line⟩ : Execution α).resultWithin n := by
  have hwrite := Sink.write_cut h.unlimited n (t.context.bytes line)
  refine ⟨⟨?_, ?_, ?_, ?_, ?_⟩, ?_⟩
  · rw [context_execute, context_execute, h.context]
  · rw [queue_execute, queue_execute, h.context, h.queue]
  · rw [line_execute, line_execute, h.line]
  · rw [sink_execute, sink_execute, h.context, h.sink, hwrite]
  · rw [sink_execute, Sink.write_unlimited h.unlimited]
  · rw [result_execute, h.context, h.sink, h.line, hwrite, Execution.resultWithin,
      Execution.result_of_unlimited h.unlimited]
    cases hwrites : (⟨t, line⟩ : Execution α).writes with
    | false =>
        have hnil : t.context.bytes line = [] := (Execution.bytes_eq_nil_iff _).mpr hwrites
        cases t.context.rejection? line <;> simp [Execution.overflows, hwrites, hnil]
    | true =>
        have hnil : t.context.bytes line ≠ [] := by
          intro hnil
          have hnone := (Execution.bytes_eq_nil_iff ⟨t, line⟩).mp hnil
          rw [hwrites] at hnone
          cases hnone
        have hrejection : t.context.rejection? line = none :=
          Execution.rejection?_of_writes hwrites
        by_cases hbehind : n < t.sink.written.size + (t.context.bytes line).length <;>
          simp [Execution.overflows, Execution.bytes, Execution.refusal, hwrites, hnil,
            hrejection, hbehind]

theorem after (h : Limited n s t) (lines : List (List Char)) :
    Limited n (s.after lines) (t.after lines) ∧
      s.answers lines = (t.executions lines).map (Execution.resultWithin n) := by
  induction lines generalizing s t with
  | nil => exact ⟨h, rfl⟩
  | cons line lines ih =>
      obtain ⟨hnext, hresult⟩ := h.execute line
      obtain ⟨hafter, hanswers⟩ := ih hnext
      exact ⟨hafter, by rw [answers, hresult, hanswers, executions, List.map_cons]⟩

omit [Scalar α] in
theorem beginPass (h : Limited n s t) : Limited n s.beginPass t.beginPass :=
  ⟨h.context, h.queue, rfl, h.sink, h.unlimited⟩

omit [Scalar α] in
theorem note (h : Limited n s t) (note : Note) : Limited n (s.note note) (t.note note) :=
  ⟨h.context, h.queue, h.line, h.sink, h.unlimited⟩

omit [Scalar α] in
theorem settings (h : Limited n s t) : s.settings = t.settings :=
  congrArg Context.settings h.context

omit [Scalar α] in
theorem ranLines (h : Limited n s t) (source : Source) : s.ranLines source = t.ranLines source := by
  rw [Session.ranLines, Session.ranLines, h.settings]

omit [Scalar α] in
theorem fault? (h : Limited n s t) (source : Source) : s.fault? source = t.fault? source := by
  rw [Session.fault?, Session.fault?, h.ranLines, h.settings]

theorem run (h : Limited n s t) (source : Source) :
    Limited n (s.run source).1 (t.run source).1 := by
  obtain ⟨hafter, -⟩ := h.beginPass.after (t.ranLines source)
  refine ⟨?_, ?_, ?_, ?_, ?_⟩
  · rw [context_run, context_run, h.ranLines, h.context]
  · rw [queue_run, queue_run, h.fault?, h.ranLines, passOf, hafter.queue, passOf]
  · rw [line_run, line_run, h.ranLines]
  · rw [sink_run, sink_run, h.ranLines, hafter.sink]
  · rw [sink_run, hafter.unlimited]

theorem call (h : Limited n s t) (call : Call) : Limited n (s.call call).1 (t.call call).1 := by
  cases call with
  | run source => exact h.run source
  | script opened =>
      cases opened with
      | error reason => exact h
      | ok source =>
          rw [Session.call, Session.call, runScript, runScript, h.settings]
          exact (h.note _).run source

end Limited
end Session

/-! ## Errors -/

theorem Execution.errorsOf_resultWithin {n : Nat} {executions : List (Execution α)}
    (h : ∀ e ∈ executions, e.session.sink.limit = none) :
    let errors := errorsOf (executions.map (resultWithin n))
    (errors.filter fun e => e.code ≠ .X005) = errorsOf (executions.map result) ∧
      (errors.filter fun e => e.code = .X005) = (executions.filter (overflows n)).map refusal := by
  induction executions with
  | nil => exact ⟨rfl, rfl⟩
  | cons e executions ih =>
      obtain ⟨he, hrest⟩ := List.forall_mem_cons.mp h
      obtain ⟨hothers, hrefused⟩ := ih hrest
      simp only [List.map_cons, List.filter_cons]
      cases hoverflows : e.overflows n with
      | true =>
          have hresult : e.result = .ok () := result_of_overflows he hoverflows
          have hwithin : e.resultWithin n = .error e.refusal := if_pos hoverflows
          have hcode : e.refusal.code = .X005 := rfl
          rw [hresult, hwithin, errorsOf_cons_ok, errorsOf_cons_error]
          exact ⟨by simpa [hcode] using hothers, by simpa [hcode] using hrefused⟩
      | false =>
          have hwithin : e.resultWithin n = e.result := by simp [resultWithin, hoverflows]
          rw [hwithin]
          cases hresult : e.result with
          | ok _ => exact ⟨hothers, hrefused⟩
          | error error =>
              have hcode := code_of_unlimited he hresult
              rw [errorsOf_cons_error, errorsOf_cons_error]
              exact ⟨by simpa [hcode] using hothers, by simpa [hcode] using hrefused⟩

/-! ## Calls -/

/--
What a call returns with a limit of `n` bytes, and what it returns without: a failure is the same; a
pass has the same shapes and lines, and one error more for each of the executions that overflows.
-/
inductive Within (n : Nat) (executions : List (Execution α)) :
    Except LoadError (Pass α) → Except LoadError (Pass α) → Prop where
  | pass {p q : Pass α} (shapes : p.shapes = q.shapes) (lines : p.lines = q.lines)
      (terminated : p.terminated = q.terminated)
      (others : (p.errors.toList.filter fun e => e.code ≠ .X005) = q.errors.toList)
      (refused : (p.errors.toList.filter fun e => e.code = .X005) =
        (executions.filter (Execution.overflows n)).map Execution.refusal)
      (ordered : p.errors.toList.Pairwise fun d e => d.line < e.line) :
      Within n executions (.ok p) (.ok q)
  | failure (e : LoadError) : Within n executions (.error e) (.error e)

namespace Session

namespace Leads

variable {s t : Session α} {executions : List (Execution α)}

theorem unlimited (h : Leads s executions t) (hs : s.sink.limit = none) :
    ∀ e ∈ executions, e.session.sink.limit = none := by
  induction h with
  | nil _ => simp
  | @cons s t e rest hse _ ih =>
      have he : e.session.sink.limit = none := by rw [← hse.sink, hs]
      exact List.forall_mem_cons.mpr ⟨he, ih (Execution.limit_next he)⟩

/-- A text only grows. -/
theorem size_le (h : Leads s executions t) (hs : s.sink.limit = none) :
    s.sink.written.size ≤ t.sink.written.size := by
  induction h with
  | nil hst => rw [hst.sink]
  | @cons s t e rest hse _ ih =>
      have he : e.session.sink.limit = none := by rw [← hse.sink, hs]
      have hgrown := ih (Execution.limit_next he)
      rw [Execution.size_next he] at hgrown
      rw [hse.sink]
      omega

/-- A line writes behind all that the lines before it have written. -/
theorem pairwise_size (h : Leads s executions t) (hs : s.sink.limit = none) :
    executions.Pairwise fun e f =>
      e.session.sink.written.size + e.bytes.length ≤ f.session.sink.written.size := by
  induction h with
  | nil _ => exact .nil
  | @cons s t e rest hse hrest ih =>
      have he : e.session.sink.limit = none := by rw [← hse.sink, hs]
      have hnext := Execution.limit_next he
      refine .cons ?_ (ih hnext)
      intro f hm
      obtain ⟨before, after, rfl⟩ := List.append_of_mem hm
      have hgrown := hrest.around.1.size_le hnext
      rwa [Execution.size_next he] at hgrown

end Leads

namespace Limited

variable {n : Nat} {s t : Session α}

theorem outcome_run (h : Limited n s t) (source : Source) :
    Within n (t.beginPass.executions (t.ranLines source)) (s.run source).2 (t.run source).2 := by
  obtain ⟨hafter, hanswers⟩ := h.beginPass.after (t.ranLines source)
  rw [Session.outcome_run, Session.outcome_run, h.fault?, h.ranLines]
  cases t.fault? source with
  | some reason => exact .failure _
  | none =>
      have hleads := leads_executions t.beginPass (t.ranLines source)
      obtain ⟨hothers, hrefused⟩ := Execution.errorsOf_resultWithin (n := n)
        (hleads.unlimited h.unlimited)
      rw [← hanswers] at hothers hrefused
      rw [← answers_eq_map] at hothers
      refine .pass hafter.queue rfl ?_ hothers hrefused ?_
      · rw [passOf, passOf, h.settings]
      · exact pairwise_line_errors s.beginPass (t.ranLines source)

theorem outcome_call (h : Limited n s t) (call : Call) :
    Within n (Visit.executions ⟨t, call⟩) (Visit.outcome ⟨s, call⟩) (Visit.outcome ⟨t, call⟩) := by
  cases call with
  | run source => exact h.outcome_run source
  | script opened =>
      cases opened with
      | error reason =>
          simp only [Visit.outcome, Session.call, runScript, h.settings]
          exact .failure _
      | ok source =>
          simp only [Visit.outcome, Session.call, runScript, outcome_note]
          exact h.outcome_run source

theorem calls (h : Limited n s t) (calls : List Call) :
    Limited n (s.afterCalls calls) (t.afterCalls calls) ∧
      List.Forall₂ (fun v w => Within n w.executions v.outcome w.outcome) (s.visits calls)
        (t.visits calls) := by
  induction calls generalizing s t with
  | nil => exact ⟨h, .nil⟩
  | cons call calls ih =>
      obtain ⟨hafter, hvisits⟩ := ih (h.call call)
      exact ⟨hafter, .cons (h.outcome_call call) hvisits⟩

end Limited

/--
Sessions with and without a limit to their sink, given the same calls. The limited sink holds the
first `n` bytes of the text; store, generator and queue come out the same; and each call returns the
same but for an error for every write that ends behind byte `n`, in line order. Once one does, every
later write does.
-/
theorem calls_limited (settings : Settings α) (entropy : ChaCha.Key) (n : Nat)
    (calls : List Call) :
    let limited := start settings entropy (some n)
    let free := start settings entropy none
    let s := limited.afterCalls calls
    let t := free.afterCalls calls
    s.sink.written.toList = t.sink.written.toList.take n ∧
      s.store = t.store ∧ s.generator = t.generator ∧ s.queue = t.queue ∧
      List.Forall₂ (fun v w => Within n w.executions v.outcome w.outcome) (limited.visits calls)
        (free.visits calls) ∧
      ((free.visits calls).flatMap Visit.executions).Pairwise fun e f =>
        e.overflows n → f.writes → f.overflows n := by
  intro limited free s t
  obtain ⟨hlimited, hvisits⟩ := (Limited.start settings entropy n).calls calls
  refine ⟨?_, congrArg Context.store hlimited.context, congrArg Context.generator hlimited.context,
    hlimited.queue, hvisits, ?_⟩
  · simp [s, t, limited, free, hlimited.sink, Sink.cut]
  · refine ((leads_calls free calls).pairwise_size rfl).imp ?_
    intro e f hbefore hoverflows hwrites
    rw [Execution.overflows, Bool.and_eq_true, decide_eq_true_eq] at hoverflows ⊢
    exact ⟨hwrites, by omega⟩

end Session
end PenScript
