import PenScript.Proofs.Diagnoses
import PenScript.Proofs.Joins
import PenScript.Proofs.Limits

/-!
# Deleted lines

In the strict dialect, a line that is skipped, not recognised or rejected can be taken out of its
source. The lines that remain do what they did before, and only the numbers in their errors change.
-/

set_option autoImplicit false

namespace PenScript

/-! ## Lists with deleted places -/

section

variable {β γ : Type} (deleted : Nat → Bool)

/-- The items that stand at no deleted place, where the first one stands at place `n`. -/
def undeleted (n : Nat) (items : List β) : List β :=
  ((items.zipIdx n).filter fun (_, place) => !deleted place).map Prod.fst

def deletedBefore (place : Nat) : Nat :=
  (List.range place).countP deleted

theorem deletedBefore_succ (place : Nat) :
    deletedBefore deleted (place + 1) =
      deletedBefore deleted place + if deleted place then 1 else 0 := by
  simp [deletedBefore, List.range_succ, List.countP_singleton]

@[simp] theorem undeleted_nil (n : Nat) : undeleted deleted n ([] : List β) = [] := rfl

variable {deleted}

theorem undeleted_cons_of_deleted {n : Nat} (h : deleted n) (x : β) (items : List β) :
    undeleted deleted n (x :: items) = undeleted deleted (n + 1) items := by
  simp [undeleted, h]

theorem undeleted_cons_of_kept {n : Nat} (h : deleted n = false) (x : β) (items : List β) :
    undeleted deleted n (x :: items) = x :: undeleted deleted (n + 1) items := by
  simp [undeleted, h]

theorem undeleted_map (f : β → γ) (n : Nat) (items : List β) :
    undeleted deleted n (items.map f) = (undeleted deleted n items).map f := by
  induction items generalizing n with
  | nil => rfl
  | cons x items ih =>
      cases hn : deleted n with
      | true =>
          rw [List.map_cons, undeleted_cons_of_deleted hn, undeleted_cons_of_deleted hn, ih]
      | false =>
          rw [List.map_cons, undeleted_cons_of_kept hn, undeleted_cons_of_kept hn, ih, List.map_cons]

variable {p : β → Bool} {n : Nat} {items : List β}

theorem any_undeleted (h : ∀ (i : Nat) x, items[i]? = some x → deleted (n + i) → p x = false) :
    (undeleted deleted n items).any p = items.any p := by
  induction items generalizing n with
  | nil => rfl
  | cons x items ih =>
      have hrest := ih (n := n + 1) fun i y hy hi =>
        h (i + 1) y (by simpa using hy) (by rwa [Nat.add_right_comm] at hi)
      cases hn : deleted n with
      | true =>
          have hx : p x = false := h 0 x rfl hn
          rw [undeleted_cons_of_deleted hn, hrest, List.any_cons, hx, Bool.false_or]
      | false => rw [undeleted_cons_of_kept hn, List.any_cons, List.any_cons, hrest]

/-- What is deleted does not matter to where the items end, if it does not end them itself. -/
theorem throughFirst_undeleted
    (h : ∀ (i : Nat) x, (throughFirst p items)[i]? = some x → deleted (n + i) → p x = false) :
    throughFirst p (undeleted deleted n items) = undeleted deleted n (throughFirst p items) := by
  induction items generalizing n with
  | nil => rfl
  | cons x items ih =>
      cases hx : p x with
      | true =>
          rw [throughFirst_cons_of_pos items hx] at h ⊢
          have hn : deleted n = false := by
            cases hn : deleted n with
            | false => rfl
            | true => exact absurd (h 0 x rfl hn) (by simp [hx])
          rw [undeleted_cons_of_kept hn, undeleted_cons_of_kept hn, throughFirst_cons_of_pos _ hx,
            undeleted_nil]
      | false =>
          rw [throughFirst_cons_of_neg items hx] at h ⊢
          have hrest := ih (n := n + 1) fun i y hy hi =>
            h (i + 1) y (by simpa using hy) (by rwa [Nat.add_right_comm] at hi)
          cases hn : deleted n with
          | true => rw [undeleted_cons_of_deleted hn, undeleted_cons_of_deleted hn, hrest]
          | false =>
              rw [undeleted_cons_of_kept hn, undeleted_cons_of_kept hn,
                throughFirst_cons_of_neg _ hx, hrest]

end

/-! ## Sources with deleted lines -/

namespace Source

variable (deleted : Nat → Bool)

/-- The bytes that remain when lines are deleted together with their endings. -/
def without (bytes : List UInt8) : List UInt8 :=
  (undeleted deleted 0 (pieces bytes)).flatten

theorem pieces_flatten_undeleted (n : Nat) (bytes : List UInt8) :
    pieces (undeleted deleted n (pieces bytes)).flatten = undeleted deleted n (pieces bytes) := by
  induction bytes using line_induction generalizing n with
  | line body rest hbody ih =>
      rw [pieces_append_lineFeed hbody]
      cases hn : deleted n with
      | true => rw [undeleted_cons_of_deleted hn, ih]
      | false =>
          rw [undeleted_cons_of_kept hn, List.flatten_cons, List.append_assoc,
            List.singleton_append, pieces_append_lineFeed hbody, ih]
  | last body hbody =>
      by_cases hne : body = []
      · subst hne
        rfl
      · rw [pieces_of_not_mem hbody hne]
        cases hn : deleted n with
        | true => rw [undeleted_cons_of_deleted hn]; rfl
        | false =>
            rw [undeleted_cons_of_kept hn, undeleted_nil, List.flatten_cons, List.flatten_nil,
              List.append_nil, pieces_of_not_mem hbody hne]

theorem linesOf_without (bytes : List UInt8) :
    linesOf (without deleted bytes) = undeleted deleted 0 (linesOf bytes) := by
  rw [linesOf, linesOf, without, pieces_flatten_undeleted, undeleted_map]

end Source

variable {α : Type} [Scalar α]

/-! ## Inert lines -/

/-- The line is blank or a comment, or holds no command, or its command was rejected. -/
inductive Execution.Inert (e : Execution α) : Prop where
  | skipped (h : e.session.settings.dialect.skips e.line)
  | unrecognized (h : e.session.settings.dialect.recognize e.line = none)
  | rejected {error : CommandError} (h : e.result = .error error)

namespace Execution.Inert

variable {e : Execution α}

/-- An inert line does nothing, since the strict dialect wastes no pick. -/
theorem step_eq (h : e.Inert) (hstrict : e.session.settings.dialect = .strict)
    (hunlimited : e.session.sink.limit = none) :
    e.session.context.step e.line = e.session.context ∧
      e.session.context.drawn? e.line = none ∧ e.session.context.bytes e.line = [] := by
  have hidle : (e.session.context.reading e.line).Idle →
      e.session.context.step e.line = e.session.context ∧
        e.session.context.drawn? e.line = none ∧ e.session.context.bytes e.line = [] := by
    intro hidle
    obtain ⟨hstep, hdrawn, hbytes, -⟩ := Context.step_of_idle hidle
    exact ⟨hstep, hdrawn, hbytes⟩
  cases h with
  | skipped h => exact hidle (Dialect.idle_of_skips h)
  | unrecognized h => exact hidle (Dialect.idle_of_recognize_eq_none h)
  | @rejected error h =>
      obtain ⟨hstore, hdrawn, hbytes, hgenerator⟩ := Session.step_of_error h
      have hwaste : ¬ e.session.context.WastesPick e.line := by
        rintro ⟨hlegacy, -⟩
        rw [Session.context_settings, hstrict] at hlegacy
        cases hlegacy
      have hsettings := e.session.context.settings_step e.line
      refine ⟨?_, hdrawn, ?_⟩
      · cases hstep : e.session.context.step e.line
        rw [hstep] at hstore hgenerator hsettings
        rw [Session.context, ← hstore, ← hgenerator.mpr hwaste]
        simpa using hsettings
      · rcases hbytes with hbytes | ⟨reason, -, hcause⟩
        · exact hbytes
        · have hcode := code_of_unlimited hunlimited h
          simp [CommandError.code, hcause, Cause.code] at hcode

theorem stops_eq_false (h : e.Inert) (hstrict : e.session.settings.dialect = .strict) :
    Dialect.strict.stops e.line = false := by
  rw [Dialect.stops, ← hstrict]
  cases h with
  | skipped h => simp [h]
  | unrecognized h => simp [h]
  | rejected h =>
      obtain ⟨-, offset, hfound⟩ := recognize_of_error h
      simp [hfound, keyword_ne_endWork h]

end Execution.Inert

/-! ## Sessions without the deleted lines -/

namespace CommandError

/-- The error with the number that its line has after the deletion of others. -/
def renumber (deleted : Nat → Bool) (e : CommandError) : CommandError :=
  { e with line := e.line - deletedBefore deleted (e.line - 1) }

theorem renumber_laterBy {deleted : Nat → Bool} {e : CommandError} {place : Nat}
    (h : e.line + deletedBefore deleted place = place + 1) :
    (e.laterBy (deletedBefore deleted place)).renumber deleted = e := by
  have hline : (e.laterBy (deletedBefore deleted place)).line = place + 1 := h
  rw [renumber, hline, Nat.add_sub_cancel, ← h, Nat.add_sub_cancel]
  rfl

end CommandError

/-- The errors of the lines that remain, with their new numbers. -/
def remaining (deleted : Nat → Bool) (errors : List CommandError) : List CommandError :=
  (errors.filter fun e => !deleted (e.line - 1)).map (CommandError.renumber deleted)

theorem remaining_append (deleted : Nat → Bool) (first later : List CommandError) :
    remaining deleted (first ++ later) = remaining deleted first ++ remaining deleted later := by
  simp [remaining]

namespace Session

/-- The first session has executed lines one after the other, the second all that are not deleted. -/
structure Shortened (deleted : Nat → Bool) (s t : Session α) : Prop where
  ahead : Ahead (deletedBefore deleted s.line) s t
  queue : s.queue = t.queue
  strict : s.settings.dialect = .strict
  unlimited : s.sink.limit = none

theorem answers_cons (s : Session α) (line : List Char) (lines : List (List Char)) :
    s.answers (line :: lines) = [(s.execute line).2] ++ (s.execute line).1.answers lines := rfl

namespace Shortened

variable {deleted : Nat → Bool} {s t : Session α}

/-- The second session leaves an inert line out. -/
theorem skip (h : Shortened deleted s t) (hdeleted : deleted s.line) {line : List Char}
    (hinert : (⟨s, line⟩ : Execution α).Inert) :
    Shortened deleted (s.execute line).1 t ∧
      remaining deleted (errorsOf [(s.execute line).2]) = [] := by
  obtain ⟨hstep, hdrawn, hbytes⟩ := hinert.step_eq h.strict h.unlimited
  refine ⟨⟨⟨?_, ?_, ?_⟩, ?_, ?_, ?_⟩, ?_⟩
  · rw [context_execute, hstep, h.ahead.context]
  · rw [sink_execute, hbytes, Sink.write_nil, h.ahead.sink]
  · rw [line_execute, deletedBefore_succ, if_pos hdeleted, ← Nat.add_assoc, ← h.ahead.line]
  · rw [queue_execute, hdrawn, ← h.queue]
    simp
  · rw [settings_execute, h.strict]
  · exact Execution.limit_next (e := ⟨s, line⟩) h.unlimited
  · cases hresult : (s.execute line).2 with
    | ok _ => rfl
    | error e => simp [remaining, line_of_execute hresult, hdeleted]

/-- Both sessions execute a line that is not deleted. -/
theorem execute (h : Shortened deleted s t) (hkept : deleted s.line = false) (line : List Char) :
    Shortened deleted (s.execute line).1 (t.execute line).1 ∧
      errorsOf [(t.execute line).2] = remaining deleted (errorsOf [(s.execute line).2]) := by
  have hbefore : deletedBefore deleted (s.execute line).1.line = deletedBefore deleted s.line := by
    rw [line_execute, deletedBefore_succ, if_neg (by simp [hkept]), Nat.add_zero]
  obtain ⟨hahead, hresult⟩ := h.ahead.execute line
  refine ⟨⟨by rwa [hbefore], ?_, ?_, ?_⟩, ?_⟩
  · rw [queue_execute, queue_execute, h.ahead.context, h.queue]
  · rw [settings_execute, h.strict]
  · exact Execution.limit_next (e := ⟨s, line⟩) h.unlimited
  · cases ht : (t.execute line).2 with
    | ok _ =>
        rw [ht] at hresult
        rw [hresult]
        rfl
    | error e =>
        rw [ht, mapError_error] at hresult
        have hnumber : e.line + deletedBefore deleted s.line = s.line + 1 := line_of_execute hresult
        have hplace : (e.laterBy (deletedBefore deleted s.line)).line = s.line + 1 := hnumber
        rw [hresult, remaining, errorsOf_cons_error, errorsOf_cons_error, errorsOf_nil]
        simp [hplace, hkept, CommandError.renumber_laterBy hnumber]

theorem after (h : Shortened deleted s t) {lines : List (List Char)}
    (hinert : ∀ (i : Nat) e, (s.executions lines)[i]? = some e → deleted (s.line + i) → e.Inert) :
    Shortened deleted (s.after lines) (t.after (undeleted deleted s.line lines)) ∧
      errorsOf (t.answers (undeleted deleted s.line lines)) =
        remaining deleted (errorsOf (s.answers lines)) := by
  induction lines generalizing s t with
  | nil => exact ⟨h, rfl⟩
  | cons line lines ih =>
      have hrest : ∀ (i : Nat) e, ((s.execute line).1.executions lines)[i]? = some e →
          deleted ((s.execute line).1.line + i) → e.Inert := by
        intro i e he hi
        rw [line_execute, Nat.add_right_comm] at hi
        exact hinert (i + 1) e (by simpa [executions] using he) hi
      rw [after_cons, answers_cons, errorsOf_append, remaining_append]
      cases hn : deleted s.line with
      | true =>
          obtain ⟨hskip, hnone⟩ := h.skip hn (hinert 0 ⟨s, line⟩ rfl hn)
          have := ih hskip hrest
          rw [line_execute] at this
          rw [undeleted_cons_of_deleted hn, hnone, List.nil_append]
          exact this
      | false =>
          obtain ⟨hboth, herrors⟩ := h.execute hn line
          obtain ⟨hafter, hanswers⟩ := ih hboth hrest
          rw [line_execute] at hafter hanswers
          rw [undeleted_cons_of_kept hn, after_cons, answers_cons, errorsOf_append, herrors, hanswers]
          exact ⟨hafter, rfl⟩

end Shortened

/-! ## Runs without the deleted lines -/

/--
Lines that were inert when a strict session ran them can be deleted from the source. The run without
them draws and writes the same, ends the same way and leaves the same session. Its errors are those of
the lines that remain, with as much taken off each number as lines before it were deleted.
-/
theorem run_without (s : Session α) (hstrict : s.settings.dialect = .strict)
    (hunlimited : s.sink.limit = none) (bytes : List UInt8) (deleted : Nat → Bool)
    (hinert : ∀ (i : Nat) e, (s.beginPass.executions (s.ranLines ⟨bytes, none⟩))[i]? = some e →
      deleted i → e.Inert) :
    let whole := s.run ⟨bytes, none⟩
    let short := s.run ⟨Source.without deleted bytes, none⟩
    short.1.store = whole.1.store ∧ short.1.generator = whole.1.generator ∧
      short.1.sink = whole.1.sink ∧ short.1.queue = whole.1.queue ∧
      ∃ p q, whole.2 = .ok p ∧ short.2 = .ok q ∧ q.shapes = p.shapes ∧
        q.terminated = p.terminated ∧ q.lines + deletedBefore deleted p.lines = p.lines ∧
        q.errors.toList = (p.errors.toList.filter fun e => !deleted (e.line - 1)).map fun e =>
          { e with line := e.line - deletedBefore deleted (e.line - 1) } := by
  intro whole short
  have hstops : ∀ (i : Nat) line, (s.ranLines ⟨bytes, none⟩)[i]? = some line → deleted (0 + i) →
      s.settings.dialect.stops line = false := by
    intro i line hline hi
    obtain ⟨e, he, rfl⟩ := exists_execution_of_getElem? (s := s.beginPass) hline
    rw [Nat.zero_add] at hi
    have hsettings := settings_of_mem_executions (List.mem_of_getElem? he)
    rw [hstrict]
    exact (hinert i e he hi).stops_eq_false (by rw [hsettings]; exact hstrict)
  have hran : s.ranLines ⟨Source.without deleted bytes, none⟩ =
      undeleted deleted 0 (s.ranLines ⟨bytes, none⟩) := by
    rw [ranLines, Source.lines, Source.linesOf_without, ← undeleted_map]
    exact throughFirst_undeleted hstops
  have hbegin : Shortened deleted s.beginPass s.beginPass :=
    ⟨⟨rfl, rfl, rfl⟩, rfl, hstrict, hunlimited⟩
  have hplaces : ∀ (i : Nat) e, (s.beginPass.executions (s.ranLines ⟨bytes, none⟩))[i]? = some e →
      deleted (s.beginPass.line + i) → e.Inert := by
    intro i e he hi
    exact hinert i e he (by simpa [beginPass] using hi)
  obtain ⟨hshort, herrors⟩ := hbegin.after hplaces
  have hwhole := alike_run s ⟨bytes, none⟩
  have hremains := alike_run s ⟨Source.without deleted bytes, none⟩
  rw [hran] at hremains
  have hcontext : short.1.context = whole.1.context :=
    hremains.context.symm.trans (hshort.ahead.context.symm.trans hwhole.context)
  have hsink : short.1.sink = whole.1.sink :=
    hremains.sink.symm.trans (hshort.ahead.sink.symm.trans hwhole.sink)
  have hqueue : short.1.queue = whole.1.queue :=
    (queue_of_ended s _ (Or.inr rfl)).trans (queue_of_ended s _ (Or.inr rfl)).symm
  refine ⟨congrArg Context.store hcontext, congrArg Context.generator hcontext, hsink, hqueue,
    _, _, outcome_of_ended s _ (Or.inr rfl), outcome_of_ended s _ (Or.inr rfl), ?_, ?_, ?_, ?_⟩
  · rw [hran]
    exact hshort.queue.symm
  · rw [hran]
    exact any_undeleted hstops
  · have hlines := hshort.ahead.line
    rw [line_after, line_after] at hlines
    rw [hran]
    simpa [passOf, beginPass] using hlines.symm
  · rw [hran]
    exact herrors

theorem run_without_comment_square_and_text :
    let s : Session Float := start Settings.standard (.replicate 8 0) none
    let bytes := Utf8.encode
      "// note\ndraw.square(L:2)\ndraw.square(L:x)\nhello\ndraw.pos(x:q)\nend.work\n".toList
    let deleted (place : Nat) : Bool := place == 0 || place == 2 || place == 3
    let short := s.run ⟨Source.without deleted bytes, none⟩
    s.settings.dialect = .strict ∧ s.sink.limit = none ∧
      (∀ (i : Nat) e, (s.beginPass.executions (s.ranLines ⟨bytes, none⟩))[i]? = some e →
        deleted i → e.Inert) ∧
      Source.without deleted bytes =
        Utf8.encode "draw.square(L:2)\ndraw.pos(x:q)\nend.work\n".toList ∧
      ∃ p q, (s.run ⟨bytes, none⟩).2 = .ok p ∧ short.2 = .ok q ∧ q.shapes = p.shapes ∧
        q.lines + 3 = p.lines ∧ q.errors = #[⟨2, .drawPos, .mismatch ⟨12, some 0, .number⟩⟩] := by
  intro s bytes deleted short
  have hran : s.ranLines ⟨bytes, none⟩ = ["// note".toList, "draw.square(L:2)".toList,
      "draw.square(L:x)".toList, "hello".toList, "draw.pos(x:q)".toList, "end.work".toList] := by
    decide +kernel
  have hinert : ∀ (i : Nat) e, (s.beginPass.executions (s.ranLines ⟨bytes, none⟩))[i]? = some e →
      deleted i → e.Inert := by
    rw [hran]
    intro i e he hi
    simp only [deleted, Bool.or_eq_true, beq_iff_eq] at hi
    rcases hi with (rfl | rfl) | rfl <;> cases he
    · exact .skipped (by decide +kernel)
    · exact .rejected (show _ = Except.error ⟨3, .drawSquare, .mismatch ⟨15, some 0, .number⟩⟩ by
        decide +kernel)
    · exact .unrecognized (by decide +kernel)
  obtain ⟨-, -, -, -, p, q, hp, hq, hshapes, -, hlines, herrors⟩ :=
    run_without s rfl rfl bytes deleted hinert
  have hpass : p = s.passOf (s.ranLines ⟨bytes, none⟩) :=
    Except.ok.inj (hp.symm.trans (outcome_of_ended s _ (Or.inr rfl)))
  subst hpass
  refine ⟨rfl, rfl, hinert, by decide +kernel, _, q, hp, hq, hshapes, ?_, ?_⟩
  · rw [← hlines, hran]
    rfl
  · rw [← Array.toList_inj, herrors, hran]
    decide +kernel

end Session
end PenScript
