import PenScript.Proofs.Lines
import PenScript.Proofs.Steps

/-!
# Runs

A run executes the lines of its source in order, up to and including the first that ends the script.
Its pass holds what these executions answered and what the queue held after them.
-/

set_option autoImplicit false

namespace PenScript

/-! ## Lines up to an ending -/

/-- The items up to the first that satisfies `p`, and that one. -/
def throughFirst {β : Type} (p : β → Bool) (items : List β) : List β :=
  items.takeWhile (fun x => !p x) ++ (items.dropWhile fun x => !p x).take 1

@[simp] theorem throughFirst_nil {β : Type} (p : β → Bool) : throughFirst p [] = [] := rfl

theorem throughFirst_cons_of_pos {β : Type} {p : β → Bool} {x : β} (items : List β) (h : p x) :
    throughFirst p (x :: items) = [x] := by
  simp [throughFirst, h]

theorem throughFirst_cons_of_neg {β : Type} {p : β → Bool} {x : β} (items : List β)
    (h : p x = false) : throughFirst p (x :: items) = x :: throughFirst p items := by
  simp [throughFirst, h]

theorem throughFirst_append {β : Type} {p : β → Bool} {first : List β}
    (h : ∀ x ∈ first, p x = false) (later : List β) :
    throughFirst p (first ++ later) = first ++ throughFirst p later := by
  induction first with
  | nil => rfl
  | cons x first ih =>
      obtain ⟨hx, hrest⟩ := List.forall_mem_cons.mp h
      rw [List.cons_append, throughFirst_cons_of_neg _ hx, ih hrest, List.cons_append]

theorem throughFirst_eq_self {β : Type} {p : β → Bool} {items : List β}
    (h : ∀ x ∈ items, p x = false) : throughFirst p items = items := by
  simpa using throughFirst_append h []

theorem any_throughFirst {β : Type} (p : β → Bool) (items : List β) :
    (throughFirst p items).any p = items.any p := by
  induction items with
  | nil => rfl
  | cons x items ih =>
      cases hx : p x with
      | true => simp [throughFirst_cons_of_pos items hx, hx]
      | false => rw [throughFirst_cons_of_neg items hx, List.any_cons, List.any_cons, ih]

theorem throughFirst_prefix_self {β : Type} (p : β → Bool) (items : List β) :
    throughFirst p items <+: items := by
  have hsplit := List.takeWhile_append_dropWhile (p := fun x => !p x) (l := items)
  have hfirst := List.take_prefix 1 (items.dropWhile fun x => !p x)
  rwa [← List.prefix_append_right_inj (items.takeWhile fun x => !p x), hsplit] at hfirst

theorem throughFirst_congr {β : Type} {p q : β → Bool} {items : List β}
    (h : ∀ x ∈ items, p x = q x) : throughFirst p items = throughFirst q items := by
  induction items with
  | nil => rfl
  | cons x items ih =>
      have hx := h x (List.mem_cons_self ..)
      have ih := ih fun y hy => h y (List.mem_cons_of_mem x hy)
      cases hp : p x with
      | true => rw [throughFirst_cons_of_pos items hp, throughFirst_cons_of_pos items (hx ▸ hp)]
      | false =>
          rw [throughFirst_cons_of_neg items hp, throughFirst_cons_of_neg items (hx ▸ hp), ih]

theorem throughFirst_map {β γ : Type} (p : γ → Bool) (f : β → γ) (items : List β) :
    throughFirst p (items.map f) = (throughFirst (p ∘ f) items).map f := by
  simp [throughFirst, List.takeWhile_map, List.dropWhile_map, List.map_take, Function.comp_def]

/-! ## Answers -/

def errorsOf (answers : List (Except CommandError Unit)) : List CommandError :=
  answers.filterMap fun
    | .ok _ => none
    | .error e => some e

@[simp] theorem errorsOf_nil : errorsOf [] = [] := rfl

@[simp] theorem errorsOf_cons_ok (u : Unit) (answers : List (Except CommandError Unit)) :
    errorsOf (.ok u :: answers) = errorsOf answers := rfl

@[simp] theorem errorsOf_cons_error (e : CommandError) (answers : List (Except CommandError Unit)) :
    errorsOf (.error e :: answers) = e :: errorsOf answers := rfl

namespace Progress

def add (progress : Progress) (answers : List (Except CommandError Unit)) : Progress :=
  ⟨progress.errors ++ (errorsOf answers).toArray, progress.lines + answers.length⟩

@[simp] theorem add_nil (progress : Progress) : progress.add [] = progress := by
  simp [add, errorsOf]

theorem add_append (progress : Progress) (first later : List (Except CommandError Unit)) :
    progress.add (first ++ later) = (progress.add first).add later := by
  simp [add, errorsOf, Nat.add_assoc]

end Progress

variable {α : Type} [Scalar α]

/-! ## Executing lines -/

namespace Context

def after (c : Context α) (lines : List (List Char)) : Context α :=
  lines.foldl step c

def drawn (c : Context α) : List (List Char) → List (Shape α)
  | [] => []
  | line :: lines => (c.drawn? line).toList ++ (c.step line).drawn lines

theorem after_append (c : Context α) (first later : List (List Char)) :
    c.after (first ++ later) = (c.after first).after later :=
  List.foldl_append

theorem settings_after (c : Context α) (lines : List (List Char)) :
    (c.after lines).settings = c.settings := by
  induction lines generalizing c with
  | nil => rfl
  | cons line lines ih => exact (ih (c.step line)).trans (settings_step c line)

end Context

namespace Session

def after (s : Session α) (lines : List (List Char)) : Session α :=
  lines.foldl (fun s line => (s.execute line).1) s

/-- What the executions of lines return. -/
def answers (s : Session α) : List (List Char) → List (Except CommandError Unit)
  | [] => []
  | line :: lines => (s.execute line).2 :: (s.execute line).1.answers lines

@[simp] theorem after_nil (s : Session α) : s.after [] = s := rfl

theorem after_cons (s : Session α) (line : List Char) (lines : List (List Char)) :
    s.after (line :: lines) = (s.execute line).1.after lines := rfl

theorem after_append (s : Session α) (first later : List (List Char)) :
    s.after (first ++ later) = (s.after first).after later :=
  List.foldl_append

theorem answers_append (s : Session α) (first later : List (List Char)) :
    s.answers (first ++ later) = s.answers first ++ (s.after first).answers later := by
  induction first generalizing s with
  | nil => rfl
  | cons line first ih => rw [List.cons_append, answers, answers, ih, List.cons_append, after_cons]

theorem context_after (s : Session α) (lines : List (List Char)) :
    (s.after lines).context = s.context.after lines := by
  induction lines generalizing s with
  | nil => rfl
  | cons line lines ih =>
      rw [after_cons, ih, context_execute]
      rfl

theorem queue_after (s : Session α) (lines : List (List Char)) :
    (s.after lines).queue.toList = s.queue.toList ++ s.context.drawn lines := by
  induction lines generalizing s with
  | nil => simp [Context.drawn]
  | cons line lines ih =>
      rw [after_cons, ih, queue_execute, context_execute, Context.drawn]
      simp

theorem line_after (s : Session α) (lines : List (List Char)) :
    (s.after lines).line = s.line + lines.length := by
  induction lines generalizing s with
  | nil => rfl
  | cons line lines ih =>
      rw [after_cons, ih, line_execute, List.length_cons]
      omega

theorem line_of_execute {s : Session α} {line : List Char} {e : CommandError}
    (h : (s.execute line).2 = .error e) : e.line = s.line + 1 := by
  rw [result_execute] at h
  split at h
  · cases h; rfl
  · cases hw : (s.sink.write (s.context.bytes line)).2 with
    | ok _ => rw [hw] at h; cases h
    | error reason => rw [hw] at h; cases h; rfl

theorem line_of_answers {s : Session α} {lines : List (List Char)} {i : Nat} {e : CommandError}
    (h : (s.answers lines)[i]? = some (.error e)) : e.line = s.line + i + 1 := by
  induction lines generalizing s i with
  | nil => simp [answers] at h
  | cons line lines ih =>
      cases i with
      | zero => exact line_of_execute (by simpa [answers] using h)
      | succ i =>
          have := ih (s := (s.execute line).1) (i := i) (by simpa [answers] using h)
          rw [this, line_execute]
          omega

/-! ## Notes -/

def silent (s : Session α) : Session α :=
  { s with notes := #[] }

omit [Scalar α] in
theorem silent_eq_iff {s t : Session α} :
    s.silent = t.silent ↔
      s.context = t.context ∧ s.sink = t.sink ∧ s.queue = t.queue ∧ s.line = t.line := by
  obtain ⟨⟩ := s
  obtain ⟨⟩ := t
  simp [silent, context]
  tauto

theorem silent_execute {s t : Session α} (h : s.silent = t.silent) (line : List Char) :
    (s.execute line).1.silent = (t.execute line).1.silent ∧
      (s.execute line).2 = (t.execute line).2 := by
  obtain ⟨hc, hs, hq, hl⟩ := silent_eq_iff.mp h
  constructor
  · rw [silent_eq_iff]
    simp only [context_execute, sink_execute, queue_execute, line_execute, hc, hs, hq, hl, and_self]
  · simp only [result_execute, hc, hs, hl]

theorem silent_after {s t : Session α} (h : s.silent = t.silent) (lines : List (List Char)) :
    (s.after lines).silent = (t.after lines).silent ∧ s.answers lines = t.answers lines := by
  induction lines generalizing s t with
  | nil => exact ⟨h, rfl⟩
  | cons line lines ih =>
      obtain ⟨hs, hr⟩ := silent_execute h line
      obtain ⟨ha, hrs⟩ := ih hs
      exact ⟨ha, by rw [answers, answers, hr, hrs]⟩

/-! ## One line of a pass -/

omit [Scalar α] in
theorem silent_noteBytes (s : Session α) (line : Nat) (bytes : List UInt8) :
    (s.noteBytes line bytes).silent = s.silent := by
  unfold noteBytes
  split <;> rfl

theorem runLine_eq (s : Session α) (progress : Progress) (bytes : List UInt8) :
    (s.runLine progress bytes).1.silent = (s.execute (Utf8.decodeLossy bytes)).1.silent ∧
      (s.runLine progress bytes).2 =
        Progress.add progress [(s.execute (Utf8.decodeLossy bytes)).2] := by
  obtain ⟨hs, hr⟩ := silent_execute (silent_noteBytes s (progress.lines + 1) bytes)
    (Utf8.decodeLossy bytes)
  rw [← hs, ← hr, runLine]
  generalize (s.noteBytes (progress.lines + 1) bytes).execute (Utf8.decodeLossy bytes) = outcome
  obtain ⟨t, result⟩ := outcome
  cases result <;> simp [Progress.add, errorsOf, silent, note]

/-! ## Passes -/

def ranLines (s : Session α) (source : Source) : List (List Char) :=
  throughFirst s.settings.dialect.stops (source.lines.map Utf8.decodeLossy)

omit [Scalar α] in
theorem ranLines_prefix (s : Session α) (source : Source) :
    s.ranLines source <+: source.lines.map Utf8.decodeLossy :=
  throughFirst_prefix_self _ _

omit [Scalar α] in
theorem settings_of_silent {s t : Session α} (h : s.silent = t.silent) :
    s.settings = t.settings :=
  congrArg Context.settings (silent_eq_iff.mp h).1

theorem settings_execute (s : Session α) (line : List Char) :
    (s.execute line).1.settings = s.settings := by
  have h := congrArg Context.settings (context_execute s line)
  simpa using h

theorem stopsAt_eq {s t : Session α} {line : List Char}
    (h : t.silent = (s.execute line).1.silent) (bytes : List UInt8) :
    t.stopsAt bytes = s.settings.dialect.stops (Utf8.decodeLossy bytes) := by
  rw [stopsAt, settings_of_silent h, settings_execute]

theorem runFrom_eq (s : Session α) (progress : Progress) (source : Source) :
    ∃ t, t.silent = (s.after (s.ranLines source)).silent ∧
      s.runFrom progress source =
        let progress := progress.add (s.answers (s.ranLines source))
        if (s.ranLines source).any s.settings.dialect.stops then t.finished progress true
        else match source.fault with
          | none => t.finished progress false
          | some reason => (t, .error (.reading (progress.lines + 1) reason)) := by
  -- Along the run's own recursion. Only silent sessions can be compared, since a pass adds notes
  -- of its own between the lines.
  fun_induction runFrom s progress source with
  | case1 s progress source h =>
      obtain ⟨hl, hf⟩ := Source.lines_of_fetch_finished h
      exact ⟨s, by simp [ranLines, hl], by simp [ranLines, hl, hf, answers]⟩
  | case2 s progress source reason h =>
      obtain ⟨hl, hf⟩ := Source.lines_of_fetch_failed h
      exact ⟨s, by simp [ranLines, hl], by simp [ranLines, hl, hf, answers]⟩
  | case3 s progress source bytes rest h t progress' hrun hstop =>
      obtain ⟨hl, -⟩ := Source.lines_of_fetch_line h
      obtain ⟨ht, hp⟩ := runLine_eq s progress bytes
      simp only [hrun] at ht hp
      rw [stopsAt_eq ht] at hstop
      have hran : s.ranLines source = [Utf8.decodeLossy bytes] := by
        rw [ranLines, hl, List.map_cons, throughFirst_cons_of_pos _ hstop]
      exact ⟨t, by rw [hran]; exact ht, by simp [hran, hstop, answers, ← hp]⟩
  | case4 s progress source bytes rest h t progress' hrun hstop ih =>
      obtain ⟨hl, hf⟩ := Source.lines_of_fetch_line h
      obtain ⟨ht, hp⟩ := runLine_eq s progress bytes
      simp only [hrun] at ht hp
      rw [Bool.not_eq_true, stopsAt_eq ht] at hstop
      have hsettings : t.settings = s.settings := by
        rw [settings_of_silent ht, settings_execute]
      have hran : s.ranLines source = Utf8.decodeLossy bytes :: t.ranLines rest := by
        rw [ranLines, hl, List.map_cons, throughFirst_cons_of_neg _ hstop, ranLines, hsettings]
      obtain ⟨ha, hr⟩ := silent_after ht (t.ranLines rest)
      obtain ⟨u, hu, hrun⟩ := ih
      refine ⟨u, by rw [hu, ha, hran, after_cons], ?_⟩
      have hadd : progress.add (s.answers (s.ranLines source)) =
          progress'.add (t.answers (t.ranLines rest)) := by
        rw [hran, answers, hr, hp, ← Progress.add_append]
        rfl
      rw [hrun, hadd, hran, hf, hsettings, List.any_cons, hstop, Bool.false_or]

/-- The fault that breaks a run off: that of the source, unless a line has ended the script. -/
def fault? (s : Session α) (source : Source) : Option String :=
  if (s.ranLines source).any s.settings.dialect.stops then none else source.fault

omit [Scalar α] in
theorem fault?_eq_none_iff {s : Session α} {source : Source} :
    s.fault? source = none ↔
      (s.ranLines source).any s.settings.dialect.stops ∨ source.fault = none := by
  cases hstop : (s.ranLines source).any s.settings.dialect.stops <;> simp [fault?, hstop]

omit [Scalar α] in
theorem fault?_eq_some_iff {s : Session α} {source : Source} {reason : String} :
    s.fault? source = some reason ↔
      (s.ranLines source).any s.settings.dialect.stops = false ∧ source.fault = some reason := by
  cases hstop : (s.ranLines source).any s.settings.dialect.stops <;> simp [fault?, hstop]

theorem length_answers (s : Session α) (lines : List (List Char)) :
    (s.answers lines).length = lines.length := by
  induction lines generalizing s with
  | nil => rfl
  | cons line lines ih => simp [answers, ih]

def passOf (s : Session α) (lines : List (List Char)) : Pass α where
  shapes := (s.beginPass.after lines).queue
  errors := (errorsOf (s.beginPass.answers lines)).toArray
  lines := lines.length
  terminated := lines.any s.settings.dialect.stops

theorem run_eq (s : Session α) (source : Source) :
    ∃ t, t.silent = (s.beginPass.after (s.ranLines source)).silent ∧
      s.run source =
        let progress := Progress.none.add (s.beginPass.answers (s.ranLines source))
        if (s.ranLines source).any s.settings.dialect.stops then t.finished progress true
        else match source.fault with
          | none => t.finished progress false
          | some reason => (t, .error (.reading (progress.lines + 1) reason)) :=
  runFrom_eq s.beginPass .none source

/-- A run comes to its end where a line ends the script or the source does not fail. -/
theorem run_of_ended (s : Session α) (source : Source)
    (h : (s.ranLines source).any s.settings.dialect.stops ∨ source.fault = none) :
    ∃ t, s.run source = (t, .ok (s.passOf (s.ranLines source))) ∧
      t.silent = { s.beginPass.after (s.ranLines source) with queue := #[] }.silent := by
  obtain ⟨t, ht, hrun⟩ := run_eq s source
  obtain ⟨hc, hs, hq, hl⟩ := silent_eq_iff.mp ht
  have hfinished : s.run source = t.finished
      (Progress.none.add (s.beginPass.answers (s.ranLines source)))
      ((s.ranLines source).any s.settings.dialect.stops) := by
    rw [hrun]
    cases hstop : (s.ranLines source).any s.settings.dialect.stops with
    | true => rfl
    | false =>
        have hfault : source.fault = none := by simpa [hstop] using h
        simp [hfault]
  refine ⟨(s.run source).1, Prod.ext rfl ?_, ?_⟩
  · rw [hfinished, passOf, ← hq]
    simp [finished, finish, takeShapes, Progress.add, Progress.none, length_answers]
  · rw [hfinished]
    exact silent_eq_iff.mpr ⟨hc, hs, rfl, hl⟩

/-- A run breaks off where the source fails before any line has ended the script. -/
theorem run_of_broken (s : Session α) (source : Source) {reason : String}
    (h : (s.ranLines source).any s.settings.dialect.stops = false)
    (hfault : source.fault = some reason) :
    ∃ t, s.run source = (t, .error (.reading ((s.ranLines source).length + 1) reason)) ∧
      t.silent = (s.beginPass.after (s.ranLines source)).silent := by
  obtain ⟨t, ht, hrun⟩ := run_eq s source
  refine ⟨t, ?_, ht⟩
  rw [hrun, h, hfault]
  simp [Progress.add, Progress.none, length_answers]

theorem outcome_of_ended (s : Session α) (source : Source)
    (h : (s.ranLines source).any s.settings.dialect.stops ∨ source.fault = none) :
    (s.run source).2 = .ok (s.passOf (s.ranLines source)) := by
  obtain ⟨t, hrun, -⟩ := run_of_ended s source h
  rw [hrun]

theorem queue_of_ended (s : Session α) (source : Source)
    (h : (s.ranLines source).any s.settings.dialect.stops ∨ source.fault = none) :
    (s.run source).1.queue = #[] := by
  obtain ⟨t, hrun, ht⟩ := run_of_ended s source h
  rw [hrun]
  exact (silent_eq_iff.mp ht).2.2.1

theorem outcome_of_broken (s : Session α) (source : Source) {reason : String}
    (h : (s.ranLines source).any s.settings.dialect.stops = false)
    (hfault : source.fault = some reason) :
    (s.run source).2 = .error (.reading ((s.ranLines source).length + 1) reason) := by
  obtain ⟨t, hrun, -⟩ := run_of_broken s source h hfault
  rw [hrun]

theorem queue_of_broken (s : Session α) (source : Source) {reason : String}
    (h : (s.ranLines source).any s.settings.dialect.stops = false)
    (hfault : source.fault = some reason) :
    (s.run source).1.queue = (s.passOf (s.ranLines source)).shapes := by
  obtain ⟨t, hrun, ht⟩ := run_of_broken s source h hfault
  rw [hrun]
  exact (silent_eq_iff.mp ht).2.2.1

theorem outcome_run (s : Session α) (source : Source) :
    (s.run source).2 = match s.fault? source with
      | none => .ok (s.passOf (s.ranLines source))
      | some reason => .error (.reading ((s.ranLines source).length + 1) reason) := by
  cases hfault : s.fault? source with
  | none => exact outcome_of_ended s source (fault?_eq_none_iff.mp hfault)
  | some reason =>
      obtain ⟨hstop, hreason⟩ := fault?_eq_some_iff.mp hfault
      exact outcome_of_broken s source hstop hreason

theorem queue_run (s : Session α) (source : Source) :
    (s.run source).1.queue = match s.fault? source with
      | none => #[]
      | some _ => (s.passOf (s.ranLines source)).shapes := by
  cases hfault : s.fault? source with
  | none => exact queue_of_ended s source (fault?_eq_none_iff.mp hfault)
  | some reason =>
      obtain ⟨hstop, hreason⟩ := fault?_eq_some_iff.mp hfault
      exact queue_of_broken s source hstop hreason

theorem run_cases (s : Session α) (source : Source) :
    (∃ t, s.run source = (t, .ok (s.passOf (s.ranLines source))) ∧
      t.silent = { s.beginPass.after (s.ranLines source) with queue := #[] }.silent) ∨
    ∃ t e, s.run source = (t, .error e) ∧
      t.silent = (s.beginPass.after (s.ranLines source)).silent := by
  cases hstop : (s.ranLines source).any s.settings.dialect.stops with
  | true => exact Or.inl (run_of_ended s source (Or.inl hstop))
  | false =>
      cases hfault : source.fault with
      | none => exact Or.inl (run_of_ended s source (Or.inr hfault))
      | some reason =>
          obtain ⟨t, hrun, ht⟩ := run_of_broken s source hstop hfault
          exact Or.inr ⟨t, _, hrun, ht⟩

theorem context_run (s : Session α) (source : Source) :
    (s.run source).1.context = s.context.after (s.ranLines source) := by
  have hafter := context_after s.beginPass (s.ranLines source)
  rcases run_cases s source with ⟨t, hrun, ht⟩ | ⟨t, e, hrun, ht⟩ <;> rw [hrun] <;>
    exact (silent_eq_iff.mp ht).1.trans hafter

theorem settings_run (s : Session α) (source : Source) :
    (s.run source).1.settings = s.settings := by
  rw [← context_settings, context_run, Context.settings_after, context_settings]

theorem sink_run (s : Session α) (source : Source) :
    (s.run source).1.sink = (s.beginPass.after (s.ranLines source)).sink := by
  rcases run_cases s source with ⟨t, hrun, ht⟩ | ⟨t, e, hrun, ht⟩ <;> rw [hrun] <;>
    exact (silent_eq_iff.mp ht).2.1

theorem line_run (s : Session α) (source : Source) :
    (s.run source).1.line = (s.ranLines source).length := by
  have hafter := line_after s.beginPass (s.ranLines source)
  rw [beginPass, Nat.zero_add] at hafter
  rcases run_cases s source with ⟨t, hrun, ht⟩ | ⟨t, e, hrun, ht⟩ <;> rw [hrun] <;>
    exact (silent_eq_iff.mp ht).2.2.2.trans hafter

/-- All that a run takes from its source is the text of its lines, and whether it fails. -/
theorem run_congr (s : Session α) {first later : Source}
    (hlines : s.ranLines first = s.ranLines later) (hfault : first.fault = later.fault) :
    (s.run first).2 = (s.run later).2 ∧ (s.run first).1.silent = (s.run later).1.silent := by
  have hfault? : s.fault? first = s.fault? later := by rw [fault?, fault?, hlines, hfault]
  refine ⟨by rw [outcome_run, outcome_run, hfault?, hlines], silent_eq_iff.mpr ⟨?_, ?_, ?_, ?_⟩⟩
  · rw [context_run, context_run, hlines]
  · rw [sink_run, sink_run, hlines]
  · rw [queue_run, queue_run, hfault?, hlines]
  · rw [line_run, line_run, hlines]

/--
A run of a source that does not fail executes the lines of the bytes, each piece decoded without its
ending, up to and including the first that ends the script. The pass and the session afterwards are
what these executions leave, and no other line takes part.
-/
theorem run_bytes_eq (s : Session α) (bytes : List UInt8) :
    let lines := (Source.pieces bytes).map fun piece =>
      Utf8.decodeLossy (Source.withoutEnding piece)
    let ran := throughFirst s.settings.dialect.stops lines
    let answers := s.beginPass.answers ran
    let last := s.beginPass.after ran
    ∃ t, s.run ⟨bytes, none⟩ =
        (t, .ok ⟨last.queue, (errorsOf answers).toArray, ran.length,
          ran.any s.settings.dialect.stops⟩) ∧
      t.silent = { last with queue := #[] }.silent ∧
      ∀ i e, answers[i]? = some (.error e) → e.line = i + 1 := by
  intro lines ran answers last
  have hran : s.ranLines ⟨bytes, none⟩ = ran := by
    simp [ranLines, Source.lines, Source.linesOf, ran, lines, Function.comp_def]
  obtain ⟨t, hrun, ht⟩ := run_of_ended s ⟨bytes, none⟩ (Or.inr rfl)
  rw [hran] at hrun ht
  refine ⟨t, hrun, ht, ?_⟩
  intro i e he
  have := line_of_answers he
  simpa [beginPass] using this

end Session
end PenScript
