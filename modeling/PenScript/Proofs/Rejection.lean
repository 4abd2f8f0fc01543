import PenScript.Proofs.Runs

/-!
# Rejected lines

A line is rejected because its arguments cannot be read, because a square is left without a side, or
because the sink is full. Store and queue stay as they are each time. The generator has moved in one
case only: the legacy dialect gives a picked zero up, and then finds no fixed side.
-/

set_option autoImplicit false

namespace PenScript

variable {α : Type} [Scalar α]

/-! ## Causes -/

theorem Context.side_eq_error_iff {c : Context α} {choice : Option String}
    {fixed : Except Mismatch α} {e : Mismatch} :
    c.side choice fixed = .error e ↔ (c.pick choice).1 = none ∧ fixed = .error e := by
  unfold side
  cases (c.pick choice).1 <;> simp

namespace Session

theorem error_cases {s : Session α} {line : List Char} {e : CommandError}
    (h : (s.execute line).2 = .error e) :
    s.context.reading line = .malformed e.keyword e.cause ∨
    (∃ choice mismatch, s.context.reading line = .parsed (.drawSquare choice (.error mismatch)) ∧
      (s.context.pick choice).1 = none ∧ e.keyword = .drawSquare ∧ e.cause = .mismatch mismatch) ∨
    (∃ text reason, s.context.reading line = .parsed (.write text) ∧
      (s.sink.write (Command.write text : Command α).bytes).2 = .error reason ∧
      e.keyword = .write ∧ e.cause = .sinkFailed reason) := by
  rw [result_execute, Context.rejection?, Context.bytes] at h
  cases hr : s.context.reading line with
  | skipped | ignored => simp [hr] at h
  | malformed keyword cause =>
      simp only [hr, Except.error.injEq] at h
      subst h
      exact Or.inl rfl
  | parsed command =>
      right
      cases command with
      | write text =>
          right
          cases hw : (s.sink.write (Command.write text : Command α).bytes).2 with
          | ok _ => simp [hr, Context.refusal?, hw] at h
          | error reason =>
              simp only [hr, Context.refusal?, hw, mapError_error, Option.map_none,
                Except.error.injEq] at h
              subst h
              exact ⟨text, reason, rfl, hw, rfl, rfl⟩
      | drawSquare choice fixed =>
          left
          cases hside : s.context.side choice fixed with
          | ok side => simp [hr, Context.refusal?, hside, Command.bytes] at h
          | error mismatch =>
              obtain ⟨hp, rfl⟩ := Context.side_eq_error_iff.mp hside
              simp only [hr, Context.refusal?, hside, Option.map_some, Except.error.injEq] at h
              subst h
              exact ⟨choice, mismatch, rfl, hp, rfl, rfl⟩
      | _ => simp [hr, Context.refusal?, Command.bytes] at h

end Session

/-! ## What a rejected line leaves -/

/--
A pick is wasted by a legacy square that picks a zero and has no fixed side which could be read.
-/
def Context.WastesPick (c : Context α) (line : List Char) : Prop :=
  c.settings.dialect = .legacy ∧ ∃ name mismatch value,
    c.reading line = .parsed (.drawSquare (some name) (.error mismatch)) ∧
    (c.generator.pickNamed? c.store name).1 = some value ∧ Scalar.isZero value

theorem Context.not_wastesPick {c : Context α} {line : List Char}
    (h : ∀ choice mismatch, c.reading line ≠ .parsed (.drawSquare choice (.error mismatch))) :
    ¬ c.WastesPick line := by
  rintro ⟨-, name, mismatch, -, hr, -⟩
  exact h _ _ hr

theorem Context.generator_pick_eq_iff {c : Context α} {line : List Char} {choice : Option String}
    {mismatch : Mismatch} (hr : c.reading line = .parsed (.drawSquare choice (.error mismatch)))
    (hp : (c.pick choice).1 = none) : (c.pick choice).2 = c.generator ↔ ¬ c.WastesPick line := by
  cases choice with
  | none => simp [pick, WastesPick, hr]
  | some name =>
      simp only [pick] at hp ⊢
      rw [Generator.pickNamed?_generator_eq_iff]
      cases hn : (c.generator.pickNamed? c.store name).1 with
      | none => simp [WastesPick, hr, hn]
      | some value =>
          cases hd : c.settings.dialect with
          | strict => simp [hn, hd, Session.keepPick] at hp
          | legacy =>
              have hz : Scalar.isZero value = true := by
                simpa [hn, hd, Session.keepPick] using hp
              simp [WastesPick, hd, hr, hn, hz]

namespace Session

theorem step_of_error {s : Session α} {line : List Char} {e : CommandError}
    (h : (s.execute line).2 = .error e) :
    (s.context.step line).store = s.store ∧ s.context.drawn? line = none ∧
      (s.context.bytes line = [] ∨ ∃ reason, e.keyword = .write ∧ e.cause = .sinkFailed reason) ∧
      ((s.context.step line).generator = s.generator ↔ ¬ s.context.WastesPick line) := by
  rcases error_cases h with hr | ⟨choice, mismatch, hr, hp, -, -⟩ | ⟨text, reason, hr, -, hk, hc⟩
  · have hw : ¬ s.context.WastesPick line := Context.not_wastesPick (by simp [hr])
    simp [Context.step, Context.drawn?, Context.bytes, hr, hw]
  · have hside : s.context.side choice (.error mismatch) = .error mismatch :=
      Context.side_eq_error_iff.mpr ⟨hp, rfl⟩
    have hgenerator := Context.generator_pick_eq_iff hr hp
    refine ⟨?_, ?_, Or.inl ?_, ?_⟩
    · simp [Context.step, hr, Context.carryOut]
    · simp [Context.drawn?, hr, Context.shape?, hside, Except.toOption]
    · simp [Context.bytes, hr, Command.bytes]
    · simpa [Context.step, hr, Context.carryOut] using hgenerator
  · have hw : ¬ s.context.WastesPick line := Context.not_wastesPick (by simp [hr])
    refine ⟨?_, ?_, Or.inr ⟨reason, hk, hc⟩, ?_⟩
    · simp [Context.step, hr, Context.carryOut]
    · simp [Context.drawn?, hr, Context.shape?]
    · simp [Context.step, hr, Context.carryOut, hw]

/--
A rejected line changes neither store nor queue, and the sink only where the sink itself refused a
write. The generator moves, and with it what is drawn later may change, exactly where the line wastes
a pick.
-/
theorem rejected_line_frame {s : Session α} {line : List Char} {e : CommandError}
    (h : (s.execute line).2 = .error e) :
    let t := (s.execute line).1
    t.settings = s.settings ∧ t.store = s.store ∧ t.queue = s.queue ∧ t.line = s.line + 1 ∧
      (t.sink = s.sink ∨ ∃ reason, e.keyword = .write ∧ e.cause = .sinkFailed reason) ∧
      (t.generator = s.generator ↔ ¬ s.context.WastesPick line) ∧
      (¬ s.context.WastesPick line → ∀ later, t.context.drawn later = s.context.drawn later) := by
  intro t
  have hcontext : t.context = s.context.step line := context_execute s line
  have hsettings : t.settings = s.settings := settings_execute s line
  obtain ⟨hstore, hdrawn, hbytes, hgenerator⟩ := step_of_error h
  rw [← hcontext] at hstore hgenerator
  refine ⟨hsettings, hstore, ?_, line_execute s line, ?_, hgenerator, ?_⟩
  · rw [queue_execute, hdrawn]
    simp
  · refine hbytes.imp (fun hb => ?_) id
    rw [sink_execute, hb, Sink.write_nil]
  · intro hw later
    have hsame : t.context = s.context := by
      rw [context, hsettings, ← context_store, hstore, ← context_generator, hgenerator.mpr hw]
      rfl
    rw [hsame]

theorem rejected_square_frame :
    let s : Session Float :=
      start { Settings.standard with dialect := .legacy } (.replicate 8 0) none
    let line := "draw.square(random.choice(\"z\"))".toList
    let t := (s.execute line).1
    (s.execute line).2 = .error ⟨1, .drawSquare, .mismatch ⟨13, none, .char 'L'⟩⟩ ∧
      t.store = s.store ∧ t.queue = s.queue ∧
      (t.generator = s.generator ↔ ¬ s.context.WastesPick line) := by
  intro s line t
  have h : (s.execute line).2 = .error ⟨1, .drawSquare, .mismatch ⟨13, none, .char 'L'⟩⟩ := by
    decide +kernel
  obtain ⟨-, hstore, hqueue, -, -, hgenerator, -⟩ := rejected_line_frame h
  exact ⟨h, hstore, hqueue, hgenerator⟩

/-- A rejected square that wastes a pick changes what the next square picks. -/
theorem rejected_square_moves_generator :
    let s : Session Float :=
      (start { Settings.standard with dialect := .legacy, seed := some 27 } (.replicate 8 0)
        none).after
        ["create.list[0]".toList, "list.name(\"z\")".toList, "create.list[1,2]".toList,
          "list.name(\"n\")".toList]
    let outcome := s.execute "draw.square(random.choice(\"z\"))".toList
    let next := "draw.square(random.choice(\"n\"))".toList
    outcome.2 = .error ⟨5, .drawSquare, .mismatch ⟨13, none, .char 'L'⟩⟩ ∧
      outcome.1.generator ≠ s.generator ∧
      outcome.1.context.drawn? next ≠ s.context.drawn? next := by
  decide +kernel

end Session
end PenScript
