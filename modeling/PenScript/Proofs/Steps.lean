import PenScript.Session.Pass
import PenScript.Proofs.Picks

/-!
# Steps

What one line does to a session. A dialect reads the line, and only a command that it could read does
anything. What becomes of store and generator, and which shape is drawn, follows from the settings,
the store and the generator alone; sink, queue, counter and notes have no part in it.
-/

set_option autoImplicit false

namespace PenScript

variable {α : Type}

@[simp] theorem mapError_ok {β γ : Type} (f : β → γ) (a : α) :
    (Except.ok a : Except β α).mapError f = .ok a := rfl

@[simp] theorem mapError_error {β γ : Type} (f : β → γ) (b : β) :
    (Except.error b : Except β α).mapError f = .error (f b) := rfl

/-! ## Contexts -/

/-- The part of a session that decides what a command does. -/
structure Context (α : Type) where
  settings : Settings α
  store : Store α
  generator : Generator

namespace Session

def context (s : Session α) : Context α :=
  ⟨s.settings, s.store, s.generator⟩

@[simp] theorem context_settings (s : Session α) : s.context.settings = s.settings := rfl

@[simp] theorem context_store (s : Session α) : s.context.store = s.store := rfl

@[simp] theorem context_generator (s : Session α) : s.context.generator = s.generator := rfl

end Session

def Command.bytes : Command α → List UInt8
  | .write text => Utf8.encode (text.toList ++ ['\n'])
  | _ => []

theorem Command.keyword_eq_write_or_bytes_eq_nil (command : Command α) :
    command.keyword = .write ∨ command.bytes = [] := by
  cases command with
  | write text => exact Or.inl rfl
  | _ => exact Or.inr rfl

@[simp] theorem Sink.write_nil (sink : Sink) : sink.write [] = (sink, .ok ()) := by
  obtain ⟨limit, written⟩ := sink
  cases limit <;> simp [write]

variable [Scalar α]

namespace Context

/-- A pick for a square, where a list is asked for, and the generator after it. -/
def pick (c : Context α) : Option String → Option α × Generator
  | none => (none, c.generator)
  | some name =>
      (Session.keepPick c.settings.dialect (c.generator.pickNamed? c.store name).1,
        (c.generator.pickNamed? c.store name).2)

/-- The side of a square: what was picked, or else the fixed side. -/
def side (c : Context α) (choice : Option String) (fixed : Except Mismatch α) :
    Except Mismatch α :=
  match (c.pick choice).1 with
  | some pick => .ok pick
  | none => fixed

def carryOut (c : Context α) : Command α → Context α
  | .createObject name => { c with store := c.store.createObject name }
  | .createList values => { c with store := c.store.setScratch values.toArray }
  | .listName name => { c with store := c.store.nameList name }
  | .drawColor color => { c with store := c.store.setColor color }
  | .drawPos position => { c with store := c.store.setCursor (c.settings.canvas.toSurface position) }
  | .drawSquare choice _ => { c with generator := (c.pick choice).2 }
  | .write _ | .drawCurve .. | .endWork => c

def shape? (c : Context α) : Command α → Option (Shape α)
  | .drawSquare choice fixed =>
      (c.side choice fixed).toOption.map fun side =>
        .rect c.store.cursor side side c.store.color
  | .drawCurve dx dy =>
      some (.polyline ((Curve.arch c.store.cursor dx dy).map fun position =>
        ⟨position, c.store.color⟩))
  | _ => none

/-- Why a command is refused whatever the sink says: a square without any side. -/
def refusal? (c : Context α) : Command α → Option Cause
  | .drawSquare choice fixed =>
      match c.side choice fixed with
      | .ok _ => none
      | .error e => some (.mismatch e)
  | _ => none

end Context

/-! ## Commands -/

namespace Session

theorem pickSide_eq (s : Session α) (choice : Option String) :
    s.pickSide choice =
      ({ s with generator := (s.context.pick choice).2 }, (s.context.pick choice).1) := by
  cases choice <;> rfl

theorem perform_eq (s : Session α) (command : Command α) :
    s.perform command =
      ({ s with
          store := (s.context.carryOut command).store
          generator := (s.context.carryOut command).generator
          sink := (s.sink.write command.bytes).1
          queue := s.queue ++ (s.context.shape? command).toArray },
        match s.context.refusal? command with
        | some cause => .error cause
        | none => (s.sink.write command.bytes).2.mapError .sinkFailed) := by
  cases command with
  | drawSquare choice fixed =>
      cases hp : (s.context.pick choice).1 with
      | some pick =>
          simp [perform, pickSide_eq, hp, Context.carryOut, Context.shape?, Context.refusal?,
            Context.side, Command.bytes, drawSquare, Except.toOption]
      | none =>
          cases fixed <;>
            simp [perform, pickSide_eq, hp, Context.carryOut, Context.shape?, Context.refusal?,
              Context.side, Command.bytes, drawSquare, Except.toOption]
  | drawCurve dx dy =>
      simp [perform, drawCurve, Context.carryOut, Context.shape?, Context.refusal?,
        Command.bytes]
  | _ =>
      simp [perform, Context.carryOut, Context.shape?, Context.refusal?, Command.bytes]

theorem context_perform (s : Session α) (command : Command α) :
    (s.perform command).1.context = s.context.carryOut command := by
  rw [perform_eq]
  cases command <;> rfl

end Session

/-! ## Reading a line -/

inductive Reading (α : Type) where
  | skipped
  | ignored
  | malformed (keyword : Keyword) (cause : Cause)
  | parsed (command : Command α)

def Dialect.reading (dialect : Dialect) (line : List Char) : Reading α :=
  if dialect.skips line then .skipped
  else match dialect.recognize line with
    | none => .ignored
    | some (keyword, offset) =>
        match Command.ofLine keyword line offset with
        | .ok command => .parsed command
        | .error cause => .malformed keyword cause

/-- Nothing comes of the line but a note. -/
inductive Reading.Idle {α : Type} : Reading α → Prop where
  | skipped : Idle .skipped
  | ignored : Idle .ignored
  | endWork : Idle (.parsed .endWork)

/-- The keyword that a line is read for, whether or not its arguments can be read. -/
def Reading.keyword? {α : Type} : Reading α → Option Keyword
  | .malformed keyword _ => some keyword
  | .parsed command => some command.keyword
  | .skipped | .ignored => none

theorem Command.keyword_of_ofLine {keyword : Keyword} {line : List Char} {offset : Nat}
    {command : Command α} (h : ofLine keyword line offset = .ok command) :
    command.keyword = keyword := by
  cases keyword with
  | write | createObject | listName =>
      cases hq : quotedArgument line <;> simp only [ofLine, hq, Except.map] at h <;> cases h
      rfl
  | createList =>
      cases hl : (listArgument line : Except Cause (List α)) <;>
        simp only [ofLine, hl, Except.map] at h <;> cases h
      rfl
  | drawColor =>
      cases hf : (fields colorPattern line offset : Except Cause (List (Field α))) <;>
        simp only [ofLine, hf] at h <;> cases h
      rfl
  | drawPos =>
      cases hf : (fields positionPattern line offset : Except Cause (List (Field α))) <;>
        simp only [ofLine, hf] at h <;> cases h
      rfl
  | drawCurve =>
      cases hf : (fields curvePattern line offset : Except Cause (List (Field α))) <;>
        simp only [ofLine, hf] at h <;> cases h
      rfl
  | endWork => cases h; rfl
  | drawSquare =>
      cases hc : choiceArgument line with
      | error cause => simp only [ofLine, hc] at h; cases h
      | ok choice =>
          cases hs : (sideArgument line offset : Except Mismatch α) <;> cases choice <;>
            simp only [ofLine, hc, hs] at h <;> cases h
          all_goals rfl

namespace Dialect

theorem reading_of_not_skips {dialect : Dialect} {line : List Char}
    (h : dialect.skips line = false) :
    (dialect.reading line : Reading α) =
      match dialect.recognize line with
      | none => .ignored
      | some (keyword, offset) =>
          match Command.ofLine keyword line offset with
          | .ok command => .parsed command
          | .error cause => .malformed keyword cause := by
  rw [reading, h]
  rfl

theorem idle_of_skips {dialect : Dialect} {line : List Char} (h : dialect.skips line) :
    (dialect.reading line : Reading α).Idle := by
  rw [reading, if_pos h]
  exact .skipped

theorem idle_of_recognize_eq_none {dialect : Dialect} {line : List Char}
    (h : dialect.recognize line = none) : (dialect.reading line : Reading α).Idle := by
  cases hskips : dialect.skips line with
  | true => exact idle_of_skips hskips
  | false =>
      rw [reading_of_not_skips hskips, h]
      exact .ignored

theorem keyword?_reading (dialect : Dialect) (line : List Char) :
    (dialect.reading line : Reading α).keyword? =
      if dialect.skips line then none else (dialect.recognize line).map Prod.fst := by
  cases hskips : dialect.skips line with
  | true =>
      rw [reading, hskips]
      rfl
  | false =>
      rw [reading_of_not_skips hskips]
      cases dialect.recognize line with
      | none => rfl
      | some found =>
          obtain ⟨keyword, offset⟩ := found
          cases hcommand : (Command.ofLine keyword line offset : Except Cause (Command α)) with
          | ok command =>
              simp [hcommand, Reading.keyword?, Command.keyword_of_ofLine hcommand]
          | error cause => simp [hcommand, Reading.keyword?]

end Dialect

namespace Context

def reading (c : Context α) (line : List Char) : Reading α :=
  c.settings.dialect.reading line

def step (c : Context α) (line : List Char) : Context α :=
  match c.reading line with
  | .parsed command => c.carryOut command
  | _ => c

def drawn? (c : Context α) (line : List Char) : Option (Shape α) :=
  match c.reading line with
  | .parsed command => c.shape? command
  | _ => none

def bytes (c : Context α) (line : List Char) : List UInt8 :=
  match c.reading line with
  | .parsed command => command.bytes
  | _ => []

def rejection? (c : Context α) (line : List Char) : Option (Keyword × Cause) :=
  match c.reading line with
  | .parsed command => (c.refusal? command).map fun cause => (command.keyword, cause)
  | .malformed keyword cause => some (keyword, cause)
  | _ => none

theorem step_of_idle {c : Context α} {line : List Char} (h : (c.reading line).Idle) :
    c.step line = c ∧ c.drawn? line = none ∧ c.bytes line = [] ∧ c.rejection? line = none := by
  generalize hr : c.reading line = reading at h
  cases h <;> simp [step, drawn?, bytes, rejection?, hr, carryOut, shape?, refusal?, Command.bytes]

@[simp] theorem settings_carryOut (c : Context α) (command : Command α) :
    (c.carryOut command).settings = c.settings := by
  cases command <;> rfl

@[simp] theorem settings_step (c : Context α) (line : List Char) :
    (c.step line).settings = c.settings := by
  unfold step
  split <;> simp

end Context

/-! ## Lines -/

namespace Session

theorem execute_eq (s : Session α) (line : List Char) :
    s.execute line =
      match s.context.reading line with
      | .skipped => ({ s with line := s.line + 1 }, .ok ())
      | .ignored =>
          ({ s with
              line := s.line + 1
              notes := s.notes.push (.ignored (s.line + 1) (String.ofList (Blank.trim line))) },
            .ok ())
      | .malformed keyword cause =>
          ({ s with line := s.line + 1 }, .error ⟨s.line + 1, keyword, cause⟩)
      | .parsed command =>
          let outcome := { s with line := s.line + 1 }.perform command
          (outcome.1, outcome.2.mapError fun cause => ⟨s.line + 1, command.keyword, cause⟩) := by
  unfold execute Context.reading Dialect.reading
  by_cases hskip : s.settings.dialect.skips line
  · simp [hskip]
  · cases hrec : s.settings.dialect.recognize line with
    | none => simp [hskip, hrec, note]
    | some found =>
        obtain ⟨keyword, offset⟩ := found
        cases hcmd : (Command.ofLine keyword line offset : Except Cause (Command α)) with
        | error cause => simp [hskip, hrec, hcmd]
        | ok command => simp [hskip, hrec, hcmd, Command.keyword_of_ofLine hcmd]

theorem context_execute (s : Session α) (line : List Char) :
    (s.execute line).1.context = s.context.step line := by
  rw [execute_eq, Context.step]
  cases s.context.reading line with
  | parsed command => exact context_perform { s with line := s.line + 1 } command
  | _ => rfl

theorem queue_execute (s : Session α) (line : List Char) :
    (s.execute line).1.queue = s.queue ++ (s.context.drawn? line).toArray := by
  rw [execute_eq, Context.drawn?]
  cases s.context.reading line with
  | parsed command => simp only [perform_eq]; rfl
  | _ => simp

theorem sink_execute (s : Session α) (line : List Char) :
    (s.execute line).1.sink = (s.sink.write (s.context.bytes line)).1 := by
  rw [execute_eq, Context.bytes]
  cases s.context.reading line with
  | parsed command => simp only [perform_eq]
  | _ => simp

theorem line_execute (s : Session α) (line : List Char) :
    (s.execute line).1.line = s.line + 1 := by
  rw [execute_eq]
  cases s.context.reading line with
  | parsed command => simp only [perform_eq]
  | _ => rfl

/-- A line is rejected for what it says, or because the sink does not take what it writes. -/
theorem result_execute (s : Session α) (line : List Char) :
    (s.execute line).2 =
      match s.context.rejection? line with
      | some (keyword, cause) => .error ⟨s.line + 1, keyword, cause⟩
      | none =>
          (s.sink.write (s.context.bytes line)).2.mapError fun reason =>
            ⟨s.line + 1, .write, .sinkFailed reason⟩ := by
  rw [execute_eq, Context.rejection?, Context.bytes]
  cases s.context.reading line with
  | parsed command =>
      have hc : ({ s with line := s.line + 1 } : Session α).context = s.context := rfl
      simp only [perform_eq, hc]
      cases s.context.refusal? command with
      | some cause => rfl
      | none =>
          rcases command.keyword_eq_write_or_bytes_eq_nil with hw | hb
          · cases (s.sink.write command.bytes).2 <;> simp [hw]
          · simp [hb]
  | _ => simp

end Session
end PenScript
