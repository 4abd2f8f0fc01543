import PenScript.Canvas.Curve
import PenScript.Command.Basic
import PenScript.Random.Pick
import PenScript.Session.Note
import PenScript.Session.Settings
import PenScript.Session.Sink

/-!
# Sessions

A session carries out one line after another. It owns the store, the generator, the sink, and a
queue of the shapes drawn since they were last taken.
-/

set_option autoImplicit false

namespace PenScript

/-- The line counter numbers the lines of the current pass from 1. -/
structure Session (α : Type) where
  settings : Settings α
  store : Store α
  generator : Generator
  sink : Sink
  queue : Array (Shape α)
  line : Nat
  notes : Array Note

namespace Session

variable {α : Type} [Scalar α]

/-! ## Beginning -/

/-- The generator of a seed, or of the given key where there is none. -/
def generatorOf (seed : Option UInt64) (entropy : ChaCha.Key) : Generator :=
  match seed with
  | some seed => .ofSeed seed
  | none => .ofKey entropy

def start (settings : Settings α) (entropy : ChaCha.Key) (limit : Option Nat) : Session α where
  settings := settings
  store := .initial (settings.canvas.toSurface settings.cursor) settings.color
  generator := generatorOf settings.seed entropy
  sink := .empty limit
  queue := #[]
  line := 0
  notes := #[]

/-- Number lines from 1 again, and keep everything else. -/
def beginPass (s : Session α) : Session α :=
  { s with line := 0 }

/-- The shapes drawn so far, and the session without them. -/
def takeShapes (s : Session α) : Session α × Array (Shape α) :=
  ({ s with queue := #[] }, s.queue)

def note (s : Session α) (note : Note) : Session α :=
  { s with notes := s.notes.push note }

/-! ## Drawing -/

/-- What a pick counts for: the legacy dialect takes a pick of zero for none. -/
def keepPick (dialect : Dialect) (pick : Option α) : Option α :=
  match dialect with
  | .strict => pick
  | .legacy => pick.filter fun side => !Scalar.isZero side

/-- A pick for a square, where a list is asked for. -/
def pickSide (s : Session α) (choice : Option String) : Session α × Option α :=
  match choice with
  | none => (s, none)
  | some name =>
      let (pick, generator) := s.generator.pickNamed? s.store name
      ({ s with generator }, keepPick s.settings.dialect pick)

def drawSquare (s : Session α) (side : α) : Session α :=
  { s with queue := s.queue.push (.rect s.store.cursor side side s.store.color) }

def drawCurve (s : Session α) (dx dy : α) : Session α :=
  let color := s.store.color
  let vertices := (Curve.arch s.store.cursor dx dy).map fun position => ⟨position, color⟩
  { s with queue := s.queue.push (.polyline vertices) }

/-! ## Commands -/

abbrev Outcome (α : Type) := Session α × Except Cause Unit

def perform (s : Session α) : Command α → Outcome α
  | .write text =>
      let sink := s.sink
      -- The session lets go of its sink, so that the bytes are added in place.
      let s := { s with sink := .empty none }
      let (sink, result) := sink.write (Utf8.encode (text.toList ++ ['\n']))
      ({ s with sink }, result.mapError .sinkFailed)
  | .createObject name => ({ s with store := s.store.createObject name }, .ok ())
  | .createList values => ({ s with store := s.store.setScratch values.toArray }, .ok ())
  | .listName name => ({ s with store := s.store.nameList name }, .ok ())
  | .drawColor color => ({ s with store := s.store.setColor color }, .ok ())
  | .drawPos position =>
      ({ s with store := s.store.setCursor (s.settings.canvas.toSurface position) }, .ok ())
  | .drawSquare choice side =>
      match s.pickSide choice, side with
      | (s, some pick), _ => (s.drawSquare pick, .ok ())
      | (s, none), .ok side => (s.drawSquare side, .ok ())
      | (s, none), .error e => (s, .error (.mismatch e))
  | .drawCurve dx dy => (s.drawCurve dx dy, .ok ())
  | .endWork => (s, .ok ())

/-! ## Lines -/

/-- Carry out a line. One that is skipped or holds no command changes nothing but the counter. -/
def execute (s : Session α) (line : List Char) : Session α × Except CommandError Unit :=
  let number := s.line + 1
  let s := { s with line := number }
  if s.settings.dialect.skips line then (s, .ok ())
  else
    match s.settings.dialect.recognize line with
    | none => (s.note (.ignored number (String.ofList (Blank.trim line))), .ok ())
    | some (keyword, offset) =>
        let (after, result) := match Command.ofLine keyword line offset with
          | .ok command => s.perform command
          | .error cause => (s, .error cause)
        (after, result.mapError fun cause => ⟨number, keyword, cause⟩)

end Session
end PenScript
