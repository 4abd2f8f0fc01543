import PenScript.Session.Basic
import PenScript.Session.Source

/-!
# Passes

A session runs a whole source: line by line until a line ends the script or the source has no more.
The shapes queued by then are handed out with the errors of the rejected lines.
-/

set_option autoImplicit false

namespace PenScript

/-- What a pass over a script gives. The lines include the one that ended it. -/
structure Pass (α : Type) where
  shapes : Array (Shape α)
  errors : Array CommandError
  lines : Nat
  terminated : Bool
  deriving Repr

structure Progress where
  errors : Array CommandError
  lines : Nat
  deriving DecidableEq, Repr

namespace Progress

def none : Progress := ⟨#[], 0⟩

end Progress

namespace Session

variable {α : Type} [Scalar α]

/-! ## One line -/

def noteBytes (s : Session α) (line : Nat) (bytes : List UInt8) : Session α :=
  if Utf8.isValid bytes then s else s.note (.replaced line)

/-- Decode a line, carry it out, and keep its error. -/
def runLine (s : Session α) (progress : Progress) (bytes : List UInt8) : Session α × Progress :=
  let lines := progress.lines + 1
  match (s.noteBytes lines bytes).execute (Utf8.decodeLossy bytes) with
  | (s, .ok _) => (s, { progress with lines })
  | (s, .error e) => (s.note (.rejected e), ⟨progress.errors.push e, lines⟩)

/-- Does the line end the script, once it has been carried out? -/
def stopsAt (s : Session α) (bytes : List UInt8) : Bool :=
  s.settings.dialect.stops (Utf8.decodeLossy bytes)

/-! ## All lines -/

/-- Hand out the queue at the end of a pass. -/
def finish (s : Session α) (progress : Progress) (terminated : Bool) : Session α × Pass α :=
  let (s, shapes) := s.takeShapes
  let s := s.note (.ran progress.lines shapes.size progress.errors.size terminated)
  (s, ⟨shapes, progress.errors, progress.lines, terminated⟩)

/-- What a run returns: the session afterwards, and the pass if the source could be read. -/
abbrev Run (α : Type) := Session α × Except LoadError (Pass α)

def finished (s : Session α) (progress : Progress) (terminated : Bool) : Run α :=
  let (s, pass) := s.finish progress terminated
  (s, .ok pass)

/-- Run the rest of a source. A failing source leaves the queue as it stands. -/
def runFrom (s : Session α) (progress : Progress) (source : Source) : Run α :=
  match h : source.fetch with
  | .finished => s.finished progress false
  | .failed reason => (s, .error (.reading (progress.lines + 1) reason))
  | .line bytes rest =>
      let (s, progress) := s.runLine progress bytes
      if s.stopsAt bytes then s.finished progress true
      else runFrom s progress rest
  termination_by source.pending.length
  decreasing_by exact Source.length_pending_of_fetch h

def run (s : Session α) (source : Source) : Run α :=
  s.beginPass.runFrom .none source

/-- Run the script that the settings name, given what came of opening it. -/
def runScript (s : Session α) (opened : Except String Source) : Run α :=
  match opened with
  | .error reason => (s, .error (.opening s.settings.script reason))
  | .ok source => (s.note (.loaded s.settings.script)).run source

end Session
end PenScript
