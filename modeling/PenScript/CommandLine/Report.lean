import PenScript.Canvas.Summary
import PenScript.CommandLine.Options
import PenScript.Session.Pass

/-!
# Reports

What a run from the command line prints and how it exits.
-/

set_option autoImplicit false

namespace PenScript

/-- The complaint goes to standard error; an empty one is not printed. -/
structure Report where
  exit : Nat
  output : List UInt8
  complaint : String
  deriving DecidableEq, Repr

namespace Report

def lineBytes (text : String) : List UInt8 :=
  Utf8.encode (text.toList ++ ['\n'])

/-- The shapes of a pass, one to a line and numbered from 1. -/
def listing (shapes : List (Shape Float)) : List UInt8 :=
  (shapes.zipIdx 1).flatMap fun (shape, number) => lineBytes s!"[{number}] {shape.summary}"

/-- What is said about a script that was not read to its end. -/
def failure : LoadError → String
  | .opening path _ => s!"Error: Could not find {path}"
  | .reading line reason => s!"Error: {(LoadError.reading line reason).message}"

/--
A run of the script, given what came of opening it. The listing stands in for a window, and without
it the shapes have nowhere to be shown.
-/
def ofScript (options : Options) (opened : Except String Source) (entropy : ChaCha.Key) : Report :=
  let session : Session Float := .start options.settings entropy none
  match session.runScript opened with
  | (session, .error e) => ⟨1, session.sink.written.toList ++ lineBytes (failure e), ""⟩
  | (session, .ok pass) =>
      let written := session.sink.written.toList
      if options.headless then ⟨0, written ++ listing pass.shapes.toList, ""⟩
      else ⟨1, written, "Error: window failed: no display"⟩

/-- Arguments that make no options print nothing, unless they ask for help. -/
def usage : UsageError → Report
  | .helpAsked => ⟨0, Utf8.encode Options.help.toList, ""⟩
  | e => ⟨2, [], s!"error: {e.message}"⟩

end Report
end PenScript
