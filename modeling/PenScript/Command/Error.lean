import PenScript.Command.Keyword
import PenScript.Scan.Reader

/-!
# Errors

Why a command was rejected or a script not read, each with its code and its wording. A load error
ends a pass; a command error costs only its own line.
-/

set_option autoImplicit false

namespace PenScript

/-! ## Codes -/

inductive ErrorCode where
  | L001
  | L002
  | X001
  | X002
  | X003
  | X004
  | X005
  deriving DecidableEq, Repr

namespace ErrorCode

def all : List ErrorCode :=
  [.L001, .L002, .X001, .X002, .X003, .X004, .X005]

def text : ErrorCode → String
  | .L001 => "L001"
  | .L002 => "L002"
  | .X001 => "X001"
  | .X002 => "X002"
  | .X003 => "X003"
  | .X004 => "X004"
  | .X005 => "X005"

/-- Does an error of this code end the pass? -/
def isFatal : ErrorCode → Bool
  | .L001 => true
  | .L002 => true
  | _ => false

end ErrorCode

/-! ## Commands -/

inductive Cause where
  | mismatch (mismatch : Mismatch)
  | badNumber (item : String)
  | missingQuote
  | missingBracket
  | sinkFailed (reason : String)
  deriving DecidableEq, Repr

namespace Cause

def code : Cause → ErrorCode
  | .mismatch _ => .X001
  | .badNumber _ => .X002
  | .missingQuote => .X003
  | .missingBracket => .X004
  | .sinkFailed _ => .X005

def message : Cause → String
  | .mismatch m => m.message
  | .badNumber item => s!"`{item}` is not a number"
  | .missingQuote => "missing closing `\"`"
  | .missingBracket => "missing closing `]`"
  | .sinkFailed reason => s!"could not write output: {reason}"

end Cause

/-- A rejected line: its number in the pass, its command and the cause. -/
structure CommandError where
  line : Nat
  keyword : Keyword
  cause : Cause
  deriving DecidableEq, Repr

namespace CommandError

def code (e : CommandError) : ErrorCode :=
  e.cause.code

def message (e : CommandError) : String :=
  s!"[{e.code.text}] {e.line} — {e.keyword.text}: {e.cause.message}"

end CommandError

/-! ## Loading -/

/-- A script that could not be opened, or not be read up to the end of some line. -/
inductive LoadError where
  | opening (path reason : String)
  | reading (line : Nat) (reason : String)
  deriving DecidableEq, Repr

namespace LoadError

def code : LoadError → ErrorCode
  | .opening .. => .L001
  | .reading .. => .L002

def message : LoadError → String
  | .opening path reason => s!"[{ErrorCode.L001.text}] could not open {path}: {reason}"
  | .reading line reason => s!"[{ErrorCode.L002.text}] could not read line {line}: {reason}"

end LoadError
end PenScript
