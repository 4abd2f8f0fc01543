import PenScript.Command.Error

/-!
# Notes

What a session reports about its own work while it runs.
-/

set_option autoImplicit false

namespace PenScript

inductive Note where
  | ignored (line : Nat) (text : String)
  | rejected (error : CommandError)
  | replaced (line : Nat)
  | loaded (path : String)
  | ran (lines shapes errors : Nat) (terminated : Bool)
  deriving DecidableEq, Repr

inductive Level where
  | debug
  | info
  | warn
  deriving DecidableEq, Repr

namespace Level

def text : Level → String
  | .debug => "DEBUG"
  | .info => "INFO"
  | .warn => "WARN"

end Level

namespace Note

def level : Note → Level
  | .ignored .. => .debug
  | .rejected _ => .warn
  | .replaced _ => .warn
  | .loaded _ => .info
  | .ran .. => .info

def text : Note → String
  | .ignored line text => s!"line {line}: ignored `{text}`"
  | .rejected error => error.message
  | .replaced line => s!"line {line}: not valid UTF-8, undecodable bytes replaced"
  | .loaded path => s!"loaded script {path}"
  | .ran lines shapes errors terminated =>
      let ending := if terminated then ", stopped at terminator" else ""
      s!"ran {lines} line(s): {shapes} draw command(s), {errors} rejected{ending}"

end Note
end PenScript
