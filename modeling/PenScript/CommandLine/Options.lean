import PenScript.Session.Settings

/-!
# Command-line options

One script name, a seed, and two flags. A value is checked only when a later option or the end of
the line settles it, so that of two faults an option that is not known is the first to be reported.
-/

set_option autoImplicit false

namespace PenScript

structure Options where
  script : String
  seed : Option UInt64
  legacy : Bool
  headless : Bool
  deriving DecidableEq, Repr

inductive UsageError where
  | unknownArgument
  | missingValue
  | emptyScript
  | badSeed
  | repeated
  | unexpectedValue
  | helpAsked
  deriving DecidableEq, Repr

namespace UsageError

def message : UsageError → String
  | .unknownArgument => "unexpected argument"
  | .missingValue => "a value is required for '--seed <SEED>' but none was supplied"
  | .emptyScript => "a value is required for '[SCRIPT]' but none was supplied"
  | .badSeed => "invalid value for '--seed <SEED>'"
  | .repeated => "an argument cannot be used multiple times"
  | .unexpectedValue => "unexpected value for a flag"
  | .helpAsked => "help was asked for"

end UsageError

namespace Options

def help : String :=
  String.join <| List.map (· ++ "\n")
    ["Run an .xnss drawing script and show the result",
     "",
     "Usage: xnss [OPTIONS] [SCRIPT]",
     "",
     "Arguments:",
     "  [SCRIPT]  Script to run [default: script.xnss]",
     "",
     "Options:",
     "      --seed <SEED>  Seed for `random.choice`, for reproducible drawings",
     "      --legacy       Match commands anywhere in a line, like the classic engine",
     "      --headless     Print the draw commands instead of opening a window",
     "  -h, --help         Print help"]

/-! ## Values -/

/-- A seed in decimal, with an optional plus sign. -/
def seed? (text : String) : Option UInt64 :=
  let digits := match text.toList with
    | '+' :: rest => rest
    | chars => chars
  if digits.isEmpty || !digits.all Char.isDigit then none
  else
    let n := digits.foldl (fun n c => 10 * n + (c.toNat - '0'.toNat)) 0
    if n < UInt64.size then some (UInt64.ofNat n) else none

/-! ## Arguments so far -/

/-- A value that is not yet settled; a seed may still be waiting for its own. -/
inductive Pending where
  | nothing
  | script (name : String)
  | seed (value : Option String)
  deriving DecidableEq, Repr

structure Draft where
  script : Option String
  seed : Option UInt64
  legacy : Bool
  headless : Bool
  pending : Pending
  deriving DecidableEq, Repr

namespace Draft

def empty : Draft := ⟨none, none, false, false, .nothing⟩

def setSeed (d : Draft) (text : String) : Except UsageError Draft :=
  if d.seed.isSome then .error .repeated
  else
    match seed? text with
    | some seed => .ok { d with seed := some seed }
    | none => .error .badSeed

def settle (d : Draft) : Except UsageError Draft :=
  match d.pending with
  | .nothing => .ok d
  | .script name =>
      if name.isEmpty then .error .emptyScript
      else .ok { d with script := some name, pending := .nothing }
  | .seed none => .error .missingValue
  | .seed (some text) => setSeed { d with pending := .nothing } text

def hasScript (d : Draft) : Bool :=
  match d.pending with
  | .script _ => true
  | _ => d.script.isSome

/-! ## One argument -/

/-- An argument that names the script; there is room for one. -/
def addScript (d : Draft) (name : String) : Except UsageError Draft :=
  if d.hasScript then .error .unknownArgument
  else do
    let d ← d.settle
    return { d with pending := .script name }

def addLegacy (d : Draft) : Except UsageError Draft := do
  let d ← d.settle
  if d.legacy then .error .repeated else .ok { d with legacy := true }

def addHeadless (d : Draft) : Except UsageError Draft := do
  let d ← d.settle
  if d.headless then .error .repeated else .ok { d with headless := true }

def addHelp (d : Draft) : Except UsageError Draft := do
  let _ ← d.settle
  .error .helpAsked

/-- An option by its long name, with the value behind an equals sign, if there is one. -/
def addLong (d : Draft) (name : String) (value : Option String) : Except UsageError Draft :=
  match name, value with
  | "seed", some text => do
      let d ← d.settle
      d.setSeed text
  | "seed", none => do
      let d ← d.settle
      return { d with pending := .seed none }
  | "legacy", none => d.addLegacy
  | "headless", none => d.addHeadless
  | "help", none => d.addHelp
  | "legacy", some _ => .error .unexpectedValue
  | "headless", some _ => .error .unexpectedValue
  | "help", some _ => .error .unexpectedValue
  | _, _ => .error .unknownArgument

/-- The text before the first equals sign and, if there is one, the text behind it. -/
def splitValue (text : List Char) : String × Option String :=
  let name := String.ofList (text.takeWhile (· != '='))
  match text.dropWhile (· != '=') with
  | [] => (name, none)
  | _ :: value => (name, some (String.ofList value))

/-- An argument before any `--`: an option, the value of a waiting seed, or the script. -/
def add (d : Draft) (argument : String) : Except UsageError Draft :=
  match argument.toList with
  | '-' :: '-' :: rest =>
      let (name, value) := splitValue rest
      d.addLong name value
  | '-' :: 'h' :: _ => d.addHelp
  | '-' :: _ :: _ => .error .unknownArgument
  | _ =>
      if d.pending = .seed none then .ok { d with pending := .seed (some argument) }
      else d.addScript argument

def toOptions (d : Draft) : Options :=
  ⟨d.script.getD Settings.defaultScript, d.seed, d.legacy, d.headless⟩

end Draft

/-! ## All arguments -/

/-- Add arguments in order; behind `--` each one names the script. -/
def addAll (d : Draft) : List String → Except UsageError Draft
  | [] => .ok d
  | argument :: rest =>
      if argument = "--" then rest.foldlM Draft.addScript d
      else do
        let d ← d.add argument
        addAll d rest

def ofArguments (arguments : List String) : Except UsageError Options := do
  let d ← addAll .empty arguments
  let d ← d.settle
  return d.toOptions

/-! ## Settings -/

def settings {α : Type} [Scalar α] (options : Options) : Settings α :=
  { Settings.standard with
    script := options.script
    seed := options.seed
    dialect := if options.legacy then .legacy else .strict }

end Options
end PenScript
