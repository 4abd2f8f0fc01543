import PenScript.CommandLine.Folder
import PenScript.CommandLine.Report

/-!
# The command line

Reads the arguments, the script and the entropy, and prints the report.
-/

set_option autoImplicit false

namespace PenScript

/-- The reason in a system error; a folder opens like a file and turns out when it is read. -/
def reasonOf : IO.Error → String
  | .inappropriateType .. => Folder.isFolder
  | e => e.toString

/-- What an open file holds; one that cannot be read is a source that fails at once. -/
def readAll (handle : IO.FS.Handle) : IO Source := do
  try
    let bytes ← handle.readBinToEnd
    return ⟨bytes.toList, none⟩
  catch e => return ⟨[], some (reasonOf e)⟩

def readScript (path : String) : IO (Except String Source) := do
  try
    let handle ← IO.FS.Handle.mk path .read
    return .ok (← readAll handle)
  catch e => return .error (reasonOf e)

def systemKey : IO ChaCha.Key := do
  let bytes ← IO.getRandomBytes 32
  let byte := fun i : Nat => (bytes[i]?.getD 0).toUInt32
  return Vector.ofFn fun i : Fin 8 =>
    byte (4 * i) + (byte (4 * i + 1) <<< 8) + (byte (4 * i + 2) <<< 16) + (byte (4 * i + 3) <<< 24)

def printReport (report : Report) : IO UInt32 := do
  let out ← IO.getStdout
  out.write (ByteArray.mk report.output.toArray)
  out.flush
  if !report.complaint.isEmpty then IO.eprintln report.complaint
  return UInt32.ofNat report.exit

def runArguments (arguments : List String) : IO UInt32 := do
  match Options.ofArguments arguments with
  | .error e => printReport (.usage e)
  | .ok options =>
      let opened ← readScript options.script
      printReport (.ofScript options opened (← systemKey))

end PenScript

def main (arguments : List String) : IO UInt32 :=
  PenScript.runArguments arguments
