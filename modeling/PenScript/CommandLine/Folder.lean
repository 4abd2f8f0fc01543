import PenScript.Session.Source
import PenScript.Text.Split
import PenScript.Text.Utf8

/-!
# Folders

A folder of files, and what opening a path relative to it comes to. A folder itself can be opened
but not read. Of the world outside the folder only its being there is known.
-/

set_option autoImplicit false

namespace PenScript

/-- The files of a folder, each under the names that lead to it. -/
abbrev Folder := List (List (List Char) × List UInt8)

namespace Folder

inductive Entry where
  | folder (files : Folder)
  | file (bytes : List UInt8)

def missing : String := "No such file or directory (os error 2)"

def notFolder : String := "Not a directory (os error 20)"

def isFolder : String := "Is a directory (os error 21)"

def tooLong : String := "File name too long (os error 36)"

def holdsNul : String := "file name contained an unexpected NUL byte"

/-! ## Paths -/

def longestPath : Nat := 4095

def longestName : Nat := 255

/-- The names on a path; those that stay in place are left out, `.` and the empty one. -/
def names (path : List Char) : List (List Char) :=
  (Split.pieces '/' path).filter fun name => !name.isEmpty && name != ['.']

def ofList (files : List (String × List UInt8)) : Folder :=
  files.map fun (path, bytes) => (names path.toList, bytes)

def enter (folder : Folder) (name : List Char) : Option Entry :=
  let inside := folder.filterMap fun (path, bytes) =>
    match path with
    | [] => none
    | first :: rest => if first = name then some (rest, bytes) else none
  match inside.find? fun (path, _) => path.isEmpty with
  | some (_, bytes) => some (.file bytes)
  | none => if inside.isEmpty then none else some (.folder inside)

/-- Follow names from a folder, its parents given from the nearest on. -/
def walk (folder : Folder) (parents : List Folder) : List (List Char) → Except String Entry
  | [] => .ok (.folder folder)
  | name :: rest =>
      if name = ['.', '.'] then
        match parents with
        | [] => walk [] [] rest
        | parent :: parents => walk parent parents rest
      else if longestName < Utf8.size name then .error tooLong
      else
        match folder.enter name with
        | none => .error missing
        | some (.folder inner) => walk inner (folder :: parents) rest
        | some (.file bytes) => if rest.isEmpty then .ok (.file bytes) else .error notFolder

/-! ## Opening -/

/-- Does the path end in a way that only a folder may? -/
def wantsFolder (path : List Char) : Bool :=
  let last := (Split.pieces '/' path).getLast?
  last = some [] || last = some ['.']

def find (folder : Folder) (path : List Char) : Except String Entry :=
  if path.contains '\x00' then .error holdsNul
  else if path.isEmpty then .error missing
  else if longestPath < Utf8.size path then .error tooLong
  else
    let found :=
      if path.head? = some '/' then walk [] [] (names path) else walk folder [] (names path)
    match found with
    | .ok (.file bytes) => if wantsFolder path then .error notFolder else .ok (.file bytes)
    | found => found

def openAt (folder : Folder) (path : String) : Except String Source :=
  match folder.find path.toList with
  | .error reason => .error reason
  | .ok (.file bytes) => .ok ⟨bytes, none⟩
  | .ok (.folder _) => .ok ⟨[], some isFolder⟩

end Folder
end PenScript
