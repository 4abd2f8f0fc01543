/-!
# Sources

Bytes to be read line by line. A source holds what it can still deliver, and the fault that stands
behind it if reading on would fail.
-/

set_option autoImplicit false

namespace PenScript

structure Source where
  pending : List UInt8
  fault : Option String
  deriving DecidableEq, Repr

inductive Fetch where
  | line (bytes : List UInt8) (source : Source)
  | finished
  | failed (reason : String)
  deriving DecidableEq, Repr

namespace Source

def isLineFeed (b : UInt8) : Bool :=
  b == 0x0A

/-- The bytes without one carriage return at their end. -/
def dropReturn (bytes : List UInt8) : List UInt8 :=
  if bytes.getLast? = some 0x0D then bytes.dropLast else bytes

/--
The next line without its line feed and a carriage return before that. Bytes without a line feed
are a line of their own at the end of input, and are lost where the source fails.
-/
def fetch (source : Source) : Fetch :=
  match source.pending.dropWhile fun b => !isLineFeed b with
  | _ :: rest =>
      .line (dropReturn (source.pending.takeWhile fun b => !isLineFeed b)) { source with pending := rest }
  | [] =>
      match source.fault with
      | some reason => .failed reason
      | none =>
          if source.pending.isEmpty then .finished
          else .line source.pending { source with pending := [] }

/-- Every line fetched leaves fewer bytes. -/
theorem length_pending_of_fetch {source rest : Source} {bytes : List UInt8}
    (h : source.fetch = .line bytes rest) : rest.pending.length < source.pending.length := by
  unfold fetch at h
  split at h
  · rename_i b tail hdrop
    cases h
    have hle := (List.dropWhile_suffix (l := source.pending) fun b => !isLineFeed b).length_le
    rw [hdrop, List.length_cons] at hle
    exact hle
  · split at h
    · cases h
    · split at h
      · cases h
      · rename_i hne
        cases h
        cases hp : source.pending with
        | nil => simp [hp] at hne
        | cons b bs => simp

end Source
end PenScript
