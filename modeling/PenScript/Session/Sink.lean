/-!
# Sinks

Where written text goes: a sink keeps every byte, or only as many as its limit allows over its
life. A write that does not fit keeps what fits and fails.
-/

set_option autoImplicit false

namespace PenScript

structure Sink where
  limit : Option Nat
  written : Array UInt8
  deriving DecidableEq, Repr

namespace Sink

def empty (limit : Option Nat) : Sink :=
  ⟨limit, #[]⟩

def full : String := "sink full"

/-- Keep what fits of some bytes, and fail if that is not all of them. -/
def write (sink : Sink) (bytes : List UInt8) : Sink × Except String Unit :=
  match sink with
  | ⟨none, written⟩ => (⟨none, written ++ bytes⟩, .ok ())
  | ⟨some limit, written⟩ =>
      let room := limit - written.size
      if bytes.length ≤ room then (⟨some limit, written ++ bytes⟩, .ok ())
      else (⟨some limit, written ++ bytes.take room⟩, .error full)

end Sink
end PenScript
