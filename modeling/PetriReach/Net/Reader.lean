import PetriReach.Net.Declaration

/-!
# Reading nets

The lines of a text, one after another; the first line that cannot be read stops the reading and is
named in the error.
-/

namespace PetriReach.Net

/-- A line that cannot be read, with its number from 1. -/
structure ReadError where
  line : Nat
  cause : Declaration.Error
  deriving DecidableEq, Repr

/-- The wording of an error. -/
def ReadError.message (e : ReadError) : String :=
  Text.beforeNul (toString e.line ++ ": ERROR: " ++ e.cause.wording)

/-- Reads lines into a net; `k` is the number of the first. -/
def readLines (n : Net) (k : Nat) : List String → Except ReadError Net
  | [] => .ok n
  | l :: ls =>
    match Declaration.parse l with
    | .error e => .error ⟨k, e⟩
    | .ok none => readLines n (k + 1) ls
    | .ok (some d) => readLines (n.declare d) (k + 1) ls

/-- The net that a text describes. -/
def parse (s : String) : Except ReadError Net :=
  readLines {} 1 (Text.lines s)

/-- The net that a stored text describes. -/
def parseStored (s : String) : Except ReadError Net :=
  readLines {} 1 (Text.storedLines s)

end PetriReach.Net
