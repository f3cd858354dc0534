import PetriReach.Text

/-!
# Symbols

A symbol is a name. A simple name is written as it is; any other is written between bars, and then
must hold neither a bar nor a backslash.
-/

namespace PetriReach.Smt

/-- A variable of a script, by its name. -/
structure Symbol where
  name : String
  deriving DecidableEq, Repr

/-- An identifier that has no written form. -/
structure Unwritable where
  id : String
  deriving DecidableEq, Repr

/-- The wording of the error. -/
def Unwritable.wording (e : Unwritable) : String :=
  "identifier '" ++ e.id ++ "' cannot be written as an SMT-LIB symbol"

/-- The characters of a simple name: letters, digits and `~!@$%^&*_-+=<>.?/`. -/
def isSimpleChar (c : Char) : Bool :=
  c.isAlphanum || "~!@$%^&*_-+=<>.?/".toList.contains c

/-- A nonempty name of such characters that does not begin with a digit. -/
def isSimple (name : String) : Bool :=
  let cs := name.toList
  !cs.isEmpty && !(cs.head?.any Char.isDigit) && cs.all isSimpleChar

/-- Whether a name can stand between bars. -/
def isQuotable (name : String) : Bool :=
  name.toList.all fun c => c ≠ '|' ∧ c ≠ '\\'

namespace Symbol

/-- The name of `id` at step `k`. -/
def indexed (id : String) : Option Int → String
  | none => id
  | some k => id ++ "@" ++ toString k

/-- The symbol of `id`, at a step or without one. -/
def make (id : String) (k : Option Int) : Except Unwritable Symbol :=
  let name := indexed id k
  if isSimple name || isQuotable name then .ok ⟨name⟩ else .error ⟨id⟩

/-- The symbol that counts the firings of a transition. -/
def firingCount (id : String) : Except Unwritable Symbol :=
  make (id ++ "@fc") none

/-- The written form. -/
def render (s : Symbol) : String :=
  if isSimple s.name then s.name else "|" ++ s.name ++ "|"

end Symbol

end PetriReach.Smt
