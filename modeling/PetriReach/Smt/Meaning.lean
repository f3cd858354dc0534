import PetriReach.Smt.Command

/-!
# Meaning of scripts

The value of a term under an assignment of its variables, and what is declared and asserted once a
script has been read. A term whose operands have the wrong sorts has no value. Closing a scope
forgets what was declared and asserted in it.
-/

namespace PetriReach.Smt

/-- The values of variables and terms. -/
inductive Value where
  | int (n : Int)
  | bool (b : Bool)
  deriving DecidableEq, Repr

/-- A value for every variable. -/
abbrev Assignment := Symbol → Value

/-- The sort of a value. -/
def Value.sort : Value → VarSort
  | int _ => .int
  | bool _ => .bool

/-- The integers among the values, if all are. -/
def Value.ints? : List Value → Option (List Int)
  | [] => some []
  | .int n :: vs => (ints? vs).map (n :: ·)
  | .bool _ :: _ => none

/-- The truth values among the values, if all are. -/
def Value.bools? : List Value → Option (List Bool)
  | [] => some []
  | .bool b :: vs => (bools? vs).map (b :: ·)
  | .int _ :: _ => none

/-- The value of an operator. Equality and its opposite compare two values of one sort. -/
def Op.value (op : Op) (vs : List Value) : Option Value :=
  match op, vs with
  | .not, [.bool a] => some (.bool !a)
  | .and, vs => (Value.bools? vs).map fun bs => .bool (bs.all id)
  | .or, vs => (Value.bools? vs).map fun bs => .bool (bs.any id)
  | .eq, [a, b] => if a.sort = b.sort then some (.bool (a = b)) else none
  | .distinct, [a, b] => if a.sort = b.sort then some (.bool (a ≠ b)) else none
  | .le, [.int a, .int b] => some (.bool (a ≤ b))
  | .lt, [.int a, .int b] => some (.bool (a < b))
  | .ge, [.int a, .int b] => some (.bool (a ≥ b))
  | .gt, [.int a, .int b] => some (.bool (a > b))
  | .add, vs => (Value.ints? vs).map fun ns => .int (ns.foldr (· + ·) 0)
  | .sub, [.int a, .int b] => some (.int (a - b))
  | .mul, [.int a, .int b] => some (.int (a * b))
  | _, _ => none

namespace Term

mutual

/-- The value of a term. -/
def value (a : Assignment) : Term → Option Value
  | .sym s => some (a s)
  | .num n => some (.int n)
  | .bool b => some (.bool b)
  | .app op ts => (values a ts).bind op.value

/-- The values of terms, if all have one. -/
def values (a : Assignment) : List Term → Option (List Value)
  | [] => some []
  | t :: ts => (t.value a).bind fun v => (values a ts).map (v :: ·)

end

/-- The term is true. -/
def Holds (a : Assignment) (t : Term) : Prop :=
  t.value a = some (.bool true)

end Term

/-- What was declared and asserted in a scope, in order. -/
structure Scope where
  declared : List (Symbol × VarSort) := []
  asserted : List Term := []
  deriving Repr

/-- The open scopes: the innermost, and those around it from the inside out. -/
structure Scopes where
  inner : Scope := {}
  around : List Scope := []
  deriving Repr

namespace Scopes

/-- Everything declared and not yet forgotten, in order. -/
def declared (s : Scopes) : List (Symbol × VarSort) :=
  (s.around.reverse.map Scope.declared).flatten ++ s.inner.declared

/-- Everything asserted and not yet forgotten, in order. -/
def asserted (s : Scopes) : List Term :=
  (s.around.reverse.map Scope.asserted).flatten ++ s.inner.asserted

/-- Reads a command. Only an open scope can be closed. -/
def read (s : Scopes) : Command → Option Scopes
  | .declare v sort =>
    some { s with inner := { s.inner with declared := s.inner.declared ++ [(v, sort)] } }
  | .assert t => some { s with inner := { s.inner with asserted := s.inner.asserted ++ [t] } }
  | .push => some { inner := {}, around := s.inner :: s.around }
  | .pop =>
    match s.around with
    | [] => none
    | outer :: rest => some { inner := outer, around := rest }
  | .checkSat => some s

/-- Reads a script. -/
def readAll (s : Scopes) : Script → Option Scopes
  | [] => some s
  | c :: cs => (s.read c).bind (·.readAll cs)

/-- An assignment that gives every declared variable a value of its sort and makes every assertion
true. -/
def Model (s : Scopes) (a : Assignment) : Prop :=
  (∀ d ∈ s.declared, (a d.1).sort = d.2) ∧ ∀ t ∈ s.asserted, t.Holds a

/-- Some assignment makes every assertion true. -/
def Satisfiable (s : Scopes) : Prop :=
  ∃ a, s.Model a

end Scopes

end PetriReach.Smt
