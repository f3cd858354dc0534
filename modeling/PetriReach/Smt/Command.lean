import PetriReach.Smt.Term

/-!
# Scripts

What is sent to a solver: declarations, assertions, and the commands that open, close and test a
scope.
-/

namespace PetriReach.Smt

/-- The sorts of variables. -/
inductive VarSort where
  | int | bool
  deriving DecidableEq, Repr

/-- The commands. -/
inductive Command where
  | declare (s : Symbol) (sort : VarSort)
  | assert (t : Term)
  | push
  | pop
  | checkSat
  deriving Repr

/-- A sequence of commands. -/
abbrev Script := List Command

/-- The name of a sort. -/
def VarSort.text : VarSort → String
  | int => "Int"
  | bool => "Bool"

/-- The line of a command. -/
def Command.render : Command → String
  | declare s sort => "(declare-fun " ++ s.render ++ " () " ++ sort.text ++ ")\n"
  | assert t => "(assert " ++ t.render ++ ")\n"
  | push => "(push)\n"
  | pop => "(pop)\n"
  | checkSat => "(check-sat)\n"

/-- The text of a script. -/
def Script.render (cs : Script) : String :=
  String.join (cs.map Command.render)

end PetriReach.Smt
