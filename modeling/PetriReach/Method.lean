/-!
# Methods

The proof strategies, in the order in which a race starts them.
-/

namespace PetriReach

/-- The strategies. -/
inductive Method where
  | stateEquation | induction | bmc | kInduction
  deriving DecidableEq, Repr

namespace Method

/-- The name of a strategy. -/
def name : Method → String
  | stateEquation => "STATE-EQUATION"
  | induction => "INDUCTION"
  | bmc => "BMC"
  | kInduction => "K-INDUCTION"

/-- All strategies. -/
def all : List Method :=
  [stateEquation, induction, bmc, kInduction]

/-- The strategy with a given name. -/
def ofName? (s : String) : Option Method :=
  all.find? (·.name = s)

/-- The strategies that run when `selected` are asked for. K-induction only finds a bound, so
bounded model checking comes with it. -/
def lineUp (selected : List Method) : List Method :=
  all.filter fun m => m ∈ selected ∨ (m = bmc ∧ kInduction ∈ selected)

end Method

end PetriReach
