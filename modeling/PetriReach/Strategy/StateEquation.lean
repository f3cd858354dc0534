import PetriReach.Encoder.Goal
import PetriReach.Encoder.StateEquation
import PetriReach.Solver.Work

/-!
# State equation

One test: if no solution of the state equation meets the goal, no reachable marking does.
-/

namespace PetriReach.Strategy

/-- The strategy. -/
def stateEquation (e : Encoder) : Work (Option Verdict) := do
  Work.send (e.declarePlaces none)
  Work.send e.declareTransitions
  Work.send e.stateEquation
  Work.send (e.assertGoal none)
  match ← Work.checkSat false with
  | .unsat => return some .notReachable
  | _ => return some .unknown

end PetriReach.Strategy
