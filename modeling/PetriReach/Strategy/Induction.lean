import PetriReach.Encoder.Frame
import PetriReach.Encoder.Goal
import PetriReach.Solver.Work

/-!
# Induction

Two tests: whether the goal holds at the beginning, and whether a firing can lead into it from a
marking outside it.
-/

namespace PetriReach.Strategy

/-- The second test: a firing from a marking outside the goal to one inside. -/
def inductionStep (e : Encoder) : Work (Option Verdict) := do
  Work.send (e.declarePlaces (some 1))
  Work.send (e.refuteGoal (some 0))
  Work.send (e.transitionRelation 0 1)
  Work.send (e.assertGoal (some 1))
  match ← Work.checkSat false with
  | .unsat => return some .notReachable
  | _ => return some .unknown

/-- The strategy. -/
def induction (e : Encoder) : Work (Option Verdict) := do
  Work.send (e.declarePlaces (some 0))
  Work.push
  Work.send (e.initialMarking (some 0))
  Work.send (e.assertGoal (some 0))
  match ← Work.checkSat true with
  | .sat => return some .reachable
  | _ =>
    Work.pop
    if (← get).cohort.cancelled then return none else inductionStep e

end PetriReach.Strategy
