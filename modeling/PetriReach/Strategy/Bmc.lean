import PetriReach.Encoder.Frame
import PetriReach.Encoder.Goal
import PetriReach.Method
import PetriReach.Solver.Work

/-!
# Bounded model checking

Tests for witnesses of length 0, 1, 2 and so on. It ends at the first witness, or once a bound on
the length of a shortest witness is known and no shorter one was found.
-/

namespace PetriReach.Strategy

/-- A diagnostic on the progress of a strategy. -/
def report (m : Method) (text : String) : Work Unit :=
  Work.info ("[" ++ m.name ++ "] " ++ text)

/-- Whether the bound cell says that depth `k` was the last to be tested. -/
def boundReached (heedsBound : Bool) (s : Stage) (k : Nat) : Option Int :=
  if heedsBound then s.bound.poll.filter fun b => (k : Int) ≥ b - 1 else none

/-- From depth `k` on, where `k` firings are unrolled and the goal is asserted at step `k` in a
scope of its own. Every depth takes a line from the solver, so their number is enough for
`fuel`. -/
def bmcFrom (e : Encoder) (heedsBound : Bool) : (fuel k : Nat) → Work (Option Verdict)
  | 0, _ => throw .stuck
  | fuel + 1, k => do
    report .bmc ("depth " ++ toString k)
    match ← Work.checkSat true with
    | .sat =>
      report .bmc ("witness of length " ++ toString k)
      modify fun s => { s with witness := some k }
      return some .reachable
    | _ =>
      match boundReached heedsBound (← get) k with
      | some b =>
        report .bmc ("bound " ++ toString b ++ " reached")
        return some .notReachable
      | none =>
        if (← get).cohort.cancelled then return none
        else
          Work.pop
          Work.send (e.declarePlaces (some (k + 1)))
          Work.send (e.transitionRelation k (k + 1))
          Work.push
          Work.send (e.assertGoal (some (k + 1)))
          bmcFrom e heedsBound fuel (k + 1)

/-- The strategy. -/
def bmc (e : Encoder) (heedsBound : Bool) : Work (Option Verdict) := do
  modify fun s => { s with witness := none }
  Work.send (e.declarePlaces (some 0))
  Work.send (e.initialMarking (some 0))
  Work.push
  Work.send (e.assertGoal (some 0))
  bmcFrom e heedsBound ((← get).session.process.supply + 1) 0

end PetriReach.Strategy
