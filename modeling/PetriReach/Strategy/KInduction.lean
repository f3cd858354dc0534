import PetriReach.Strategy.Bmc

/-!
# K-induction

Looks for a length at which no path, from any marking, reaches the goal for the first time. Then
every shortest witness is shorter, and the length is published as a bound.
-/

namespace PetriReach.Strategy

/-- From step `k` on, where `k` firings are unrolled and the goal is refuted at steps before `k`.
Every step takes a line from the solver, so their number is enough for `fuel`. -/
def kInductionFrom (e : Encoder) : (fuel k : Nat) → Work (Option Verdict)
  | 0, _ => throw .stuck
  | fuel + 1, k => do
    if (← get).cohort.cancelled then return none
    else
      report .kInduction ("step " ++ toString k)
      Work.push
      Work.send (e.assertGoal (some k))
      match ← Work.checkSat true with
      | .unsat =>
        report .kInduction ("bound " ++ toString k)
        modify fun s => { s with bound := s.bound.publish k }
        return none
      | _ =>
        Work.pop
        Work.send (e.refuteGoal (some k))
        Work.send (e.declarePlaces (some (k + 1)))
        Work.send (e.transitionRelation k (k + 1))
        kInductionFrom e fuel (k + 1)

/-- The strategy. -/
def kInduction (e : Encoder) : Work (Option Verdict) := do
  Work.send (e.declarePlaces (some 0))
  kInductionFrom e ((← get).session.process.supply + 1) 0

end PetriReach.Strategy
