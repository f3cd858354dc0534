import PetriReach.Proofs.Strategy.Bmc
import PetriReach.Strategy.Induction
import PetriReach.Strategy.KInduction
import PetriReach.Strategy.StateEquation

/-!
# Moves of the strategies

A strategy moves the stage by steps of a conversation only, so what survives these survives the
strategy. K-induction also publishes.

* `Stage.Course.bmc`, `Stage.Course.induction` and their like: one rule for each strategy.
-/

namespace PetriReach

namespace Strategy

/-- What follows the first test of induction. -/
def inductionNext (e : Encoder) (w : Answer) : Work (Option Verdict) := do
  match w with
  | .sat => return some .reachable
  | _ =>
    Work.pop
    if (← get).cohort.cancelled then return none else inductionStep e

theorem induction_eq (e : Encoder) : induction e = (do
    Work.send (e.declarePlaces (some 0))
    Work.push
    Work.send (e.initialMarking (some 0))
    Work.send (e.assertGoal (some 0))
    inductionNext e (← Work.checkSat true)) :=
  rfl

/-- What follows the test at step `k` of k-induction. -/
def kNext (e : Encoder) (fuel k : Nat) (w : Answer) : Work (Option Verdict) := do
  match w with
  | .unsat =>
    report .kInduction ("bound " ++ toString k)
    modify fun s => { s with bound := s.bound.publish k }
    return none
  | _ =>
    Work.pop
    Work.send (e.refuteGoal (some k))
    Work.send (e.declarePlaces (some (k + 1)))
    Work.send (e.transitionRelation k (k + 1))
    kInductionFrom e fuel (k + 1)

theorem kInductionFrom_succ (e : Encoder) (fuel k : Nat) :
    kInductionFrom e (fuel + 1) k = (do
      if (← get).cohort.cancelled then return none
      else
        report .kInduction ("step " ++ toString k)
        Work.push
        Work.send (e.assertGoal (some k))
        kNext e fuel k (← Work.checkSat true)) :=
  rfl

end Strategy

namespace Stage.Course

variable {R : Stage → Stage → Prop} (hR : Course R) (e : Encoder)

include hR

theorem bmc (heedsBound : Bool) : (Strategy.bmc e heedsBound).Moves R :=
  hR.bind (fun s => hR.witness s _) fun _ => hR.bind (hR.send _) fun _ => hR.bind (hR.send _)
    fun _ => hR.bind hR.push fun _ => hR.bind (hR.send _) fun _ => hR.bind hR.get
      fun _ => Strategy.moves_bmcFrom hR e heedsBound _ 0

theorem inductionStep : (Strategy.inductionStep e).Moves R := by
  refine hR.bind (hR.send _) fun _ => hR.bind (hR.send _) fun _ => hR.bind (hR.send _) fun _ =>
    hR.bind (hR.send _) fun _ => hR.bind (hR.checkSat false) fun w => ?_
  split <;> exact hR.pure _

theorem inductionNext (w : Answer) : (Strategy.inductionNext e w).Moves R := by
  unfold Strategy.inductionNext
  split
  · exact hR.pure _
  · refine hR.bind hR.pop fun _ => hR.bind hR.get fun s => ?_
    split
    · exact hR.pure _
    · exact hR.inductionStep e

theorem induction : (Strategy.induction e).Moves R := by
  rw [Strategy.induction_eq]
  exact hR.bind (hR.send _) fun _ => hR.bind hR.push fun _ => hR.bind (hR.send _) fun _ =>
    hR.bind (hR.send _) fun _ => hR.bind (hR.checkSat true) fun w => hR.inductionNext e w

theorem stateEquation : (Strategy.stateEquation e).Moves R := by
  refine hR.bind (hR.send _) fun _ => hR.bind (hR.send _) fun _ => hR.bind (hR.send _) fun _ =>
    hR.bind (hR.send _) fun _ => hR.bind (hR.checkSat false) fun w => ?_
  split <;> exact hR.pure _

variable (hpublish : ∀ (s : Stage) (n : Nat), R s { s with bound := s.bound.publish n })

include hpublish

theorem kNext {fuel : Nat} (hrec : ∀ k, (Strategy.kInductionFrom e fuel k).Moves R) (k : Nat)
    (w : Answer) : (Strategy.kNext e fuel k w).Moves R := by
  unfold Strategy.kNext
  split
  · exact hR.bind (hR.info _) fun _ => hR.bind (fun s => hpublish s k) fun _ => hR.pure _
  · exact hR.bind hR.pop fun _ => hR.bind (hR.send _) fun _ => hR.bind (hR.send _) fun _ =>
      hR.bind (hR.send _) fun _ => hrec (k + 1)

theorem kInductionFrom (fuel k : Nat) : (Strategy.kInductionFrom e fuel k).Moves R := by
  induction fuel generalizing k with
  | zero => exact hR.throw _
  | succ fuel ih =>
    rw [Strategy.kInductionFrom_succ]
    refine hR.bind hR.get fun s => ?_
    split
    · exact hR.pure _
    · exact hR.bind (hR.info _) fun _ => hR.bind hR.push fun _ => hR.bind (hR.send _) fun _ =>
        hR.bind (hR.checkSat true) fun w => hR.kNext e hpublish ih k w

end Stage.Course

end PetriReach
