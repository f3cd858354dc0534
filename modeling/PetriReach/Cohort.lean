/-!
# Cohorts

What the workers of a race share: which solvers are at work, whether the race is cancelled, and the
verdicts so far. The first conclusive verdict decides and cancels the race; without one, the first
worker that gave up is named.
-/

namespace PetriReach

/-- What a proof strategy can say of a goal. -/
inductive Verdict where
  | reachable | notReachable | unknown
  deriving DecidableEq, Repr

namespace Verdict

/-- The printed form. -/
def text : Verdict → String
  | reachable => "REACHABLE"
  | notReachable => "NOT REACHABLE"
  | unknown => "UNKNOWN"

/-- The verdict with a given printed form. -/
def ofText? (s : String) : Option Verdict :=
  [reachable, notReachable, unknown].find? (·.text = s)

/-- Whether a verdict settles the question. -/
def isConclusive : Verdict → Bool
  | unknown => false
  | _ => true

end Verdict

/-- The state of a race whose solvers have names of type `ι`. -/
structure Cohort (ι : Type) where
  workers : Nat
  registered : List ι := []
  cancelled : Bool := false
  finished : Nat := 0
  conclusive : Option Verdict := none
  gaveUp : Bool := false
  decidedBy : String := ""
  deriving DecidableEq, Repr

namespace Cohort

variable {ι : Type}

/-- Registers a solver. -/
def enlist (c : Cohort ι) (i : ι) : Cohort ι :=
  { c with registered := c.registered ++ [i] }

/-- Removes every registration of a solver. -/
def withdraw [DecidableEq ι] (c : Cohort ι) (i : ι) : Cohort ι :=
  { c with registered := c.registered.filter (· ≠ i) }

/-- Calls the race off, for good. -/
def cancel (c : Cohort ι) : Cohort ι :=
  { c with cancelled := true }

/-- Takes the result of a worker that is done. -/
def finish (c : Cohort ι) (method : String) (verdict : Option Verdict) : Cohort ι :=
  let c := { c with finished := c.finished + 1 }
  match verdict with
  | none => c
  | some v =>
    if c.conclusive.isSome then c
    else if v.isConclusive then { c with conclusive := some v, decidedBy := method }.cancel
    else if c.gaveUp then c
    else { c with gaveUp := true, decidedBy := method }

/-- Whether nothing more is to be waited for. -/
def isOver (c : Cohort ι) : Bool :=
  c.conclusive.isSome || c.workers ≤ c.finished

/-- The verdict of the race so far. -/
def outcome (c : Cohort ι) : Option Verdict :=
  c.conclusive.or (if c.gaveUp then some .unknown else none)

end Cohort

end PetriReach
