import PetriReach.Checker

/-!
# Races

Several checkers on one question, one after another. The first conclusive verdict wins; the
checkers behind it still start, find their solver killed and stop. A time budget that is used up
cancels the race.
-/

namespace PetriReach

/-- What is asked of a race. A budget is in seconds. -/
structure RaceOptions where
  methods : List Method := Method.all
  budget : Int := 225
  encoding : Encoding := .integer
  config : SolverConfig := {}
  deriving Repr

/-- The checkers of a race, in order. -/
structure Race where
  checkers : List Checker
  budget : Int
  deriving Repr

/-- How a race ended. -/
structure Race.Result where
  verdict : Option Verdict := none
  method : String := ""
  timedOut : Bool := false
  deriving DecidableEq, Repr

/-- A race while its checkers run: those that are done, the surroundings, and the first fault. -/
structure Race.State where
  done : List Checker := []
  arena : Arena
  fault : Option Fault := none

namespace Race

/-- The race for a net and a goal. Bounded model checking heeds a bound if some checker can find
one. -/
def make (net : Net) (goal : Formula) (o : RaceOptions) : Except EncodingError Race := do
  let checkers ← (Method.lineUp o.methods).mapM fun m =>
    Checker.make m net goal o.encoding o.config (.kInduction ∈ o.methods)
  return { checkers, budget := o.budget }

/-- The methods of a race. -/
def methods (r : Race) : List Method :=
  r.checkers.map (·.method)

/-- Runs one checker. A fault cancels the race; its verdict, if any, is counted. -/
def State.step (s : State) (c : Checker) : State :=
  let run := c.run s.arena
  let name := c.method.name
  match run.outcome with
  | .ok verdict =>
    let a := match verdict with
      | some v => run.arena.info ("[" ++ name ++ "] " ++ v.text)
      | none => run.arena
    { s with
      done := s.done ++ [run.checker]
      arena := { a with cohort := a.cohort.finish name verdict } }
  | .error fault =>
    let a := run.arena.warn ("[" ++ name ++ "] " ++ fault.message)
    { done := s.done ++ [run.checker]
      arena := { a with cohort := a.cohort.cancel.finish name none }
      fault := s.fault.or (some fault) }

/-- The surroundings at the start: a new cohort, no bound, and a budget that may be used up
already. -/
def prepare (r : Race) (a : Arena) : Arena :=
  let a := { a with
    cohort := { workers := r.checkers.length }
    bound := a.bound.reset
    watchdog := .armed }
  if r.budget ≤ 0 then a.expire else a

/-- Runs the race. -/
def run (r : Race) (a : Arena) : Except Fault Result × Race × Arena :=
  if r.checkers.isEmpty then (.ok {}, r, a)
  else
    let s := r.checkers.foldl State.step { arena := r.prepare a }
    let r := { r with checkers := s.done }
    match s.fault with
    | some fault => (.error fault, r, s.arena)
    | none =>
      let c := s.arena.cohort
      (.ok ⟨c.outcome, c.decidedBy, s.arena.watchdog = .expired⟩, r, s.arena)

end Race

end PetriReach
