import PetriReach.Race

/-!
# Crews

The checkers of a race at work side by side, each with a solver of its own, under a watchdog. They
reach each other in two ways only: the race is called off, or a bound is published. A worker does
neither before its run ends. So the course of a race is an order of four kinds of acts: a run ends,
a result is handed in, the time budget runs out, and the watchdog calls the race off. How far a
worker had noticed the others, and when, is said at the end of its run.
-/

namespace PetriReach

/-- A checker, the backend of its solver and, when its run has ended, what it noticed: first what
had happened before it began, then what happened each time that it wrote or waited. -/
structure Worker where
  checker : Checker
  backend : Option Backend
  view : Option (List (List Event)) := none
  deriving Repr

/-- A race with its workers. `events` is what has happened for all of them, and `handed` names those
that have handed in a result, in this order. The watchdog is off when it has called the race off. -/
structure Crew where
  programs : List String
  workers : List Worker
  cohort : Cohort Nat
  events : List Event := []
  handed : List Nat := []
  fault : Option Fault := none
  watchdog : Watchdog := .armed
  deriving Repr

/-- An act of the worker number `j` or of the watchdog. -/
inductive Act where
  | leave (j : Nat) (view : List (List Event))
  | finish (j : Nat)
  | expire
  | callOff
  deriving DecidableEq, Repr

namespace Worker

/-- The surroundings of a worker that notices this much of the others. A wait in vain ends when the
race is called off. -/
def surroundings (w : Worker) (programs : List String) (view : List (List Event)) : Arena :=
  (view.headD []).foldl Arena.happen
    { cohort := { workers := 1 }
      meanwhile := view.tail
      watchdog := .armed
      programs
      backends := [w.backend] }

/-- The run of a worker that notices this much of the others. -/
def run (w : Worker) (programs : List String) (view : List (List Event)) : Checker.Run :=
  w.checker.run (w.surroundings programs view)

/-- What the run publishes. Nobody but k-induction writes into the bound cell. -/
def published (w : Worker) (programs : List String) (view : List (List Event)) : List Event :=
  if w.checker.method = .kInduction then
    (w.run programs view).arena.bound.poll.toList.map .publish
  else []

end Worker

namespace Crew

/-- The run of a worker ends. It noticed a part of what has happened, in its order, and if it waited
in vain for its solver, the race has been called off. -/
def leave (c : Crew) (j : Nat) (view : List (List Event)) : Option Crew := do
  let w ← c.workers[j]?
  guard (w.view = none ∧ view.flatten <+: c.events)
  guard ((w.run c.programs view).arena.watchdog = .expired → .cancel ∈ c.events)
  return { c with
    workers := c.workers.set j { w with view := some view }
    events := c.events ++ w.published c.programs view }

/-- A worker whose run has ended hands in its result. A fault calls the race off first. -/
def finish (c : Crew) (j : Nat) : Option Crew := do
  let w ← c.workers[j]?
  let view ← w.view
  guard (j ∉ c.handed)
  let run := w.run c.programs view
  let cohort := if run.fault.isSome then c.cohort.cancel else c.cohort
  let cohort := cohort.finish w.checker.method.name run.verdict
  return { c with
    cohort
    events := c.events ++ if cohort.cancelled then [.cancel] else []
    handed := c.handed ++ [j]
    fault := c.fault.or run.fault }

/-- The time budget runs out while the race is not decided. -/
def expire (c : Crew) : Option Crew := do
  guard (c.watchdog = .armed ∧ c.cohort.isOver = false)
  return { c with watchdog := .expired }

/-- The watchdog calls the race off. -/
def callOff (c : Crew) : Option Crew := do
  guard (c.watchdog = .expired)
  return { c with watchdog := .off, cohort := c.cohort.cancel, events := c.events ++ [.cancel] }

/-- The crew after an act, if it is possible. -/
def act (c : Crew) : Act → Option Crew
  | .leave j view => c.leave j view
  | .finish j => c.finish j
  | .expire => c.expire
  | .callOff => c.callOff

/-- The crew after acts, one after another. -/
def perform (c : Crew) (acts : List Act) : Option Crew :=
  acts.foldlM act c

/-- What the results so far come to. -/
def upshot (c : Crew) : Except Fault Race.Result :=
  match c.fault with
  | some fault => .error fault
  | none => .ok ⟨c.cohort.outcome, c.cohort.decidedBy, c.watchdog = .off⟩

/-- What the race has come to when all have handed in their results and the watchdog has nothing
left to do. -/
def result (c : Crew) : Option (Except Fault Race.Result) := do
  guard (c.handed.length = c.workers.length ∧ c.watchdog ≠ .expired)
  return c.upshot

end Crew

/-- The crew of a race before anything has happened. -/
def Race.crew (r : Race) (programs : List String) (backends : List (Option Backend)) : Crew where
  programs
  workers := r.checkers.mapIdx fun j checker =>
    { checker, backend := backends[j]?.getD (some {}) }
  cohort := { workers := r.checkers.length }

end PetriReach
