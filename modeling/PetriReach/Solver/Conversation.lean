import PetriReach.Solver.Work

/-!
# Conversations

A sequence of operations on one solver, with a report on each.
-/

namespace PetriReach

/-- The operations. -/
inductive Conversation.Op where
  | write (text : String)
  | push
  | pop
  | check (required : Bool)
  | kill
  | abort (reason : String)
  | setEcho (on : Bool)
  | awaitExit
  deriving DecidableEq, Repr

/-- What an operation did: its answer or what stopped it, the state it left, and the diagnostics it
wrote. -/
structure Conversation.Report where
  result : Except Fault (Option Answer)
  session : Session
  log : List String

namespace Conversation

/-- Performs an operation. A process that exits is gone by the time its last answer is read, so
there is nothing to wait for. -/
def Op.work : Op → Work (Option Answer)
  | .write text => do Work.write text; return none
  | .push => do Work.push; return none
  | .pop => do Work.pop; return none
  | .check required => do return some (← Work.checkSat required)
  | .kill => do Work.kill; return none
  | .abort reason => Work.abort (.requested reason)
  | .setEcho on => do
    modify fun s => { s with session := { s.session with echo := on } }
    return none
  | .awaitExit => return none

/-- Performs operations one after another, whether or not they are stopped. -/
def run (s : Stage) : List Op → List Report
  | [] => []
  | op :: ops =>
    let (result, s') := op.work.start { s with log := [] }
    { result, session := s'.session, log := s'.log } :: run s' ops

/-- Starts a solver and performs operations on it. -/
def hold (config : SolverConfig) (verbose : Bool) (backends : List (Option Backend))
    (ops : List Op) : Except Abort (List Report) :=
  let arena : Arena := { cohort := { workers := 1 }, verbose, backends }
  match arena.start config with
  | (.error reason, _) => .error reason
  | (.ok session, arena) => .ok (run { toArena := arena, session } ops)

end Conversation

end PetriReach
