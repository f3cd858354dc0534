import PetriReach.Solver.Backend
import PetriReach.Solver.Switch

/-!
# Sessions

A conversation with a solver, as seen from this side. The solver is a process of its own or a
library that is part of this program.
-/

namespace PetriReach

/-- The answers to a satisfiability test. -/
inductive Answer where
  | sat | unsat | unknown
  deriving DecidableEq, Repr

/-- Why a conversation ends, or never begins. -/
inductive Abort where
  | killed
  | closed
  | brokenPipe
  | unexpected (answer : String)
  | requested (reason : String)
  | emptyCommand
  | cannotExecute (program : String)
  deriving DecidableEq, Repr

/-- The kinds of solvers. -/
inductive SolverKind where
  | process | embedded
  deriving DecidableEq, Repr

/-- The state of a conversation. -/
structure Session where
  id : Nat
  kind : SolverKind := .process
  process : Process
  echo : Bool
  switch : Switch := {}
  aborted : Bool := false
  depth : Nat := 0
  deriving DecidableEq, Repr

/-- The name of an answer. -/
def Answer.text : Answer → String
  | sat => "sat"
  | unsat => "unsat"
  | unknown => "unknown"

/-- The wording of a reason. -/
def Abort.wording : Abort → String
  | killed => "solver killed"
  | closed => "backend closed its output"
  | brokenPipe => "broken pipe"
  | unexpected answer => "unexpected response '" ++ answer ++ "'"
  | requested reason => reason
  | emptyCommand => "empty solver command"
  | cannotExecute program => "cannot execute '" ++ program ++ "': No such file or directory"

/-- The message of an error with this reason. -/
def Abort.message (a : Abort) : String :=
  Text.beforeNul a.wording

namespace Session

/-- Whether the solver was killed. -/
def killed (s : Session) : Bool :=
  s.switch.killed

/-- Kills the solver. -/
def kill (s : Session) : Session :=
  { s with switch := s.switch.kill }

/-- Sends a text. A killed process takes it without effect; one that has exited does not take
it. -/
def send? (s : Session) (text : String) : Option Session :=
  if s.killed then some s
  else if s.process.gone then if text = "" then some s else none
  else some { s with process := s.process.feed text }

/-- Reads a line. What a killed process wrote before can still be read, and then its output is at
an end; a killed library says nothing more. -/
def receive (s : Session) : Reply × Session :=
  if s.killed && s.kind = .embedded then (.closed, s)
  else
    let (r, p) := s.process.take
    (if s.killed && r = .silent then .closed else r, { s with process := p })

end Session

end PetriReach
