import PetriReach.Encoder.Basic
import PetriReach.Solver.Arena

/-!
# Work

The steps of a conversation: writing, opening and closing scopes, testing. A step fails once the
solver is killed, goes away or answers nonsense. The solver is killed as soon as the cohort it is
registered with is cancelled.
-/

namespace PetriReach

open Smt (Script Command)

/-- A conversation in its surroundings, with the length of the witness found last. -/
structure Stage extends Arena where
  session : Session
  witness : Option Nat := none
  deriving DecidableEq, Repr

/-- What stops a step. -/
inductive Fault where
  | aborted (reason : Abort)
  | encoding (e : EncodingError)
  | unmatchedPop
  | stuck
  deriving DecidableEq, Repr

/-- The wording of a fault. -/
def Fault.message : Fault → String
  | aborted reason => reason.message
  | encoding e => e.message
  | unmatchedPop => "pop() without matching push()"
  | stuck => "backend stays silent"

/-- Steps on a stage that may be stopped. -/
abbrev Work := ExceptT Fault (StateM Stage)

namespace Stage

/-- Kills the solver if it is registered with a cancelled cohort. -/
def settle (s : Stage) : Stage :=
  if s.cohort.cancelled && s.cohort.registered.contains s.session.id then
    { s with session := s.session.kill }
  else s

/-- Lets something happen to the surroundings. -/
def around (s : Stage) (f : Arena → Arena) : Stage :=
  { s with toArena := f s.toArena }.settle

end Stage

namespace Work

/-- Runs a piece of work. -/
def start {α : Type} (w : Work α) (s : Stage) : Except Fault α × Stage :=
  w.run.run s

/-- Writes a diagnostic. -/
def emit (text : String) : Work Unit :=
  modify (·.around (·.emit text))

/-- Writes a diagnostic if they are wanted. -/
def info (text : String) : Work Unit :=
  modify (·.around (·.info text))

/-- Writes a diagnostic that is always wanted. -/
def warn (text : String) : Work Unit :=
  modify (·.around (·.warn text))

/-- Writes out what is exchanged, if that is asked for. In any case time passes. -/
def echo (text : String) : Work Unit := do
  modify (·.around (·.elapse))
  if (← get).session.echo then emit text

/-- Breaks the conversation off. That is expected of a killed solver and reported quietly. -/
def abort {α : Type} (reason : Abort) : Work α := do
  let expected := (← get).session.killed
  modify fun s => { s with session := { s.session.kill with aborted := true } }
  let text := "solver aborted: " ++ reason.wording
  if expected then info text else warn text
  throw (.aborted reason)

/-- Sends a text. -/
def write (text : String) : Work Unit := do
  if (← get).session.killed then abort .killed
  echo text
  match (← get).session.send? text with
  | none => abort .brokenPipe
  | some session => modify fun s => { s with session }

/-- Sends a script, if it can be written. -/
def send (script : Except EncodingError Script) : Work Unit := do
  match script with
  | .error e => throw (.encoding e)
  | .ok cs => write cs.render

/-- Opens a scope. -/
def push : Work Unit := do
  write Command.push.render
  modify fun s => { s with session := { s.session with depth := s.session.depth + 1 } }

/-- Closes a scope. -/
def pop : Work Unit := do
  if (← get).session.depth = 0 then throw .unmatchedPop
  write Command.pop.render
  modify fun s => { s with session := { s.session with depth := s.session.depth - 1 } }

/-- Waits for a line that never comes. The solver was killed meanwhile, or the time budget runs out,
if there is one. -/
def outwait : Work (Option String) := do
  let s ← get
  if s.session.killed then return none
  else if s.watchdog = .armed then
    modify (·.around (·.expire))
    return none
  else throw .stuck

/-- Reads a line. -/
def receive : Work (Option String) := do
  let (reply, session) := (← get).session.receive
  modify fun s => { s with session }.around (·.elapse)
  match reply with
  | .line text => return some text
  | .closed => return none
  | .silent => outwait

/-- Tests the assertions made so far. If `required`, the answer must be a definite one. -/
def checkSat (required : Bool) : Work Answer := do
  write Command.checkSat.render
  let line ← receive
  if (← get).session.killed then abort .killed
  match line with
  | none => abort .closed
  | some line =>
    let answer := Text.trim line
    echo ("; " ++ answer ++ "\n")
    if answer = "sat" then return .sat
    else if answer = "unsat" then return .unsat
    else if required || answer ≠ "unknown" then abort (.unexpected answer)
    else return .unknown

/-- Kills the solver. -/
def kill : Work Unit :=
  modify fun s => { s with session := s.session.kill }

end Work

end PetriReach
