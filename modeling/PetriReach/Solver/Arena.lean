import PetriReach.Cohort
import PetriReach.Solver.Session

/-!
# Arenas

What surrounds a conversation: the diagnostics written so far, the cohort and the bound cell, the
solvers that can be started, and what happens from outside. An event is tied to the number of a
diagnostic and happens right after it is written, or it happens while a text is written or a line is
awaited.

The bound cell is one slot through which a bound on the length of witnesses is passed on. A new
bound replaces the old one; a negative number is no bound.
-/

namespace PetriReach

/-- The bound cell. -/
structure Bound where
  value : Int := -1
  deriving DecidableEq, Repr

namespace Bound

/-- Puts a number into the cell. -/
def publish (_ : Bound) (n : Int) : Bound := ⟨n⟩

/-- Empties the cell. -/
def reset (_ : Bound) : Bound := {}

/-- The bound in the cell, if there is one. -/
def poll (b : Bound) : Option Int :=
  if b.value < 0 then none else some b.value

end Bound

/-- What happens from outside. -/
inductive Event where
  | cancel
  | publish (bound : Int)
  deriving DecidableEq, Repr

/-- The guard of a time budget. -/
inductive Watchdog where
  | off | armed | expired
  deriving DecidableEq, Repr

/-- How solvers are started. -/
structure SolverConfig where
  kind : SolverKind := .process
  command : List String := ["z3", "-in"]
  debug : Bool := false
  deriving DecidableEq, Repr

/-- The surroundings. What happens meanwhile is listed in batches, one for each time that the
conversation writes or waits. The programs are those that can be executed. Each start of a solver
takes the next backend; `none` stands for a process that cannot be started, and behind the list
every backend is an empty script. -/
structure Arena where
  cohort : Cohort Nat
  verbose : Bool := false
  log : List String := []
  agenda : List (Nat × Event) := []
  meanwhile : List (List Event) := []
  bound : Bound := {}
  watchdog : Watchdog := .off
  programs : List String := ["z3"]
  backends : List (Option Backend) := []
  started : Nat := 0
  deriving DecidableEq, Repr

namespace SolverConfig

/-- Whether a start takes a backend. -/
def takes (config : SolverConfig) : Bool :=
  config.kind = .embedded ∨ config.command ≠ []

/-- What starts if these programs can be executed and this backend is next. The name of a program
ends before a NUL character. A library needs no program. -/
def launch (config : SolverConfig) (programs : List String) (b : Option Backend) :
    Except Abort Backend :=
  match config.kind, config.command, b with
  | .embedded, _, b => .ok (b.getD {})
  | .process, [], _ => .error .emptyCommand
  | .process, program :: _, none => .error (.cannotExecute program)
  | .process, program :: _, some b =>
    if Text.beforeNul program ∈ programs then .ok b else .error (.cannotExecute program)

/-- What starts takes a backend. -/
theorem takes_of_launch {config : SolverConfig} {programs : List String} {b : Option Backend}
    {b' : Backend} (h : config.launch programs b = .ok b') : config.takes = true := by
  obtain ⟨kind, command, debug⟩ := config
  cases kind with
  | embedded => rfl
  | process =>
    cases command with
    | nil => cases h
    | cons program args => simp [takes]

/-- What starts is the backend that is next. -/
theorem eq_of_launch {config : SolverConfig} {programs : List String} {b b' : Backend}
    (h : config.launch programs (some b) = .ok b') : b' = b := by
  obtain ⟨kind, command, debug⟩ := config
  cases kind with
  | embedded => exact (Except.ok.inj h).symm
  | process =>
    cases command with
    | nil => cases h
    | cons program args =>
      unfold launch at h
      dsimp only at h
      split at h
      · exact (Except.ok.inj h).symm
      · cases h

end SolverConfig

namespace Arena

/-- The effect of an event. -/
def happen (a : Arena) : Event → Arena
  | .cancel => { a with cohort := a.cohort.cancel }
  | .publish b => { a with bound := a.bound.publish b }

/-- Lets happen what happens meanwhile. -/
def elapse (a : Arena) : Arena :=
  match a.meanwhile with
  | [] => a
  | events :: rest => events.foldl happen { a with meanwhile := rest }

/-- Writes a diagnostic; then its events happen. -/
def emit (a : Arena) (text : String) : Arena :=
  let number := a.log.length + 1
  let due := (a.agenda.filter (·.1 = number)).map (·.2)
  due.foldl happen { a with log := a.log ++ [Text.asLine text] }

/-- Writes a diagnostic if they are wanted. -/
def info (a : Arena) (text : String) : Arena :=
  if a.verbose then a.emit text else a

/-- Writes a diagnostic that is always wanted. -/
def warn (a : Arena) (text : String) : Arena :=
  a.emit ("WARNING: " ++ text)

/-- The time budget is used up: the cohort is cancelled. -/
def expire (a : Arena) : Arena :=
  let a := a.info "time budget exhausted"
  { a with watchdog := .expired, cohort := a.cohort.cancel }

/-- Starts a solver. -/
def start (a : Arena) (config : SolverConfig) : Except Abort Session × Arena :=
  ((config.launch a.programs (a.backends.head?.getD (some {}))).map fun b =>
    { id := a.started, kind := config.kind, process := .start b, echo := config.debug },
  if config.takes then { a with backends := a.backends.tail, started := a.started + 1 } else a)

/-- A solver that starts takes the next backend. -/
theorem start_ok {a : Arena} {config : SolverConfig} {session : Session} {a' : Arena}
    (h : a.start config = (.ok session, a')) :
    ∃ b, config.launch a.programs (a.backends.head?.getD (some {})) = .ok b ∧
      session = { id := a.started, kind := config.kind, process := .start b,
                  echo := config.debug } ∧
      a' = { a with backends := a.backends.tail, started := a.started + 1 } := by
  unfold start at h
  cases hlaunch : config.launch a.programs (a.backends.head?.getD (some {})) with
  | error e =>
    rw [hlaunch] at h
    cases h
  | ok b =>
    rw [hlaunch, if_pos (SolverConfig.takes_of_launch hlaunch)] at h
    cases h
    exact ⟨b, rfl, rfl, rfl⟩

end Arena

end PetriReach
