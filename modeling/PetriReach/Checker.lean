import PetriReach.Strategy.Induction
import PetriReach.Strategy.KInduction
import PetriReach.Strategy.StateEquation

/-!
# Checkers

A strategy with all it needs. A run starts a solver, registers it with the cohort while the
strategy is at work, and leaves it killed and withdrawn.
-/

namespace PetriReach

/-- A strategy for a net and a goal. `witness` is the length that bounded model checking found when
it last began. -/
structure Checker where
  method : Method
  encoder : Encoder
  config : SolverConfig
  heedsBound : Bool := true
  witness : Option Nat := none
  deriving Repr

/-- What a run left: its verdict or what stopped it, the checker and the surroundings afterwards,
and the solver, if one was started. -/
structure Checker.Run where
  outcome : Except Fault (Option Verdict)
  checker : Checker
  arena : Arena
  session : Option Session
  deriving Repr

/-- The verdict that a run hands in. -/
def Checker.Run.verdict (r : Run) : Option Verdict :=
  match r.outcome with
  | .ok verdict => verdict
  | .error _ => none

/-- What stopped a run. -/
def Checker.Run.fault (r : Run) : Option Fault :=
  match r.outcome with
  | .ok _ => none
  | .error fault => some fault

namespace Checker

/-- The checker of a strategy. The state equation counts tokens whatever the encoding. -/
def make (method : Method) (net : Net) (goal : Formula) (encoding : Encoding)
    (config : SolverConfig) (heedsBound : Bool) : Except EncodingError Checker := do
  let encoding := if method = .stateEquation then .integer else encoding
  let encoder ← Encoder.make net (some (.formula goal)) encoding
  return { method, encoder, config, heedsBound }

/-- The work of the strategy. -/
def prove (c : Checker) : Work (Option Verdict) :=
  match c.method with
  | .stateEquation => Strategy.stateEquation c.encoder
  | .induction => Strategy.induction c.encoder
  | .bmc => Strategy.bmc c.encoder c.heedsBound
  | .kInduction => Strategy.kInduction c.encoder

/-- A diagnostic of the checker. -/
def label (c : Checker) (text : String) : String :=
  "[" ++ c.method.name ++ "] " ++ text

/-- The stage of a run: the solver is registered, and killed at once if the cohort is cancelled. -/
def enlist (c : Checker) (a : Arena) (session : Session) : Stage :=
  Stage.settle
    { toArena := { a with cohort := a.cohort.enlist session.id }, session, witness := c.witness }

/-- One run. A solver that does not start, or whose conversation is broken off, gives no verdict. -/
def run (c : Checker) (a : Arena) : Run :=
  match (a.info (c.label "RUNNING")).start c.config with
  | (.error reason, a) => ⟨.ok none, c, a.warn (c.label reason.message), none⟩
  | (.ok session, a) =>
    let (result, s) := c.prove.start (c.enlist a session)
    let a := { s.toArena with cohort := s.cohort.withdraw session.id }
    let c := { c with witness := s.witness }
    let session := s.session.kill
    match result with
    | .ok verdict => ⟨.ok verdict, c, a, session⟩
    | .error (.aborted reason) =>
      ⟨.ok none, c, a.info (c.label ("stopped: " ++ reason.message)), session⟩
    | .error fault => ⟨.error fault, c, a, session⟩

end Checker

end PetriReach
