import PetriReach.Cohort
import PetriReach.Solver.Switch
import PetriReach.Text

/-!
# Musters

A cohort together with the switches of its solvers and with the enlistments that are held in named
slots. Giving up an enlistment withdraws its solver; an enlistment that was moved elsewhere is dead
and withdraws nothing. In a cancelled cohort every registered solver is killed.
-/

namespace PetriReach

/-- A registration that is held somewhere: the name of its solver, or nothing once it was moved. -/
abbrev Enlistment := Option String

/-- The state. Switches are increasing by name. -/
structure Muster where
  cohort : Cohort String
  switches : List (String × Switch) := []
  slots : List (String × Enlistment) := []
  deriving Repr

/-- The operations. -/
inductive Muster.Op where
  | finish (method : String) (verdict : Option Verdict)
  | cancel
  | enlist (solver slot : String)
  | withdraw (slot : String)
  | move (slot target : String)
  | kill (solver : String)
  | look
  deriving DecidableEq, Repr

namespace Muster

/-- The switches with `f` done to the one of `name`, which is unused if it is new. -/
def modifySwitch (name : String) (f : Switch → Switch) :
    List (String × Switch) → List (String × Switch)
  | [] => [(name, f {})]
  | (n, s) :: rest =>
    if name < n then (name, f {}) :: (n, s) :: rest
    else if name = n then (n, f s) :: rest
    else (n, s) :: modifySwitch name f rest

/-- Uses the switch of a solver, whether or not it was ever enlisted. -/
def killOne (m : Muster) (name : String) : Muster :=
  { m with switches := modifySwitch name Switch.kill m.switches }

/-- Kills every registered solver if the cohort is cancelled. -/
def settle (m : Muster) : Muster :=
  if m.cohort.cancelled then m.cohort.registered.foldl killOne m else m

/-- What a slot holds. -/
def held? (m : Muster) (slot : String) : Option Enlistment :=
  m.slots.lookup slot

/-- Empties a slot. -/
def clear (m : Muster) (slot : String) : Muster :=
  { m with slots := m.slots.filter (·.1 ≠ slot) }

/-- Fills a slot. -/
def hold (m : Muster) (slot : String) (e : Enlistment) : Muster :=
  { m.clear slot with slots := (slot, e) :: (m.clear slot).slots }

/-- Gives up what a slot held. -/
def release (m : Muster) : Option Enlistment → Muster
  | some (some solver) => { m with cohort := m.cohort.withdraw solver }
  | _ => m

/-- Registers a solver and kills it at once in a cancelled cohort. -/
def enlist (m : Muster) (solver : String) : Muster :=
  { m with
    cohort := m.cohort.enlist solver
    switches := modifySwitch solver id m.switches }.settle

/-- Performs an operation. A slot that is filled again gives up what it held afterwards. -/
def apply (m : Muster) : Op → Muster
  | .finish method verdict => { m with cohort := m.cohort.finish method verdict }.settle
  | .cancel => { m with cohort := m.cohort.cancel }.settle
  | .enlist solver slot => ((m.enlist solver).release (m.held? slot)).hold slot (some solver)
  | .withdraw slot => (m.release (m.held? slot)).clear slot
  | .move slot target =>
    match m.held? slot with
    | none => m
    | some e =>
      let m := m.hold slot none
      (m.release (m.held? target)).hold target e
  | .kill solver => m.killOne solver
  | .look => m

/-- The diagnostics of an operation. -/
def diagnostics (verbose : Bool) : Op → List String
  | .finish method (some v) =>
    if verbose then [Text.asLine ("[" ++ method ++ "] " ++ v.text)] else []
  | _ => []

/-- The states after each of several operations. -/
def run (m : Muster) : List Op → List Muster
  | [] => []
  | op :: ops => m.apply op :: (m.apply op).run ops

end Muster

end PetriReach
