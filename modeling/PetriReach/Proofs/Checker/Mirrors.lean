import PetriReach.Proofs.Checker.Runs
import PetriReach.Proofs.Solver.Mirrors
import PetriReach.Proofs.Strategy.Moves

/-!
# Runs in surroundings that agree

A run comes to the same in surroundings that agree if it starts the same solver there. Neither the
labels of solvers nor the witness of an earlier run has a say in that.

* `Strategy.parallel_bmc` and its like: a strategy goes the same way on all stages that are alike.
* `Checker.run_mirrored`: so does a run, if it starts the same solver.
* `Checker.run_alike`: so it does under other labels.
-/

namespace PetriReach

/-! ## Strategies -/

namespace Strategy

open Work

variable {M : Arena.Mirror} (e : Encoder)

theorem boundReached_of_alike {s s' : Stage} (h : s.Alike M s') (heedsBound : Bool) (k : Nat) :
    boundReached heedsBound s' k = boundReached heedsBound s k := by
  unfold boundReached
  rw [M.bound h.arena]

/-- Work that is left out if the race is called off. -/
theorem parallel_poll {w : Work (Option Verdict)} (hw : w.Parallel M) :
    (do if (← get).cohort.cancelled then return none else w :
      Work (Option Verdict)).Parallel M := by
  intro s s' h
  refine agrees_get ?_
  rw [M.cancelled h.arena]
  split
  · exact Parallel.pure _ s s' h
  · exact hw s s' h

theorem parallel_stateEquation : (stateEquation e).Parallel M := by
  refine (Parallel.send _).bind fun _ => (Parallel.send _).bind fun _ =>
    (Parallel.send _).bind fun _ => (Parallel.send _).bind fun _ =>
      (Parallel.checkSat false).bind fun w => ?_
  split <;> exact Parallel.pure _

theorem parallel_inductionStep : (inductionStep e).Parallel M := by
  refine (Parallel.send _).bind fun _ => (Parallel.send _).bind fun _ =>
    (Parallel.send _).bind fun _ => (Parallel.send _).bind fun _ =>
      (Parallel.checkSat false).bind fun w => ?_
  split <;> exact Parallel.pure _

theorem parallel_induction : (induction e).Parallel M := by
  rw [induction_eq]
  refine (Parallel.send _).bind fun _ => Parallel.push.bind fun _ => (Parallel.send _).bind fun _ =>
    (Parallel.send _).bind fun _ => (Parallel.checkSat true).bind fun w => ?_
  unfold inductionNext
  split
  · exact Parallel.pure _
  · exact Parallel.pop.bind fun _ => parallel_poll (parallel_inductionStep e)

theorem parallel_bmcNext (heedsBound : Bool) {fuel : Nat}
    (hrec : ∀ k, (bmcFrom e heedsBound fuel k).Parallel M) (k : Nat) (w : Answer) :
    (bmcNext e heedsBound fuel k w).Parallel M := by
  unfold bmcNext
  split
  · exact (Parallel.info _).bind fun _ => Parallel.bind
      (fun _ _ h => agrees_modify ⟨h.arena, h.session, h.enlisted, h.enlisted', h.waits⟩)
      fun _ => Parallel.pure _
  · intro s s' h
    refine agrees_get ?_
    rw [boundReached_of_alike h]
    split
    · exact (Parallel.info _).bind (fun _ => Parallel.pure _) s s' h
    · refine parallel_poll ?_ s s' h
      exact Parallel.pop.bind fun _ => (Parallel.send _).bind fun _ => (Parallel.send _).bind
        fun _ => Parallel.push.bind fun _ => (Parallel.send _).bind fun _ => hrec (k + 1)

theorem parallel_bmcFrom (heedsBound : Bool) (fuel k : Nat) :
    (bmcFrom e heedsBound fuel k).Parallel M := by
  induction fuel generalizing k with
  | zero => exact Parallel.throw _
  | succ fuel ih =>
    rw [bmcFrom_succ]
    exact (Parallel.info _).bind fun _ => (Parallel.checkSat true).bind
      fun w => parallel_bmcNext e heedsBound ih k w

theorem parallel_bmc (heedsBound : Bool) : (bmc e heedsBound).Parallel M := by
  refine Parallel.bind
    (fun _ _ h => agrees_modify ⟨h.arena, h.session, h.enlisted, h.enlisted', h.waits⟩) fun _ =>
      (Parallel.send _).bind fun _ => (Parallel.send _).bind fun _ => Parallel.push.bind fun _ =>
        (Parallel.send _).bind fun _ => ?_
  -- Alike solvers owe as many lines, so the fuel is the same.
  intro s s' h
  refine agrees_get ?_
  rw [h.process]
  exact parallel_bmcFrom e heedsBound _ 0 s s' h

theorem parallel_kInductionFrom (fuel k : Nat) : (kInductionFrom e fuel k).Parallel M := by
  induction fuel generalizing k with
  | zero => exact Parallel.throw _
  | succ fuel ih =>
    rw [kInductionFrom_succ]
    refine parallel_poll ((Parallel.info _).bind fun _ => Parallel.push.bind fun _ =>
      (Parallel.send _).bind fun _ => (Parallel.checkSat true).bind fun w => ?_)
    unfold kNext
    split
    · refine (Parallel.info _).bind fun _ => Parallel.bind (fun s s' h => ?_)
        fun _ => Parallel.pure _
      exact agrees_modify
        ⟨M.publish k h.arena, h.session, h.enlisted, h.enlisted', h.waits⟩
    · exact Parallel.pop.bind fun _ => (Parallel.send _).bind fun _ => (Parallel.send _).bind
        fun _ => (Parallel.send _).bind fun _ => ih (k + 1)

theorem parallel_kInduction : (kInduction e).Parallel M := by
  refine (Parallel.send _).bind fun _ => ?_
  intro s s' h
  refine agrees_get ?_
  rw [h.process]
  exact parallel_kInductionFrom e _ 0 s s' h

end Strategy

/-! ## Runs -/

/-- The same solver starts in both surroundings, but for the label, or none in either; and they
agree afterwards. -/
structure Arena.StartsAlike (M : Mirror) (config : SolverConfig) (a a' : Arena) : Prop where
  session : (a'.start config).1 = (a.start config).1.map ({ · with id := a'.started })
  arena : M.rel (a.start config).2 (a'.start config).2
  waits : (a.start config).2.cohort.cancelled = true ∨
    (a'.start config).2.watchdog = (a.start config).2.watchdog

/-- A start takes no notice of labels but for the one it gives. -/
theorem Arena.Alike.start {a a' : Arena} (h : a.Alike a') (config : SolverConfig) :
    StartsAlike labels config a a' := by
  rw [h]
  unfold relabel
  refine ⟨?_, ?_, .inr ?_⟩
  · show (config.launch a.programs (a.backends.head?.getD (some {}))).map _ = _
    unfold Arena.start
    cases config.launch a.programs (a.backends.head?.getD (some {})) with
    | error reason => rfl
    | ok b => rfl
  · unfold Arena.start
    dsimp only
    split
    · rfl
    · rfl
  · unfold Arena.start
    dsimp only
    split
    · rfl
    · rfl

namespace Checker

variable {M : Arena.Mirror} {c c' : Checker} {a a' : Arena}

/-- The same but for the witness found last. -/
def Alike (c c' : Checker) : Prop :=
  c' = { c with witness := c'.witness }

/-- Runs with the same outcome that leave surroundings that agree. -/
structure Run.Alike (M : Arena.Mirror) (run run' : Run) : Prop where
  outcome : run'.outcome = run.outcome
  arena : M.rel run.arena run'.arena

theorem Alike.method (h : c.Alike c') : c'.method = c.method := by
  rw [h]

theorem Alike.config (h : c.Alike c') : c'.config = c.config := by
  rw [h]

theorem Alike.label (h : c.Alike c') (text : String) : c'.label text = c.label text := by
  unfold Checker.label
  rw [h.method]

theorem Alike.prove (h : c.Alike c') : c'.prove = c.prove := by
  rw [h]
  rfl

theorem parallel_prove (c : Checker) : c.prove.Parallel M := by
  unfold prove
  split
  · exact Strategy.parallel_stateEquation _
  · exact Strategy.parallel_induction _
  · exact Strategy.parallel_bmc _ _
  · exact Strategy.parallel_kInduction _

theorem enlist_alike (c c' : Checker) (ha : M.rel a a')
    (hwaits : a.cohort.cancelled = true ∨ a'.watchdog = a.watchdog) (x : Session) (id : Nat) :
    (c.enlist a x).Alike M (c'.enlist a' { x with id }) := by
  refine Stage.Alike.settle (M.enlist _ _ ha) rfl ?_ ?_ (hwaits.imp_right .inr)
  · simp [Cohort.enlist]
  · simp [Cohort.enlist]

theorem leave_alike (hc : c.Alike c') {s s' : Stage} (hs : s.Alike M s') (id id' : Nat)
    (r : Except Fault (Option Verdict)) : (c.leave id r s).Alike M (c'.leave id' r s') := by
  have hlabel : ∀ text, label { c' with witness := s'.witness } text = c.label text := hc.label
  have harena := M.withdraw id id' hs.arena
  unfold leave
  dsimp only
  split
  · exact ⟨rfl, harena⟩
  · rw [hlabel]
    exact ⟨rfl, M.info _ harena⟩
  · exact ⟨rfl, harena⟩

/-- A run leaves a checker that is alike. -/
theorem alike_run (c : Checker) (a : Arena) : c.Alike (c.run a).checker := by
  rcases hs : (a.info (c.label "RUNNING")).start c.config with ⟨r, b⟩
  cases r with
  | error reason =>
    rw [run, hs]
    rfl
  | ok x =>
    rw [run_of_start hs]
    unfold leave
    dsimp only
    split <;> rfl

/-- **Runs that start the same solver in surroundings that agree.** -/
theorem run_mirrored (hc : c.Alike c')
    (h : Arena.StartsAlike M c.config (a.info (c.label "RUNNING")) (a'.info (c.label "RUNNING"))) :
    (c.run a).Alike M (c'.run a') := by
  obtain ⟨hresult, harena, hwaits⟩ := h
  rcases hs : (a.info (c.label "RUNNING")).start c.config with ⟨r, b⟩
  rcases hs' : (a'.info (c.label "RUNNING")).start c.config with ⟨r', b'⟩
  rw [hs, hs'] at hresult harena hwaits
  rw [← hc.label, ← hc.config] at hs'
  cases r with
  | error reason =>
    obtain rfl : r' = .error reason := hresult
    rw [run, run, hs, hs']
    dsimp only
    rw [hc.label]
    exact ⟨rfl, M.emit _ harena⟩
  | ok x =>
    obtain rfl : r' = .ok { x with id := (a'.info (c.label "RUNNING")).started } := hresult
    rw [run_of_start hs, run_of_start hs', hc.prove]
    have hprove := c.parallel_prove _ _
      (enlist_alike c c' harena hwaits x (a'.info (c.label "RUNNING")).started)
    rw [hprove.result]
    exact leave_alike hc hprove.alike _ _ _

/-- Checkers that are alike have runs that are alike. -/
theorem run_alike (hc : c.Alike c') (ha : a.Alike a') :
    (c.run a).Alike Arena.labels (c'.run a') :=
  run_mirrored hc ((ha.info _).start _)

end Checker

end PetriReach
