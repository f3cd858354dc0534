import PetriReach.Proofs.Checker.Cancellation
import PetriReach.Proofs.Checker.Surroundings
import PetriReach.Proofs.Strategy.Answers

/-!
# Outcomes as functions of the answers

The outcome of an undisturbed run is a function of the lines that its solver delivers, of which a
solver that does not start delivers none. What is no answer, and the end of the lines, ends the run
without a verdict.

* `Checker.conclude`: the verdict as a function of the lines.
* `Checker.run_conclude`: a run comes to this verdict.
* `Checker.outcome_of_answers`: the lines that lead to each verdict.
-/

namespace PetriReach

open Smt Work

namespace Arena

variable {a b : Arena}

/-- The script of a solver that is started now, if it starts. -/
def backend? (a : Arena) (config : SolverConfig) : Option Backend :=
  (a.start config).1.toOption.map (·.process.script)

/-- The lines that a solver delivers which is started now. -/
def delivered (a : Arena) (config : SolverConfig) : List String :=
  ((a.backend? config).map Backend.replies).getD []

/-- Which solver starts depends on the programs, the backends and their number only. -/
theorem start_congr (hprograms : a.programs = b.programs) (hbackends : a.backends = b.backends)
    (hstarted : a.started = b.started) (config : SolverConfig) :
    (a.start config).1 = (b.start config).1 := by
  unfold start
  rw [hprograms, hbackends, hstarted]

theorem start_info (a : Arena) (text : String) (config : SolverConfig) :
    ((a.info text).start config).1 = (a.start config).1 := by
  refine info_cases (p := fun a' => (a'.start config).1 = (a.start config).1) rfl ?_ text
  exact fun text =>
    start_congr (by rw [emit_eq]) (backends_emit text) (by rw [emit_eq]) config

theorem after_start (a : Arena) (config : SolverConfig) : a.After 0 (a.start config).2 := by
  obtain ⟨backends, started, hsnd⟩ := a.start_snd config
  rw [hsnd]
  exact (After.refl a).beside (.refl _) rfl backends started

end Arena

namespace Checker

variable {c : Checker} {a : Arena}

/-- Every script that the checker may send can be written. -/
def Encodes (c : Checker) : Prop :=
  ∀ k, ∀ script ∈ c.method.scripts c.encoder k, ∃ cs, script = .ok cs

/-- In every script that the checker may send, a line is a command and no test. -/
def Tidy (c : Checker) : Prop :=
  ∀ k, ∀ script ∈ c.method.scripts c.encoder k, ∀ cs, script = .ok cs →
    ∀ command ∈ cs, command.Written ∧ command ≠ .checkSat

/-- The next solver does not hang; it may exit only if nothing that is sent can be taken for a
test. -/
def Served (c : Checker) (a : Arena) : Prop :=
  ∀ b, a.backend? c.config = some b → b.hangs = false ∧ (b.exitAfter = none ∨ c.Tidy)

/-- What bounded model checking finds in the bound cell at depth `k`. -/
def polls (c : Checker) (a : Arena) (k : Nat) : Option Int :=
  Strategy.pollsFrom c.heedsBound a c.config.debug
    (2 * a.verbose.toNat + 6 * c.config.debug.toNat) k

/-- The verdict as a function of the lines that the solver delivers. -/
def conclude (c : Checker) (a : Arena) : Option Verdict :=
  match c.method with
  | .stateEquation => Strategy.relaxedEnd (a.delivered c.config)
  | .induction => Strategy.inductionEnd (a.delivered c.config)
  | .bmc => (Strategy.bmcEnd (c.polls a) 0 (a.delivered c.config)).map (·.1)
  | .kInduction => none

theorem leave_comes {v : Option Verdict} {r : Except Fault (Option Verdict)} (h : Comes v r)
    (c : Checker) (id : Nat) (s : Stage) : (c.leave id r s).outcome = .ok v := by
  rcases h with rfl | ⟨rfl, reason, rfl⟩
  · rfl
  · rfl

theorem enlist_echo (c : Checker) (a : Arena) (session : Session) :
    (c.enlist a session).session.echo = session.echo := by
  unfold enlist Stage.settle
  split <;> rfl

theorem leave_untouched (c : Checker) (id : Nat) (r : Except Fault (Option Verdict)) (s : Stage) :
    s.toArena.Untouched (c.leave id r s).arena := by
  have hleft : s.toArena.Untouched { s.toArena with cohort := s.cohort.withdraw id } :=
    ⟨0, (Arena.After.refl s.toArena).beside (s.cohort.noResult_withdraw id) rfl s.backends
      s.started⟩
  unfold leave
  dsimp only
  split
  · exact hleft
  · exact hleft.info _
  · exact hleft

theorem speaks (hencodes : c.Encodes) {exits : Bool} (htidy : exits = true → c.Tidy) :
    c.method.Speaks c.encoder exits := by
  intro k script hscript
  obtain ⟨cs, hcs⟩ := hencodes k script hscript
  exact ⟨cs, hcs, fun hexits command hmem => htidy hexits k script hscript cs hcs command hmem⟩

section Parsed

variable {text goal : String} {net : Net} {f : Formula} {method : Method} {encoding : Encoding}
  {config : SolverConfig} {heedsBound : Bool} {c : Checker}

/-- **What is sent about a net that was read** is written in lines that are commands and no
tests, if only all names can be written. -/
theorem speaks_of_parse (hnet : Net.parse text = .ok net) (hgoal : Formula.parse goal = .ok f)
    (hc : make method net f encoding config heedsBound = .ok c) (hw : c.encoder.Writable)
    (hcount : method = .stateEquation → c.encoder.Countable) :
    c.method.Speaks c.encoder true := by
  have hneg := Formula.nonNeg_of_parse hgoal
  have hn := Net.wellFormed_of_parse hnet
  by_cases hmethod : method = .stateEquation
  · obtain ⟨enc, henc, rfl, hover, -⟩ := make_ok hc
    rw [if_pos hmethod] at henc
    subst hmethod henc
    exact Encoder.speaks_stateEquation rfl rfl hn hw (hcount rfl) hover hneg
  · obtain ⟨R⟩ := exists_reading hnet hgoal hc hmethod hw
    obtain ⟨enc, -, rfl, -, -⟩ := make_ok hc
    exact Encoder.speaks_of_reading R hmethod

theorem encodes_of_speaks {exits : Bool} (h : c.method.Speaks c.encoder exits) : c.Encodes := by
  intro k script hscript
  obtain ⟨cs, hcs, -⟩ := h k script hscript
  exact ⟨cs, hcs⟩

theorem Encodes.writable (h : c.Encodes) : c.encoder.Writable := by
  obtain ⟨k, hmem⟩ : ∃ k, c.encoder.declarePlaces k ∈ c.method.scripts c.encoder 0 := by
    cases c.method with
    | stateEquation => exact ⟨none, by simp [Method.scripts]⟩
    | _ => exact ⟨some 0, by simp [Method.scripts]⟩
  obtain ⟨cs, hcs⟩ := h 0 _ hmem
  exact Encoder.writable_of_declarePlaces hcs

end Parsed

/-- The strategy of an undisturbed run finds a solver that delivers its lines, or none starts. -/
theorem run_cases (hcalm : a.Calm) (hserved : c.Served a) :
    (a.delivered c.config = [] ∧ (c.run a).outcome = .ok none ∧ a.Untouched (c.run a).arena) ∨
    ∃ id exits s, (exits = true → c.Tidy) ∧
      Ready a c.config.debug exits a.verbose.toNat 0 (a.delivered c.config) s ∧
      c.run a = c.leave id (c.prove.start s).1 (c.prove.start s).2 := by
  have hafter : a.After a.verbose.toNat (a.info (c.label "RUNNING")) := by
    simpa using (Arena.After.refl a).info (c.label "RUNNING")
  have hfst := a.start_info (c.label "RUNNING") c.config
  cases hstart : (a.info (c.label "RUNNING")).start c.config with
  | mk result a' =>
    rw [hstart] at hfst
    have ha' : a.After a.verbose.toNat a' := by
      have hsnd := hafter.trans (Arena.after_start _ c.config)
      rwa [hstart] at hsnd
    cases result with
    | error reason =>
      refine .inl ⟨?_, ?_, ?_⟩
      · rw [Arena.delivered, Arena.backend?, ← hfst]
        rfl
      · rw [run, hstart]
      · rw [run, hstart]
        exact ⟨_, ha'.trans (a'.after_emit _)⟩
    | ok session =>
      obtain ⟨b, -, hsession, harena⟩ := Arena.start_ok hstart
      have hbackend : a.backend? c.config = some b := by
        rw [Arena.backend?, ← hfst, hsession]
        rfl
      obtain ⟨hprompt, hexit⟩ := hserved b hbackend
      have hdelivered : a.delivered c.config = b.replies := by
        rw [Arena.delivered, hbackend]
        rfl
      refine .inr ⟨session.id, b.exitAfter.isSome, c.enlist a' session, fun hsome => ?_, ?_,
        run_of_start hstart⟩
      · refine hexit.resolve_left fun hnone => ?_
        rw [hnone] at hsome
        cases hsome
      · have hinfo : (a.info (c.label "RUNNING")).Calm :=
          Arena.info_cases (p := Arena.Calm) hcalm (hcalm.emit ·) _
        have hcalm' : a'.Calm := by
          rw [harena]
          exact ⟨hinfo.running, hinfo.agenda, hinfo.meanwhile⟩
        refine ⟨enlist_calm hcalm' c (by rw [hsession]; rfl), ?_, ?_, ?_, ?_⟩
        · rw [enlist, Stage.settle_toArena]
          exact ha'.beside (a'.cohort.noResult_enlist _) rfl a'.backends a'.started
        · rw [enlist_echo, hsession]
        · rw [enlist_depth, hsession]
        · rw [enlist_process, hsession, hdelivered]
          exact Process.due_start hprompt (by simp)

/-- What the strategy of an undisturbed run comes to. Only k-induction touches the bound cell. -/
structure Proved (c : Checker) (a : Arena) (r : Except Fault (Option Verdict)) (s : Stage) :
    Prop where
  comes : Comes (c.conclude a) r
  aged : a.Aged s.toArena
  untouched : c.method ≠ .kInduction → a.Untouched s.toArena

theorem Proved.of_comesTo {r : Except Fault (Option Verdict)} {s : Stage}
    (h : ComesTo a (c.conclude a) r s) : c.Proved a r s :=
  ⟨h.1, h.2.aged, fun _ => h.2⟩

/-- **What a strategy comes to is a function of the lines that its solver delivers.** -/
theorem prove_ends {exits : Bool} {s : Stage} (hs : c.method.Speaks c.encoder exits)
    (h : Ready a c.config.debug exits a.verbose.toNat 0 (a.delivered c.config) s) :
    c.prove.Ends s (c.Proved a) := by
  cases hm : c.method with
  | stateEquation =>
    refine Proved.of_comesTo ?_
    rw [prove, conclude, hm]
    exact Strategy.comes_stateEquation (hm ▸ hs) h
  | induction =>
    refine Proved.of_comesTo ?_
    rw [prove, conclude, hm]
    exact Strategy.comes_induction (hm ▸ hs) h
  | bmc =>
    have hends := Strategy.comes_bmc c.heedsBound (hm ▸ hs) h
    rw [← Nat.two_mul] at hends
    refine Proved.of_comesTo ?_
    rw [prove, conclude, hm]
    exact hends.comes
  | kInduction =>
    have hends := Strategy.comes_kInduction (hm ▸ hs) h
    have hnone : c.conclude a = none := by rw [conclude, hm]
    unfold Ends
    rw [prove, hm]
    cases hk : Strategy.kEnd 0 (a.delivered c.config) with
    | none =>
      refine Proved.of_comesTo ?_
      rw [hnone]
      exact hends.leaves hk
    | some d =>
      obtain ⟨hok, -, haged⟩ := hends.publishes d hk
      refine ⟨.inl ?_, haged, fun hne => absurd hm hne⟩
      rw [hnone]
      exact hok

/-- **The outcome of an undisturbed run is a function of the lines that its solver delivers.** -/
theorem run_conclude (hcalm : a.Calm) (hencodes : c.Encodes) (hserved : c.Served a) :
    (c.run a).outcome = .ok (c.conclude a) := by
  rcases run_cases hcalm hserved with ⟨hnil, hnone, -⟩ | ⟨id, exits, s, htidy, hready, hrun⟩
  · rw [hnone, conclude, hnil]
    cases c.method <;> rfl
  · have hends := prove_ends (speaks hencodes htidy) hready
    rw [hrun]
    exact leave_comes hends.comes c id _

/-- An undisturbed run leaves its surroundings as they were, up to what k-induction publishes. -/
theorem run_aged (hcalm : a.Calm) (hencodes : c.Encodes) (hserved : c.Served a) :
    a.Aged (c.run a).arena ∧ (c.method ≠ .kInduction → a.Untouched (c.run a).arena) := by
  rcases run_cases hcalm hserved with ⟨-, -, huntouched⟩ | ⟨id, exits, s, htidy, hready, hrun⟩
  · exact ⟨huntouched.aged, fun _ => huntouched⟩
  · have hends := prove_ends (speaks hencodes htidy) hready
    have hleave := c.leave_untouched id (c.prove.start s).1 (c.prove.start s).2
    rw [hrun]
    exact ⟨hends.aged.trans hleave.aged, fun hm => (hends.untouched hm).trans hleave⟩

/-- Line number `j` of the solver of a run is the answer `w`. -/
def Hears (c : Checker) (a : Arena) (j : Nat) (w : Answer) : Prop :=
  Delivers (a.delivered c.config) j w

end Checker

end PetriReach
