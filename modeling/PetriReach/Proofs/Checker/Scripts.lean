import PetriReach.Proofs.Checker.Runs
import PetriReach.Proofs.Strategy.Progress
import PetriReach.Proofs.Strategy.Scripts

/-!
# Scripts of a run

Every test of a run stands behind a well-formed script, whatever the solver answers and whatever
breaks in, and the constraints that are active there are those of its round.

* `Checker.tests_wellFormed`: the scripts before the tests of a run.
-/

namespace PetriReach

open Smt Work

namespace Checker

variable {text goal : String} {net : Net} {f : Formula} {method : Method} {encoding : Encoding}
  {config : SolverConfig} {heedsBound : Bool} {c : Checker} {a : Arena} {session : Session}

/-- A new solver was told nothing. -/
theorem told_enlist (T : Nat → Option Script) (c : Checker) (a : Arena) {b : Backend}
    (hprocess : session.process = .start b) (hdepth : session.depth = 0) :
    Told T (c.enlist a session) 0 [] 0 ((c.enlist a session).session.process.stock + 2) := by
  have hsent : (c.enlist a session).sent = [] := by
    rw [Stage.sent, enlist_process, hprocess]
    rfl
  refine ⟨?_, (enlist_depth c a session).trans hdepth, by omega, .inr ?_⟩
  · rw [hsent]
    exact posed_nil T
  · rw [hsent]
    exact ⟨rfl, rfl⟩

/-- The tests of a checker are posed as those of its strategy. -/
theorem keeps_prove {σ : Type} {S : System σ} (R : c.encoder.Reading S)
    (hc : make method net f encoding config heedsBound = .ok c) (hmethod : method ≠ .stateEquation)
    {s : Stage} {fuel : Nat} (h : Told (R.script method) s 0 [] 0 (fuel + 2)) :
    Strategy.Keeps R method c.prove s := by
  rw [prove_eq hc]
  cases method with
  | stateEquation => exact absurd rfl hmethod
  | induction => exact Strategy.keeps_induction R h
  | bmc => exact Strategy.keeps_bmc R heedsBound h
  | kInduction => exact Strategy.keeps_kInduction R h

/-- A checker puts the tests to which its strategy is led. -/
theorem puts_prove {σ : Type} {S : System σ} (R : c.encoder.Reading S)
    (hc : make method net f encoding config heedsBound = .ok c) (hmethod : method ≠ .stateEquation)
    {rs : List String} {n : Nat} (hdriven : method.Driven rs n) {s : Stage}
    (h : Live rs (· < 0) s [] {} 0) : c.prove.Ends s fun _ s' => n < s'.sent.count ask := by
  rw [prove_eq hc]
  cases method with
  | stateEquation => exact absurd rfl hmethod
  | induction => exact Strategy.puts_induction R hdriven h
  | bmc => exact Strategy.puts_bmc R hdriven heedsBound h
  | kInduction => exact Strategy.puts_kInduction R hdriven h

/-- A test that is posed as it is meant stands behind a well-formed script, with the constraints of
its round active. -/
theorem wellFormed_of_posed {e : Encoder} {σ : Type} {S : System σ} (R : e.Reading S)
    {sent before : List String} (h : Posed (R.script method) sent)
    (hbefore : before ++ [ask] <+: sent) : ∃ cs t,
      Script.ofText? (String.join before) = some cs ∧ cs.tests = before.count ask ∧
      cs.WellFormed t ∧ t.asserted.Perm (e.active method (before.count ask)) ∧
      t.around.length = method.openScopes (before.count ask) := by
  obtain ⟨cs, hcs, hjoin⟩ := Option.map_eq_some_iff.mp (h before hbefore)
  obtain ⟨t, hunrolls, hperm, hscopes⟩ := R.unrolls_script hcs
  refine ⟨cs, t, ?_, hunrolls.tests, hunrolls.wellFormed R.wellFormed.places_nodup, hperm, hscopes⟩
  rw [← hjoin]
  exact Script.ofText?_render hunrolls.means.readable

/-- A run whose names cannot be written sends nothing, and does not wait. -/
theorem sent_of_not_writable (h : ¬ c.encoder.Writable) (a : Arena) {b : Backend}
    (hprocess : session.process = .start b) :
    (c.prove.start (c.enlist a session)).2.sent = [] ∧
      (c.prove.start (c.enlist a session)).1 ≠ .error .stuck := by
  obtain ⟨e, he, hsession, -⟩ := start_of_not_writable h (c.enlist a session)
  constructor
  · rw [Stage.sent, hsession, enlist_process, hprocess]
    rfl
  · rw [he]
    simp

/-- A calm run without a bound puts every test to which the answers lead. -/
theorem count_ask_of_driven (hnet : Net.parse text = .ok net) (hgoal : Formula.parse goal = .ok f)
    (hc : make method net f encoding config heedsBound = .ok c) (hmethod : method ≠ .stateEquation)
    (hs : (c.run a).session = some session) {b : Backend} {n : Nat}
    (hb : a.backends.head?.getD (some {}) = some b) (hcalm : a.Calm) (hbounded : a.Bounded (· < 0))
    (herror : ∀ e, (c.run a).outcome ≠ .error (.encoding e)) (hdriven : method.Driven b.replies n) :
    n < session.process.received.count ask := by
  obtain ⟨s, hran⟩ := exists_ran hb hs
  obtain ⟨R⟩ := exists_reading hnet hgoal hc hmethod (hran.writable herror)
  rw [← hran.sent]
  exact puts_prove R hc hmethod hdriven (hran.live_start hbounded hcalm)

/-- **The scripts before the tests of a run** are well formed, with the constraints of the round
active, each once. A run that waits in vain does so at a test, with as many open scopes as its
script has. A calm run without a bound puts every test to which the answers lead. -/
theorem tests_wellFormed (hnet : Net.parse text = .ok net) (hgoal : Formula.parse goal = .ok f)
    (hc : make method net f encoding config heedsBound = .ok c) (hmethod : method ≠ .stateEquation)
    (hs : (c.run a).session = some session) :
    (∀ before, before ++ [ask] <+: session.process.received → ∃ cs t,
      Script.ofText? (String.join before) = some cs ∧ cs.tests = before.count ask ∧
      cs.WellFormed t ∧ t.asserted.Perm (c.encoder.active method (before.count ask)) ∧
      t.around.length = method.openScopes (before.count ask)) ∧
    ((c.run a).outcome = .error .stuck → ∃ k,
      session.process.received.count ask = k + 1 ∧ session.depth = method.openScopes k) ∧
    ∀ b n, a.backends.head?.getD (some {}) = some b → a.Calm → a.Bounded (· < 0) →
      (∀ e, (c.run a).outcome ≠ .error (.encoding e)) → method.Driven b.replies n →
        n < session.process.received.count ask := by
  rw [← and_assoc]
  refine ⟨?_, fun b n hb hcalm hbounded herror hdriven =>
    count_ask_of_driven hnet hgoal hc hmethod hs hb hcalm hbounded herror hdriven⟩
  cases hstart : (a.info (c.label "RUNNING")).start c.config with
  | mk r a' =>
    cases r with
    | error reason =>
      rw [run_of_no_start hstart] at hs
      cases hs
    | ok x =>
      obtain ⟨b, -, hx, -⟩ := Arena.start_ok hstart
      have hprocess : x.process = .start b := by rw [hx]
      have hrun := run_of_start hstart
      have hend : (c.run a).outcome = .error .stuck →
          (c.prove.start (c.enlist a' x)).1 = .error .stuck := by
        rw [hrun]
        exact leave_error _ _ _ _
      rw [hrun, leave_session, Option.some.injEq] at hs
      subst hs
      by_cases hw : c.encoder.Writable
      · obtain ⟨R⟩ := exists_reading hnet hgoal hc hmethod hw
        have hkeeps := keeps_prove R hc hmethod
          (told_enlist (R.script method) c a' hprocess (by rw [hx]))
        refine ⟨fun before hbefore => wellFormed_of_posed R hkeeps.posed hbefore, fun hstuck => ?_⟩
        exact (hkeeps.2 .stuck _ (Prod.ext (hend hstuck) rfl)).2 rfl
      · obtain ⟨hsent, hother⟩ := sent_of_not_writable hw a' hprocess
        refine ⟨fun before hbefore => ?_, fun hstuck => absurd (hend hstuck) hother⟩
        have hnil : before ++ [ask] <+: [] := hsent ▸ hbefore
        simpa using hnil.length_le

/-- An arena with a backend that gives these answers and then stays silent. -/
def waiting (answers : List String) : Arena where
  cohort := { workers := 1 }
  backends := [some { answers, hangs := true }]

theorem waiting_digest : ((counterChecker .bmc 0 true).run (waiting ["unsat"])).digest =
    (.error .stuck, none, some 2, -1) := by
  decide +kernel

/-- A search for a count that waits in vain at its second test, in the scope of the goal. The first
test is one to which the answers lead. -/
theorem tests_wellFormed_counter : ∃ session,
    ((counterChecker .bmc 0 true).run (waiting ["unsat"])).session = some session ∧
    session.process.received.count ask = 2 ∧ session.depth = 1 ∧
    (∀ before, before ++ [ask] <+: session.process.received → ∃ cs t,
      Script.ofText? (String.join before) = some cs ∧ cs.WellFormed t ∧
      t.asserted.Perm ((counterChecker .bmc 0 true).encoder.bmcActive (before.count ask))) ∧
    Method.bmc.Driven ({ answers := ["unsat"], hangs := true } : Backend).replies 0 ∧
    0 < session.process.received.count ask := by
  obtain ⟨hstuck, -, -, session, hsession, hcount⟩ := Run.of_digest waiting_digest
  obtain ⟨htests, hend, hputs⟩ := tests_wellFormed counter_parse countOne_parse make_counterChecker
    (by decide) hsession
  obtain ⟨k, hk, hdepth⟩ := hend hstuck
  have hdriven : Method.bmc.Driven ({ answers := ["unsat"], hangs := true } : Backend).replies 0 :=
    ⟨by simp, ⟨"unsat", by decide, by decide⟩, by simp⟩
  refine ⟨session, hsession, hcount, hdepth, fun before hbefore => ?_, hdriven, ?_⟩
  · obtain ⟨cs, t, htext, -, hwell, hperm, -⟩ := htests before hbefore
    exact ⟨cs, t, htext, hwell, hperm⟩
  · refine hputs _ 0 rfl ⟨rfl, by simp [waiting], rfl⟩
      ⟨by decide, by simp [waiting], by simp [waiting]⟩ ?_ hdriven
    rw [hstuck]
    simp

end Checker

end PetriReach
