import PetriReach.Proofs.Checker.BoundedSearch

/-!
# Inductiveness

Induction is exact: undisturbed, with a solver that tells the truth and answers its tests, it says
whether the goal holds at the beginning and, if not, whether a firing can lead into the goal from
any marking whatever outside it.

* `Net.tokens_closed_iff`: when no step of the markings leads into the goal.
* `Checker.induction_exact`: the verdict of induction.
-/

namespace PetriReach

open Smt Work Strategy

namespace Net

/-- No firing leads from a marking outside the goal to one inside. -/
def Closed (n : Net) (f : Formula) : Prop :=
  ∀ m m', f.holds m = false → n.Step m m' → f.holds m' = false

variable {n : Net} {f : Formula}

/-- **Steps on the places lead into the goal if and only if firings do.** -/
theorem tokens_closed_iff (h : n.WellFormed) (hf : f.Over n) :
    (n.tokens f).Closed ↔ n.Closed f := by
  constructor
  · intro hclosed m m' hm hstep
    have hout : ¬ (n.tokens f).goal m' := by
      refine hclosed m m' ?_ (step_tokens hstep)
      show ¬ f.holds m = true
      simp [hm]
    exact Bool.eq_false_iff.mpr hout
  · intro hclosed m m' hm hstep hgoal
    have hout : f.holds (n.restrict m) = false := by
      rw [hf.holds_restrict]
      exact Bool.eq_false_iff.mpr hm
    have hin : f.holds (n.restrict m') = true := by
      rw [hf.holds_restrict]
      exact hgoal
    have hstay := hclosed _ _ hout (h.step_restrict hstep)
    rw [hin] at hstay
    exact absurd hstay (by simp)

/-- A witness without firings is the marking at the beginning. -/
theorem tokens_witness_zero_iff (h : n.WellFormed) (hf : f.Over n) :
    (n.tokens f).Witness 0 ↔ f.holds n.initial = true := by
  rw [tokens_witness_iff h hf]
  constructor
  · rintro ⟨ts, m, hpath, hlen, hm⟩
    obtain rfl := List.eq_nil_of_length_eq_zero hlen
    cases hpath
    exact hm
  · intro hm
    exact ⟨[], n.initial, .nil _, rfl, hm⟩

end Net

namespace Checker

variable {text goal : String} {net : Net} {f : Formula} {encoding : Encoding}
  {config : SolverConfig} {heedsBound : Bool} {c : Checker} {a : Arena} {b : Backend}

/-! ## Runs that were told the truth -/

section Told

variable {w : Option Nat} {n : Int}

/-- A run of induction that ends with its first test was told the truth if the goal is met at the
beginning. -/
theorem trueRun_of_base (hnet : Net.parse text = .ok net) (hgoal : Formula.parse goal = .ok f)
    (hc : make .induction net f encoding config heedsBound = .ok c)
    (hb : a.backends.head?.getD (some {}) = some b)
    (hdigest : (c.run a).digest = (.ok (some .reachable), w, some 1, n))
    (hbase : (net.system f encoding).Witness 0) : c.TrueRun a b := by
  obtain ⟨hv, -, -, session, hs, hcount⟩ := Run.of_digest hdigest
  obtain ⟨s, hran⟩ := exists_ran hb hs
  obtain ⟨R, hpast⟩ := hran.inductionFound hnet hgoal hc hv
  exact hran.trueRun hb hs hpast (by simp [hcount])
    (List.forall_mem_singleton.mpr (right_sat (R.base_iff.mpr hbase)))

/-- A run of induction that ends with its second test was told the truth if the goal is not met at
the beginning and no step leads into it. -/
theorem trueRun_of_closed (hnet : Net.parse text = .ok net) (hgoal : Formula.parse goal = .ok f)
    (hc : make .induction net f encoding config heedsBound = .ok c)
    (hb : a.backends.head?.getD (some {}) = some b)
    (hdigest : (c.run a).digest = (.ok (some .notReachable), w, some 2, n))
    (hbase : ¬ (net.system f encoding).Witness 0) (hclosed : (net.system f encoding).Closed) :
    c.TrueRun a b := by
  obtain ⟨hv, -, -, session, hs, hcount⟩ := Run.of_digest hdigest
  obtain ⟨s, hran⟩ := exists_ran hb hs
  obtain ⟨R, hpast⟩ := hran.inductionFound hnet hgoal hc hv
  refine hran.trueRun hb hs hpast (by simp [hcount]) ?_
  rw [List.forall_mem_cons, List.forall_mem_singleton]
  exact ⟨right_unsat (mt R.base_iff.mp hbase),
    right_unsat fun hsat => R.closed_iff.mp hsat hclosed⟩

end Told

/-! ## Exact verdicts -/

/-- Where a name cannot be written, no strategy gets further than the variables of the places. -/
theorem encoding_of_not_writable {s : Stage} (h : ¬ c.encoder.Writable) :
    ∃ err, (c.prove.start s).1 = .error (.encoding err) := by
  by_contra hnone
  push Not at hnone
  exact h (writable_of_prove hnone)

/-- A calm run of induction whose tests are answered has a verdict, and the answers give it. -/
theorem Ran.inductionEnd {session : Session} {s : Stage} (hran : c.Ran a b session s)
    (hnet : Net.parse text = .ok net) (hgoal : Formula.parse goal = .ok f)
    (hc : make .induction net f encoding config heedsBound = .ok c) (hw : c.encoder.Writable)
    (hcalm : a.Calm) (hfirst : 0 < b.definite)
    (hsecond : b.replies.head?.map Text.trim = some "unsat" → 1 < b.definite) :
    ∃ (R : c.encoder.Reading (net.system f encoding)) (v : Option Verdict),
      (c.prove.start s).1 = .ok v ∧ InductionEnd R b.replies v (c.prove.start s).2 := by
  obtain ⟨R⟩ := exists_reading hnet hgoal hc (by decide) hw
  have hbounds : a.Bounded fun _ => True :=
    ⟨trivial, fun _ _ _ _ => trivial, fun _ _ _ _ => trivial⟩
  obtain ⟨l, hl, hdefinite⟩ := Backend.lt_definite_iff.mp hfirst 0 (Nat.le_refl 0)
  have hnext : Text.trim l = "unsat" → ∃ l', b.replies[1]? = some l' ∧ Definite l' := by
    intro hunsat
    have hhead : b.replies.head?.map Text.trim = some "unsat" := by
      rw [List.head?_eq_getElem?, hl, Option.map_some, hunsat]
    exact Backend.lt_definite_iff.mp (hsecond hhead) 1 (Nat.le_refl 1)
  have hdoes := does_induction R (hran.live_start hbounds hcalm) hl hdefinite hnext
  have hprove : c.prove = induction c.encoder := prove_eq hc
  rw [← hprove] at hdoes
  obtain ⟨v, s', hstart, hend⟩ := hdoes
  exact ⟨R, v, by rw [hstart], by rw [hstart]; exact hend⟩

/-- **Induction is exact.** Undisturbed, with a solver that tells the truth and answers the first
test, and the second if the first finds nothing, it has one of three verdicts, unless the name of a
place cannot be written. The goal is never reached if the second verdict is given. -/
theorem induction_exact (hnet : Net.parse text = .ok net) (hgoal : Formula.parse goal = .ok f)
    (hc : make .induction net f .integer config heedsBound = .ok c) (hcalm : a.Calm)
    (hrun : c.TrueRun a b) (hfirst : 0 < b.definite)
    (hsecond : b.replies.head?.map Text.trim = some "unsat" → 1 < b.definite) :
    ((∀ p ∈ net.places, isQuotable p.id = true) →
      ((c.run a).outcome = .ok (some .reachable) ↔ f.holds net.initial = true) ∧
      ((c.run a).outcome = .ok (some .notReachable) ↔
        f.holds net.initial = false ∧ net.Closed f) ∧
      ((c.run a).outcome = .ok (some .unknown) ↔
        f.holds net.initial = false ∧ ¬ net.Closed f)) ∧
    ((∃ p ∈ net.places, isQuotable p.id = false) →
      ∃ err, (c.run a).outcome = .error (.encoding err)) ∧
    ((c.run a).outcome = .ok (some .notReachable) →
      ∀ m, net.Reachable m → f.holds m = false) := by
  obtain ⟨session, s, hran, htrue⟩ := hrun.exists_ran
  have hwell := Net.wellFormed_of_parse hnet
  obtain ⟨enc, -, hmade, hover, -⟩ := make_ok hc
  have hplaces : c.encoder.net = net := by rw [hmade]
  refine ⟨fun hquotable => ?_, ?_, fun hv => ?_⟩
  · have hw : c.encoder.Writable := by
      intro p hp
      rw [hplaces] at hp
      exact hquotable p hp
    obtain ⟨R, v, hstart, hend⟩ := hran.inductionEnd hnet hgoal hc hw hcalm hfirst hsecond
    obtain ⟨hreachable, hnot, hunknown⟩ := induction_decides htrue hend
    have hbase := Net.tokens_witness_zero_iff hwell hover
    have hclosed := Net.tokens_closed_iff hwell hover
    -- the outcome of the run is the verdict of its strategy
    have houtcome : ∀ u, (c.run a).outcome = .ok (some u) ↔ v = some u := by
      intro u
      rw [hran.verdict, hstart, Except.ok.injEq]
    rw [houtcome, houtcome, houtcome, hreachable, hnot, hunknown, ← hclosed, ← Bool.not_eq_true,
      ← hbase]
    exact ⟨Iff.rfl, Iff.rfl, Iff.rfl⟩
  · rintro ⟨p, hp, hunquotable⟩
    have hw : ¬ c.encoder.Writable := by
      intro hw
      have hquotable := hw p (hplaces.symm ▸ hp)
      rw [hunquotable] at hquotable
      exact absurd hquotable (by simp)
    obtain ⟨err, herr⟩ := encoding_of_not_writable (s := s) hw
    exact ⟨err, hran.encoding err herr⟩
  · rw [← Net.no_witness_iff]
    intro k hk
    have hwitness := (Net.tokens_witness_iff hwell hover k).mpr hk
    exact (induction_verdict hnet hgoal hrun hc).2 hv k hwitness

/-! ## A count that never comes to 0 -/

/-- The count is 0. -/
def countZero : Formula :=
  .atom ⟨[⟨"q", 1⟩], 0⟩ .eq ⟨[], 0⟩

/-- A checker for this count, from 2 on. -/
def zeroChecker : Checker :=
  { method := .induction, encoder := ⟨counter 2, some (.formula countZero), .integer⟩,
    config := {} }

theorem countZero_holds (m : Marking) : countZero.holds m = true ↔ m "q" = 0 := by
  show decide (1 * (m "q" : Int) + 0 = 0) = true ↔ _
  rw [decide_eq_true_eq]
  omega

theorem countZero_parse : Formula.parse "q = 0" = .ok countZero :=
  rfl

theorem zero_digest : (zeroChecker.run (answering ["unsat", "unsat"])).digest =
    (.ok (some .notReachable), none, some 2, -1) := by
  decide +kernel

theorem zero_closed : (counter 2).Closed countZero := by
  intro m m' _ hstep
  have hcount := counter_step hstep
  rw [← Bool.not_eq_true, countZero_holds]
  omega

theorem zero_trueRun :
    zeroChecker.TrueRun (answering ["unsat", "unsat"]) { answers := ["unsat", "unsat"] } := by
  have hwell := Net.wellFormed_of_parse counter_parse_two
  have hover : countZero.Over (counter 2) := by
    intro p hp
    rw [show countZero.mentions = ["q"] from rfl, List.mem_singleton] at hp
    exact ⟨⟨"q", 2⟩, List.mem_singleton.mpr rfl, hp.symm⟩
  have hbase : ¬ ((counter 2).tokens countZero).Witness 0 := by
    rw [Net.tokens_witness_zero_iff hwell hover]
    decide
  exact trueRun_of_closed counter_parse_two countZero_parse
    (rfl : make .induction _ _ .integer {} true = _) rfl zero_digest hbase
    ((Net.tokens_closed_iff hwell hover).mpr zero_closed)

/-- A count from 2 is not 0, and no firing makes it 0. -/
theorem zero_never_counted :
    (zeroChecker.run (answering ["unsat", "unsat"])).outcome = .ok (some .notReachable) ∧
    countZero.holds (counter 2).initial = false ∧ (counter 2).Closed countZero ∧
    ∀ m, (counter 2).Reachable m → countZero.holds m = false := by
  obtain ⟨hexact, -, hnever⟩ := induction_exact counter_parse_two countZero_parse
    (rfl : make .induction _ _ .integer {} true = _) ⟨rfl, by simp [answering], rfl⟩
    zero_trueRun (by decide) (fun _ => by decide)
  have hquotable : ∀ p ∈ (counter 2).places, isQuotable p.id = true := by decide
  have hv := (hexact hquotable).2.1.mpr ⟨by decide, zero_closed⟩
  exact ⟨hv, by decide, zero_closed, hnever hv⟩

end Checker

end PetriReach
