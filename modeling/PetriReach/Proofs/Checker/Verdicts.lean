import PetriReach.Proofs.Checker.Runs
import PetriReach.Proofs.Strategy.Induction
import PetriReach.Proofs.Strategy.KInduction
import PetriReach.Proofs.Strategy.StateEquation

/-!
# Verdicts

What a verdict of a run rests on, for each strategy, and what it says if the solver tells the truth.
Bounded model checking, induction and k-induction speak of the system that their encoding writes;
the state equation speaks of tokens.

* `Checker.bmc_verdict`, `Checker.induction_verdict`, `Checker.stateEquation_verdict`: verdicts.
* `Checker.kInduction_bound`: the bound that k-induction leaves.
-/

namespace PetriReach.Checker

open Smt Work Strategy Encoder

variable {text goal : String} {net : Net} {f : Formula} {encoding : Encoding}
  {config : SolverConfig} {heedsBound : Bool} {c : Checker} {a : Arena} {b : Backend}
  {session : Session} {s : Stage} {P : Int → Prop}

section Found

variable (hran : c.Ran a b session s) (hnet : Net.parse text = .ok net)
  (hgoal : Formula.parse goal = .ok f)

include hran hnet hgoal

theorem Ran.bmcFound (hc : make .bmc net f encoding config heedsBound = .ok c) (hP : a.Bounded P)
    {v : Verdict} (hv : (c.run a).outcome = .ok (some v)) :
    ∃ R : c.encoder.Reading (net.system f encoding),
      BmcFound R b.replies P heedsBound (some v) (c.prove.start s).2 := by
  obtain ⟨R⟩ := exists_reading hnet hgoal hc (by decide) (hran.writable_of_ok hv)
  have hyields := yields_bmc R heedsBound (hran.at_start hP)
  exact ⟨R, hran.yields hv ((prove_eq hc).symm ▸ hyields)⟩

theorem Ran.inductionFound (hc : make .induction net f encoding config heedsBound = .ok c)
    {v : Verdict} (hv : (c.run a).outcome = .ok (some v)) :
    ∃ R : c.encoder.Reading (net.system f encoding),
      InductionFound R b.replies (some v) (c.prove.start s).2 := by
  obtain ⟨R⟩ := exists_reading hnet hgoal hc (by decide) (hran.writable_of_ok hv)
  have hbounds : a.Bounded fun _ => True :=
    ⟨trivial, fun _ _ _ _ => trivial, fun _ _ _ _ => trivial⟩
  have hyields := yields_induction R (hran.at_start hbounds)
  exact ⟨R, hran.yields hv ((prove_eq hc).symm ▸ hyields)⟩

theorem Ran.stateFound (hc : make .stateEquation net f encoding config heedsBound = .ok c)
    {v : Verdict} (hv : (c.run a).outcome = .ok (some v)) :
    StateFound c.encoder f b.replies (some v) (c.prove.start s).2 := by
  refine hran.yields hv ?_
  obtain ⟨enc, hint, rfl, hover, -⟩ := make_ok hc
  exact yields_stateEquation hint rfl (Net.wellFormed_of_parse hnet) hover
    (Formula.nonNeg_of_parse hgoal) (.inr hran.fed_start)

theorem Ran.kEnd (hc : make .kInduction net f encoding config heedsBound = .ok c)
    (hempty : a.Bounded (· < 0)) (hw : c.encoder.Writable) :
    ∃ R : c.encoder.Reading (net.system f encoding),
      KEnd R b.replies (c.prove.start s).2 := by
  obtain ⟨R⟩ := exists_reading hnet hgoal hc (by decide) hw
  have hends := ends_kInduction R (hran.at_start hempty)
  exact ⟨R, (prove_eq hc).symm ▸ hends⟩

end Found

/-! ## True runs -/

variable (hnet : Net.parse text = .ok net) (hgoal : Formula.parse goal = .ok f)
  (hrun : c.TrueRun a b)

include hnet hgoal hrun

/-- What a true verdict of bounded model checking says. -/
theorem bmc_verdict (hc : make .bmc net f encoding config heedsBound = .ok c)
    (hP : a.Bounded P) :
    ((c.run a).outcome = .ok (some .reachable) → ∃ d, (net.system f encoding).Witness d) ∧
    ((c.run a).outcome = .ok (some .notReachable) →
      ∃ k : Nat, P k ∧ ∀ j < k, ¬ (net.system f encoding).Witness j) ∧
    (c.run a).outcome ≠ .ok (some .unknown) := by
  obtain ⟨session, s, hran, htrue⟩ := hrun.exists_ran
  refine ⟨fun hv => ?_, fun hv => ?_, fun hv => ?_⟩ <;>
    obtain ⟨R, hfound⟩ := hran.bmcFound hnet hgoal hc hP hv
  · obtain ⟨d, -, hd, -⟩ := bmc_reachable htrue hfound
    exact ⟨d, hd.1⟩
  · exact bmc_notReachable htrue hfound
  · exact hfound

/-- What a true verdict of induction says. -/
theorem induction_verdict (hc : make .induction net f encoding config heedsBound = .ok c) :
    ((c.run a).outcome = .ok (some .reachable) → (net.system f encoding).Witness 0) ∧
    ((c.run a).outcome = .ok (some .notReachable) →
      ∀ k, ¬ (net.system f encoding).Witness k) := by
  obtain ⟨session, s, hran, htrue⟩ := hrun.exists_ran
  refine ⟨fun hv => ?_, fun hv => ?_⟩ <;>
    obtain ⟨R, hfound⟩ := hran.inductionFound hnet hgoal hc hv
  · exact induction_reachable htrue hfound
  · exact induction_notReachable htrue hfound

/-- What a true verdict of the state equation says. -/
theorem stateEquation_verdict (hc : make .stateEquation net f encoding config heedsBound = .ok c) :
    (c.run a).outcome ≠ .ok (some .reachable) ∧
    ((c.run a).outcome = .ok (some .notReachable) →
      ∀ m, net.Reachable m → f.holds m = false) := by
  obtain ⟨session, s, hran, htrue⟩ := hrun.exists_ran
  refine ⟨fun hv => hran.stateFound hnet hgoal hc hv, fun hv => ?_⟩
  have hfound := hran.stateFound hnet hgoal hc hv
  obtain ⟨enc, hint, rfl, hover, -⟩ := make_ok hc
  exact stateEquation_notReachable hint (Net.wellFormed_of_parse hnet) hover
    (Formula.nonNeg_of_parse hgoal) htrue hfound

omit hnet hgoal in
theorem kInduction_verdict (hc : make .kInduction net f encoding config heedsBound = .ok c)
    (v : Verdict) : (c.run a).outcome ≠ .ok (some v) := by
  intro hv
  obtain ⟨session, s, hran, -⟩ := hrun.exists_ran
  have hyields : c.prove.Yields s fun v _ => v = none := by
    rw [prove_eq hc]
    exact yields_kInduction
  cases hran.yields hv hyields

omit hnet hgoal hrun in
/-- Where a name cannot be written, k-induction leaves the cell alone. -/
theorem kInduction_unwritable {e : Encoder} (hw : ¬ e.Writable) (s : Stage) :
    ((kInduction e).start s).2 = s := by
  unfold kInduction
  cases hd : e.declarePlaces (some 0) with
  | ok cs => exact absurd (Encoder.writable_of_declarePlaces hd) hw
  | error err => rfl

/-- What a run of k-induction leaves in a cell that was empty. -/
theorem kInduction_bound (hc : make .kInduction net f encoding config heedsBound = .ok c)
    (hempty : a.Bounded (· < 0)) {n : Int} (hn : (c.run a).arena.bound.poll = some n) :
    ∃ k : Nat, n = k ∧ ¬ (net.system f encoding).Entry k ∧
      ∀ j < k, (net.system f encoding).Entry j := by
  obtain ⟨session, s, hran, htrue⟩ := hrun.exists_ran
  by_cases hw : c.encoder.Writable
  · obtain ⟨R, hend⟩ := hran.kEnd hnet hgoal hc hempty hw
    exact kInduction_least htrue hend hran.bound hn
  · have hsame : (c.prove.start s).2 = s := (prove_eq hc).symm ▸ kInduction_unwritable hw s
    have hbound := hran.bound (· < 0) (hsame.symm ▸ hran.bounded _ hempty)
    rw [Bound.poll, if_pos hbound.1] at hn
    cases hn

end PetriReach.Checker
