import PetriReach.Proofs.Encoder.StateEquation
import PetriReach.Proofs.Solver.Steps
import PetriReach.Strategy.StateEquation

/-!
# Runs of the state equation

One test, of the whole script. If its answer is true, the script is legal, whatever the names are,
and then no marking that is reached is in the goal.

* `Strategy.yields_stateEquation`: what a verdict rests on.
* `Strategy.stateEquation_notReachable`: what it says of the net.
-/

namespace PetriReach.Strategy

open Smt Work Encoder

variable {e : Encoder} {f : Formula} {rs : List String} {s : Stage}

/-- What a verdict of the state equation rests on: one test, of the script and the goal. -/
def StateFound (e : Encoder) (f : Formula) (rs : List String) (v : Option Verdict) (s : Stage) :
    Prop :=
  match v with
  | some .reachable => False
  | some .notReachable => e.Writable ∧ e.Countable ∧ ∃ t before line,
      lowerFormula e.encoding none f = .ok t ∧ before ++ [ask] <+: s.sent ∧
      before.count ask = 0 ∧ rs[0]? = some line ∧ Text.trim line = "unsat" ∧
      String.join before = Script.render (e.stateScript ++ [t].map .assert)
  | _ => True

/-- A script that was written was taken in, unless the solver was killed. -/
theorem yields_send {script : Except EncodingError Script} {cs : Script}
    (h : s.session.killed = true ∨ Process.Fed rs 0 s.session.process cs)
    (hscript : ∀ ds, script = .ok ds → (∀ c ∈ ds, c.Written) ∧ ∀ c ∈ ds, c ≠ .checkSat) :
    (send script).Yields s fun _ s' => ∃ ds, script = .ok ds ∧
      (s'.session.killed = true ∨ Process.Fed rs 0 s'.session.process (cs ++ ds)) := by
  cases script with
  | error err => exact yields_throw _
  | ok ds =>
    obtain ⟨hwritten, hask⟩ := hscript ds rfl
    exact (yields_tell h hwritten hask).mono fun _ _ hs' => ⟨ds, rfl, hs'⟩

theorem not_checkSat_of_mem_asserts (ts : List Term) :
    ∀ c ∈ ts.map Command.assert, c ≠ .checkSat := by
  intro c hc
  obtain ⟨t, -, rfl⟩ := List.mem_map.mp hc
  simp

/-- **What a verdict of the state equation rests on.** -/
theorem yields_stateEquation (hint : e.encoding = .integer) (hgoal : e.goal = some (.formula f))
    (hn : e.net.WellFormed) (hf : f.Over e.net) (hneg : f.NonNeg)
    (h : s.session.killed = true ∨ Process.Fed rs 0 s.session.process []) :
    (stateEquation e).Yields s (StateFound e f rs) := by
  refine yields_bind ((yields_send h fun cs hcs => ?_).mono ?_)
  · have hw := writable_of_declarePlaces hcs
    rw [declarePlaces_eq hw] at hcs
    cases hcs
    exact ⟨within_declareVars (written_symbols hn hw), not_checkSat_of_mem_declareVars⟩
  rintro _ s₁ ⟨cs, hcs, h₁⟩
  have hw := writable_of_declarePlaces hcs
  refine yields_bind ((yields_send h₁ fun ds hds => ?_).mono ?_)
  · have hc := countable_of_declareTransitions hds
    rw [declareTransitions_eq hc] at hds
    cases hds
    exact ⟨within_declareVars (written_tallies hn hc), not_checkSat_of_mem_declareVars⟩
  rintro _ s₂ ⟨ds, hds, h₂⟩
  have hc := countable_of_declareTransitions hds
  refine yields_bind ((yields_send h₂ fun es hes => ?_).mono ?_)
  · rw [stateEquation_eq hint hw hc] at hes
    cases hes
    exact ⟨written_asserts hn hw hc (sort?_equations hn), not_checkSat_of_mem_asserts _⟩
  rintro _ s₃ ⟨es, hes, h₃⟩
  obtain ⟨t, ht, htsort, -⟩ := lowerFormula_int hint hw hf hneg none
  have hts : ∀ u ∈ [t], u.sort? e.stateFrame = some .bool :=
    List.forall_mem_singleton.mpr (htsort (covers_stateFrame hint))
  refine yields_bind ((yields_send h₃ fun gs hgs => ?_).mono ?_)
  · rw [assertGoal_eq hgoal ht] at hgs
    cases hgs
    exact ⟨written_asserts hn hw hc hts, not_checkSat_of_mem_asserts [t]⟩
  rintro _ s₄ ⟨gs, hgs, h₄⟩
  rw [assertGoal_eq hgoal ht] at hgs
  cases hgs
  rw [List.nil_append, stateScript_eq hint hcs hds hes hw hc] at h₄
  refine yields_bind ((yields_checkSat h₄ false).mono ?_)
  rintro w s₅ ⟨-, hfed, hsent, ⟨line, hline, htrim⟩, -, -⟩
  cases w with
  | sat => exact yields_pure trivial
  | unknown => exact yields_pure trivial
  | unsat =>
    exact yields_pure ⟨hw, hc, t, s₄.sent, line, ht, hsent, hfed.tests, hline, htrim, hfed.text⟩

/-- **No marking that is reached is in the goal.** A true answer is one about a legal text, so the
names are legal, and a marking in the goal would be a solution. -/
theorem stateEquation_notReachable (hint : e.encoding = .integer) (hn : e.net.WellFormed)
    (hf : f.Over e.net) (hneg : f.NonNeg) (htrue : Truthful rs s.sent)
    (h : StateFound e f rs (some .notReachable) s) :
    ∀ m, e.net.Reachable m → f.holds m = false := by
  obtain ⟨hw, hc, t, before, line, ht, hsent, hcount, hline, htrim, htext⟩ := h
  obtain ⟨t', ht', htsort, htval⟩ := lowerFormula_int hint hw hf hneg none
  rw [ht] at ht'
  cases ht'
  have hts : ∀ u ∈ [t], u.sort? e.stateFrame = some .bool :=
    List.forall_mem_singleton.mpr (htsort (covers_stateFrame hint))
  obtain ⟨scopes, hscopes, hunsat⟩ := (htrue before line hsent (by rwa [hcount])).2 htrim
  rw [htext] at hscopes
  obtain ⟨hapart, hdecl⟩ := names_of_ofText? hn hw hc hts hscopes
  rw [(means_stateScript hn hw hc hapart hdecl hts).text] at hscopes
  cases hscopes
  rw [satisfiable_iff_solvable hn hapart htval] at hunsat
  rintro m ⟨ts, hpath⟩
  by_contra hm
  exact hunsat ⟨m, _, Net.solves_of_path hn hpath, by simpa using hm⟩

end PetriReach.Strategy
