import PetriReach.Proofs.Checker.Verdicts

/-!
# The state equation as a relaxation

The text of the state equation has the solutions of the state equation for its models, exactly if it
is a legal text, that is, if no place is named by a word of the language. A true verdict is right
for all names.

* `Encoder.trueAt_iff_solves`: what the text says.
* `Checker.stateEquation_exact_iff`: when the text says what it should.
-/

namespace PetriReach

open Smt Work Strategy Encoder

/-- The text is legal, and true if its integer variables have the given values. -/
def Smt.TrueAt (text : String) (v : Symbol → Int) : Prop :=
  ∃ s, Scopes.ofText? text = some s ∧ s.Model fun x => .int (v x)

/-- Tokens at the beginning and no firings solve the state equation. -/
theorem Net.solves_initial {n : Net} (x : String → Int) (hx : ∀ t ∈ n.transitions, x t.id = 0) :
    n.Solves (fun p => n.initial p) x := by
  have hzero : n.Solves (fun p => n.initial p) (fun _ => 0) :=
    ⟨fun _ _ => Int.natCast_nonneg _, fun _ _ => Int.le_refl 0, fun p _ => by
      rw [n.flow_zero, Int.add_zero]⟩
  exact hzero.congr (fun _ _ => rfl) fun t ht => (hx t ht).symm

namespace Encoder

variable {e : Encoder}

/-- The text of the whole system. -/
def systemText (e : Encoder) : Except EncodingError String := do
  let places ← e.declarePlaces none
  let firings ← e.declareTransitions
  let equations ← e.stateEquation
  return places.render ++ firings.render ++ equations.render

theorem systemText_ok_iff (hint : e.encoding = .integer) {text : String} :
    e.systemText = .ok text ↔
      (e.Writable ∧ e.Countable) ∧ text = Script.render e.stateScript := by
  constructor
  · intro h
    obtain ⟨cs, hcs, h⟩ := exists_of_bind_ok h
    obtain ⟨ds, hds, h⟩ := exists_of_bind_ok h
    obtain ⟨es, hes, h⟩ := exists_of_bind_ok h
    have hw := writable_of_declarePlaces hcs
    have hc := countable_of_declareTransitions hds
    cases h
    refine ⟨⟨hw, hc⟩, ?_⟩
    rw [Script.render_append, Script.render_append, stateScript_eq hint hcs hds hes hw hc]
  · rintro ⟨⟨hw, hc⟩, rfl⟩
    have hcs := declarePlaces_eq hw none
    have hds := declareTransitions_eq hc
    have hes := stateEquation_eq hint hw hc
    rw [← stateScript_eq hint hcs hds hes hw hc, ← Script.render_append, ← Script.render_append]
    unfold systemText
    rw [hcs, hds, hes]
    rfl

/-- **The text of the state equation is exact** if and only if no place is named by a word of the
language. -/
theorem trueAt_iff_solves (hn : e.net.WellFormed) (hw : e.Writable) (hc : e.Countable)
    (hapart : e.Apart) :
    (∀ v, TrueAt (Script.render e.stateScript) v ↔
      e.net.Solves (fun p => v (place p none)) fun t => v (tally t)) ↔
    ∀ p ∈ e.net.places, Declarable p.id := by
  have hnil : e.stateScript ++ ([] : List Term).map .assert = e.stateScript := List.append_nil _
  constructor
  · intro hexact
    -- the marking at the beginning is a solution, so the text is legal
    have hsolves : e.net.Solves (fun p => e.net.initial p) fun t => e.net.initial (t ++ "@fc") := by
      refine Net.solves_initial _ fun t ht => ?_
      refine congrArg Nat.cast (Net.initial_of_not_has ?_)
      rintro ⟨p, hp, hpt⟩
      exact (List.nodup_append.mp hapart).2.2 p.id (List.mem_map_of_mem hp) (t.id ++ "@fc")
        (List.mem_map_of_mem ht) hpt
    obtain ⟨s, hs, -⟩ := (hexact fun x => e.net.initial x.name).mpr hsolves
    rw [← hnil] at hs
    exact (names_of_ofText? hn hw hc (by simp) hs).2
  · intro hdecl v
    have hmeans := means_stateScript hn hw hc hapart hdecl (List.forall_mem_nil _)
    rw [hnil, Scopes.extend_nil] at hmeans
    unfold TrueAt
    rw [hmeans.text, ← model_iff hn fun _ _ => rfl]
    simp

end Encoder

namespace Checker

variable {text goal : String} {net : Net} {f : Formula} {encoding : Encoding}
  {config : SolverConfig} {heedsBound : Bool} {c : Checker} {a : Arena} {b : Backend}

/-- A run that gives up after its one test was told the truth if the names are legal and no solution
of the state equation is in the goal. -/
theorem trueRun_of_unsolvable (hnet : Net.parse text = .ok net)
    (hgoal : Formula.parse goal = .ok f)
    (hc : make .stateEquation net f encoding config heedsBound = .ok c)
    (hb : a.backends.head?.getD (some {}) = some b) {w : Option Nat} {n : Int}
    (hdigest : (c.run a).digest = (.ok (some .notReachable), w, some 1, n))
    (hnames : (net.places.map (·.id) ++ net.transitions.map (·.id ++ "@fc")).Nodup)
    (hdecl : ∀ p ∈ net.places, Declarable p.id)
    (hnone : ∀ (m : Marking) x, net.Solves (fun p => m p) x → f.holds m = false) :
    c.TrueRun a b := by
  obtain ⟨hv, -, -, session, hs, hcount⟩ := Run.of_digest hdigest
  obtain ⟨s, hran⟩ := exists_ran hb hs
  obtain ⟨hw, hcountable, t, before, line, ht, hsent, hzero, hline, htrim, htext⟩ :=
    hran.stateFound hnet hgoal hc hv
  refine ⟨hb, session, hs, ?_⟩
  rw [← hran.sent] at hcount ⊢
  obtain ⟨enc, hint, rfl, hover, -⟩ := make_ok hc
  have hn := Net.wellFormed_of_parse hnet
  obtain ⟨t', ht', htsort, htval⟩ := lowerFormula_int hint hw hover
    (Formula.nonNeg_of_parse hgoal) none
  rw [ht] at ht'
  cases ht'
  have hmeans := means_stateScript hn hw hcountable hnames hdecl
    (List.forall_mem_singleton.mpr (htsort (covers_stateFrame hint)))
  intro before' line' hsent' hline'
  -- there is only one test
  have hzero' : before'.count ask = 0 := by
    have hle := hsent'.sublist.count_le ask
    rw [List.count_append, List.count_singleton_self] at hle
    omega
  obtain rfl := eq_of_count_eq hsent hsent' (hzero.trans hzero'.symm)
  rw [hzero, hline] at hline'
  cases hline'
  rw [htext]
  refine ⟨fun hsat => absurd (htrim.symm.trans hsat) (by decide), fun _ => ⟨_, hmeans.text, ?_⟩⟩
  have hapart : (⟨net, some (.formula f), enc⟩ : Encoder).Apart := hnames
  rw [satisfiable_iff_solvable hn hapart htval]
  rintro ⟨m, x, hsolves, hm⟩
  rw [hnone m x hsolves] at hm
  cases hm

theorem counter_digest_unsolvable :
    ((counterChecker .stateEquation 2 false).run (answering ["unsat"])).digest =
      (.ok (some .notReachable), none, some 1, -1) := by
  decide +kernel

/-- A count from 2 does not reach 1, and the state equation shows it. -/
theorem counter_unsolvable (m : Marking) (x : String → Int)
    (h : (counter 2).Solves (fun p => m p) x) : countOne.holds m = false := by
  have hfired : 0 ≤ x "t" := h.firings _ List.mem_cons_self
  have hbalance : (m "q" : Int) = 2 + x "t" := by
    refine (h.balance _ List.mem_cons_self).trans ?_
    simp [counter, Net.flow, Net.initial, Arcs.weight]
  rw [← Bool.not_eq_true, countOne_holds]
  omega

/-- **The state equation is sound, and its text exact** if the names can be written and no place is
named by a word of the language. -/
theorem stateEquation_exact_iff (hnet : Net.parse text = .ok net)
    (hgoal : Formula.parse goal = .ok f)
    (hc : make .stateEquation net f encoding config heedsBound = .ok c)
    (hnames : (net.places.map (·.id) ++ net.transitions.map (·.id ++ "@fc")).Nodup) :
    ((∃ system, c.encoder.systemText = .ok system ∧
        ∀ v, TrueAt system v ↔ net.Solves (fun p => v ⟨p⟩) fun t => v ⟨t ++ "@fc"⟩) ↔
      (∀ p ∈ net.places, isQuotable p.id = true ∧ Declarable p.id) ∧
        ∀ t ∈ net.transitions, isQuotable t.id = true) ∧
    (∀ ts m, net.Path net.initial ts m →
      net.Solves (fun p => m p) fun t => (ts.map (·.id)).count t) ∧
    ∀ a b, c.TrueRun a b → (c.run a).outcome = .ok (some .notReachable) →
      ∀ m, net.Reachable m → f.holds m = false := by
  refine ⟨?_, fun ts m => Net.solves_of_path (Net.wellFormed_of_parse hnet),
    fun a b hrun => (stateEquation_verdict hnet hgoal hrun hc).2⟩
  obtain ⟨enc, hint, rfl, -, -⟩ := make_ok hc
  have hn := Net.wellFormed_of_parse hnet
  constructor
  · rintro ⟨system, hsystem, hexact⟩
    obtain ⟨⟨hw, hcount⟩, rfl⟩ := (systemText_ok_iff hint).mp hsystem
    have hdecl := (trueAt_iff_solves hn hw hcount hnames).mp hexact
    exact ⟨fun p hp => ⟨hw p hp, hdecl p hp⟩, hcount⟩
  · rintro ⟨hplaces, hcount⟩
    have hw : (⟨net, some (.formula f), enc⟩ : Encoder).Writable := fun p hp => (hplaces p hp).1
    exact ⟨_, (systemText_ok_iff hint).mpr ⟨⟨hw, hcount⟩, rfl⟩,
      (trueAt_iff_solves hn hw hcount hnames).mpr fun p hp => (hplaces p hp).2⟩

/-- A net with a place named by a word of the language. -/
def letNet : Net :=
  .ofPlaces [⟨"let", 1⟩]

theorem letNet_parse : Net.parse "pl let (1)\n" = .ok letNet := by
  decide +kernel

/-- The text for a count from 2 is exact, and a solver that knows it to be unsatisfiable shows that
the count is never 1. With a place named `let`, the text is not exact. -/
theorem counter_exact_and_let_inexact :
    ((∃ system, (counterChecker .stateEquation 2 false).encoder.systemText = .ok system ∧
        ∀ v, TrueAt system v ↔
          (counter 2).Solves (fun p => v ⟨p⟩) fun t => v ⟨t ++ "@fc"⟩) ∧
      ∀ m, (counter 2).Reachable m → countOne.holds m = false) ∧
    ¬ ∃ system, (⟨letNet, some (.formula .tt), .integer⟩ : Encoder).systemText = .ok system ∧
      ∀ v, TrueAt system v ↔ letNet.Solves (fun p => v ⟨p⟩) fun t => v ⟨t ++ "@fc"⟩ := by
  refine ⟨?_, fun hexact => ?_⟩
  · obtain ⟨hexact, -, hsound⟩ := stateEquation_exact_iff counter_parse_two countOne_parse
      (make_counterChecker : make .stateEquation _ _ _ _ false = _) (by decide)
    refine ⟨hexact.mpr (by decide), hsound (answering ["unsat"]) { answers := ["unsat"] } ?_ ?_⟩
    · exact trueRun_of_unsolvable counter_parse_two countOne_parse make_counterChecker rfl
        counter_digest_unsolvable (by decide) (by decide) counter_unsolvable
    · exact (Run.of_digest counter_digest_unsolvable).1
  · have hplaces := ((stateEquation_exact_iff (letNet_parse : Net.parse "pl let (1)\n" = _)
      (rfl : Formula.parse "T" = _) (rfl : make .stateEquation _ _ .integer {} false = _)
      (by decide)).1.mp hexact).1
    exact absurd (hplaces ⟨"let", 1⟩ List.mem_cons_self).2 (by decide)

end Checker

end PetriReach
