import PetriReach.Proofs.Encoder.Solutions
import PetriReach.Proofs.Encoder.StateEquation
import PetriReach.Proofs.Formula.Roundtrip

/-!
# Names

What an encoder that was made can write. It was made without a look at the names; they decide
whether it can write what is asked of it, and whether the variables of the state equation are new.

* `Encoder.make_ok`: what an encoder was made from.
* `Encoder.total_iff`: an encoder can write everything if and only if all names can be written.
* `Encoder.unknowns_fresh_iff`: when the variables of the state equation are new and apart.
-/

namespace PetriReach

open Smt

/-! ## Words of terms -/

namespace Smt

/-- The words that terms are made of: the truth values and the operators. -/
def vocabulary : List String :=
  "true" :: "false" :: [Op.not, .and, .or, .eq, .distinct, .le, .lt, .ge, .gt, .add, .sub, .mul].map
    Op.text

theorem vocabulary_subset_predefined : ∀ w ∈ vocabulary, w ∈ predefined := by
  decide

end Smt

namespace Encoder

variable {e : Encoder} {f : Formula} {net : Net} {encoding : Encoding}

/-! ## Making an encoder -/

theorem over_of_checkPlaces (h : checkPlaces net (some (.formula f)) = .ok ()) : f.Over net := by
  intro p hp
  have hnone := firstError_ok h p (Formula.mem_places.mpr hp)
  rw [← Net.hasPlace_iff]
  by_contra hhas
  simp [hhas] at hnone

/-- **What an encoder was made from.** Only in marks do net and goal have to fit the encoding. -/
theorem make_ok {goal : Option Expr} (h : make net goal encoding = .ok e) :
    e = ⟨net, goal, encoding⟩ ∧ checkPlaces net goal = .ok () ∧
      (encoding = .boolean → checkNet net = .ok () ∧ checkGoal goal = .ok ()) := by
  obtain ⟨⟨⟩, hplaces, h⟩ := exists_of_bind_ok h
  cases encoding with
  | integer =>
    cases h
    exact ⟨rfl, hplaces, fun hb => by cases hb⟩
  | boolean =>
    obtain ⟨⟨⟩, hnet, h⟩ := exists_of_bind_ok h
    obtain ⟨⟨⟩, hgoal, h⟩ := exists_of_bind_ok h
    cases h
    exact ⟨rfl, hplaces, fun _ => ⟨hnet, hgoal⟩⟩

/-! ## What can be written -/

/-- What can be asked of the encoder about steps can be written. -/
structure Unrollable (e : Encoder) : Prop where
  places : ∀ k, ∃ cs, e.declarePlaces k = .ok cs
  marking : ∀ k, ∃ cs, e.initialMarking k = .ok cs
  relation : ∀ k k', ∃ cs, e.transitionRelation k k' = .ok cs
  goal : ∀ k negate, ∃ t, e.goalTerm k negate = .ok t

/-- All that can be asked of the encoder can be written. -/
structure Total (e : Encoder) : Prop extends e.Unrollable where
  counts : e.encoding = .integer → ∃ cs, e.declareTransitions = .ok cs
  equation : e.encoding = .integer → ∃ cs, e.stateEquation = .ok cs

theorem exists_lowerSum {c : Encoding} {k : Option Int} {s : TokenSum}
    (hq : ∀ p ∈ s.mentions, isQuotable p = true) : ∃ t, lowerSum c k s = .ok t := by
  cases c with
  | integer =>
    rw [lowerSum, lowerSumInt, mapM_lowerMultiple hq]
    exact ⟨_, rfl⟩
  | boolean =>
    obtain ⟨t, ht, -⟩ := lowerSumBool_says (k := k) hq
    exact ⟨t, ht⟩

/-- A formula whose names can be written can be written. -/
theorem exists_lowerFormula (hw : e.Writable) (hf : f.Over e.net) (c : Encoding)
    (k : Option Int) : ∃ t, lowerFormula c k f = .ok t := by
  -- no more is asked of the term than that it exists
  have hsum : ∀ {s : TokenSum}, (∀ p ∈ s.mentions, e.net.Has p) →
      SaysSum c k (fun _ => False) (fun _ _ => False) .int s := by
    intro s hs
    obtain ⟨t, ht⟩ := exists_lowerSum (c := c) (k := k) fun p hp => hw.quotable (hs p hp)
    exact ⟨t, ht, False.elim, False.elim⟩
  obtain ⟨t, ht, -⟩ := lowerFormula_says ((Formula.atoms_mentions hf).mono
    (Q := SaysAtom c k (fun _ => False) (fun _ _ => False) .int)
    fun l op r h => ⟨hsum h.1, hsum h.2, .inl rfl⟩)
  exact ⟨t, ht⟩

theorem exists_firing (hw : e.Writable) (hn : e.net.WellFormed) (k k' : Int) :
    ∃ g : Transition → Term, ∀ t ∈ e.net.transitions, e.firing t k k' = .ok (g t) := by
  cases henc : e.encoding with
  | integer =>
    refine ⟨fun t => firingTokens e.net t k k', fun t ht => ?_⟩
    rw [firing, henc]
    exact firingInt_eq hw hn ht k k'
  | boolean =>
    refine ⟨fun t => firingMarks e.net t k k', fun t ht => ?_⟩
    rw [firing, henc]
    exact firingBool_eq hw hn ht k k'

theorem unrollable_of_writable (hw : e.Writable) (hn : e.net.WellFormed)
    (hgoal : e.goal = some (.formula f)) (hf : f.Over e.net) : e.Unrollable where
  places k := ⟨_, declarePlaces_eq hw k⟩
  marking k := ⟨_, initialMarking_eq hw k⟩
  relation k k' := by
    obtain ⟨g, hg⟩ := exists_firing hw hn k k'
    exact ⟨_, transitionRelation_eq hg⟩
  goal k negate := by
    obtain ⟨t, ht⟩ := exists_lowerFormula hw hf e.encoding k
    rw [goalTerm, hgoal]
    dsimp only
    rw [ht]
    exact ⟨_, rfl⟩

theorem Unrollable.writable (h : e.Unrollable) : e.Writable := by
  obtain ⟨cs, hcs⟩ := h.places none
  exact writable_of_declarePlaces hcs

/-- **An encoder can write all that it can be asked if and only if all names can be written**: those
of the places, and in tokens those of the transitions as well. -/
theorem total_iff (hn : e.net.WellFormed) (hgoal : e.goal = some (.formula f))
    (hf : f.Over e.net) :
    e.Total ↔ e.Writable ∧ (e.encoding = .integer → e.Countable) := by
  constructor
  · intro h
    refine ⟨h.writable, fun hint => ?_⟩
    obtain ⟨ds, hds⟩ := h.counts hint
    exact countable_of_declareTransitions hds
  · rintro ⟨hw, hc⟩
    exact ⟨unrollable_of_writable hw hn hgoal hf, fun hint => ⟨_, declareTransitions_eq (hc hint)⟩,
      fun hint => ⟨_, stateEquation_eq hint hw (hc hint)⟩⟩

/-! ## Variables of the state equation -/

/-- The declarations of the variables, first those of places. -/
theorem declarations_eq (hint : e.encoding = .integer) {ps ts : Script}
    (hps : e.declarePlaces none = .ok ps) (hts : e.declareTransitions = .ok ts) :
    ps = (e.symbols none).flatMap (declareVar · .int) ∧
      ts = e.tallies.flatMap (declareVar · .int) := by
  rw [declarePlaces_eq (writable_of_declarePlaces hps), placeSort, hint] at hps
  rw [declareTransitions_eq (countable_of_declareTransitions hts)] at hts
  cases hps
  cases hts
  exact ⟨rfl, rfl⟩

theorem nodup_tallies (h : (e.net.transitions.map (·.id)).Nodup) : e.tallies.Nodup := by
  have hmap : e.tallies = (e.net.transitions.map (·.id)).map tally := by
    rw [tallies, List.map_map]
    rfl
  rw [hmap]
  exact h.map fun _ _ => tally_inj

/-- The only names that can clash are those of a place and of a number of firings. -/
theorem nodup_unknowns_iff (hn : e.net.WellFormed) : e.unknowns.Nodup ↔
    ∀ p ∈ e.net.places, ∀ t ∈ e.net.transitions, p.id ≠ t.id ++ "@fc" := by
  rw [unknowns, List.nodup_append]
  constructor
  · rintro ⟨-, -, hdisjoint⟩ p hp t ht hname
    exact hdisjoint _ (List.mem_map_of_mem hp) _ (List.mem_map_of_mem ht) (congrArg Symbol.mk hname)
  · intro h
    refine ⟨nodup_symbols hn.places_nodup none, nodup_tallies hn.transitions_nodup, ?_⟩
    rintro x hx y hy rfl
    obtain ⟨p, hp, rfl⟩ := List.mem_map.mp hx
    obtain ⟨t, ht, heq⟩ := List.mem_map.mp hy
    exact h p hp t ht (congrArg Symbol.name heq.symm)

theorem tally_not_mem_vocabulary : ∀ x ∈ e.tallies, x.name ∉ vocabulary := by
  intro x hx hword
  obtain ⟨t, -, rfl⟩ := List.mem_map.mp hx
  exact (Symbol.declarable_firingCount t.id).1 (vocabulary_subset_predefined _ hword)

/-- **When the variables of the state equation are new.** There is one for each place and one for
each transition, all integers. The names of places are apart, as are those of numbers of firings,
which are no words of terms. But a place may have the name of a number of firings, or be named by a
word, and that is all that can go wrong. -/
theorem unknowns_fresh_iff {text : String} {goal : Option Expr} (hnet : Net.parse text = .ok net)
    (he : make net goal .integer = .ok e) {ps ts : Script} (hps : e.declarePlaces none = .ok ps)
    (hts : e.declareTransitions = .ok ts) :
    (Script.declares (ps ++ ts)).map Symbol.name =
      net.places.map (·.id) ++ net.transitions.map (·.id ++ "@fc") ∧
    (∀ x τ, .declare x τ ∈ ps ++ ts → τ = .int) ∧
    (Script.declares ps).Nodup ∧ (Script.declares ts).Nodup ∧
    (∀ x ∈ Script.declares ts, x.name ∉ vocabulary) ∧
    ((Script.declares (ps ++ ts)).Nodup ∧
        (∀ x ∈ Script.declares (ps ++ ts), x.name ∉ vocabulary) ↔
      (∀ p ∈ net.places, ∀ t ∈ net.transitions, p.id ≠ t.id ++ "@fc") ∧
        ∀ p ∈ net.places, p.id ∉ vocabulary) := by
  have hn := Net.wellFormed_of_parse hnet
  obtain ⟨rfl, -, -⟩ := make_ok he
  obtain ⟨rfl, rfl⟩ := declarations_eq rfl hps hts
  rw [← List.flatMap_append, declares_declareVars, declares_declareVars, declares_declareVars]
  refine ⟨?_, fun x τ hx => (mem_declareVars hx).2, nodup_symbols hn.places_nodup none,
    nodup_tallies hn.transitions_nodup, tally_not_mem_vocabulary,
    and_congr (nodup_unknowns_iff hn) ?_⟩
  · simp only [symbols, tallies, List.map_append, List.map_map]
    rfl
  · rw [List.forall_mem_append, and_iff_left tally_not_mem_vocabulary, symbols,
      List.forall_mem_map]
    rfl

/-- The variables of all places and transitions can be declared, are apart, and are no words of
terms. -/
def Fresh (e : Encoder) : Prop :=
  ∃ ps ts, e.declarePlaces none = .ok ps ∧ e.declareTransitions = .ok ts ∧
    (Script.declares (ps ++ ts)).Nodup ∧ ∀ x ∈ Script.declares (ps ++ ts), x.name ∉ vocabulary

/-- A transition fills a place that has the name of the number of its firings. -/
def selfCounting : Net where
  places := [⟨"t@fc", 1⟩]
  transitions := [⟨"t", [], [("t@fc", 1)], ["t@fc"]⟩]

/-- A place is named by a truth value. -/
def truthful : Net :=
  .ofPlaces [⟨"true", 1⟩]

/-- The variables of a net with a place `p` and a transition `t` are new. They are not if the place
is named `t@fc` or `true`. -/
theorem fresh_and_clashing : Fresh ⟨handOver, none, .integer⟩ ∧
    ¬ Fresh ⟨selfCounting, none, .integer⟩ ∧ ¬ Fresh ⟨truthful, none, .integer⟩ := by
  have hself : Net.parse "pl t@fc (1)\ntr t -> t@fc\n" = .ok selfCounting := by decide +kernel
  have htrue : Net.parse "pl true (1)\n" = .ok truthful := by decide +kernel
  have hmake : ∀ net, make net none .integer = .ok ⟨net, none, .integer⟩ := fun _ => rfl
  refine ⟨?_, ?_, ?_⟩
  · have hplaces : ∀ p ∈ handOver.places, isQuotable p.id = true := by decide
    have hcounts : ∀ t ∈ handOver.transitions, isQuotable t.id = true := by decide
    have hps := declarePlaces_eq (e := ⟨handOver, none, .integer⟩) hplaces none
    have hts := declareTransitions_eq (e := ⟨handOver, none, .integer⟩) hcounts
    have hfresh := unknowns_fresh_iff handOver_parse (hmake _) hps hts
    exact ⟨_, _, hps, hts, hfresh.2.2.2.2.2.mpr (by decide)⟩
  · rintro ⟨ps, ts, hps, hts, hfresh⟩
    have hnames := (unknowns_fresh_iff hself (hmake _) hps hts).2.2.2.2.2.mp hfresh
    exact hnames.1 _ List.mem_cons_self _ List.mem_cons_self rfl
  · rintro ⟨ps, ts, hps, hts, hfresh⟩
    have hnames := (unknowns_fresh_iff htrue (hmake _) hps hts).2.2.2.2.2.mp hfresh
    exact hnames.2 _ List.mem_cons_self (by decide)

end Encoder

end PetriReach
