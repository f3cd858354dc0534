import PetriReach.Proofs.Encoder.Goals
import PetriReach.Proofs.Encoder.Unrolling
import PetriReach.Proofs.Net.Tokens

/-!
# Steps in tokens

In the integer encoding the variables of a step show a marking, and the terms of the encoder say of
two markings that a transition leads from one to the other.

* `Encoder.firingInt_decides`: the term of a firing says that the transition is enabled and what it
  leaves in every place.
* `Encoder.exists_reading_tokens`: the integer encoder writes the markings of its net.
-/

namespace PetriReach.Encoder

open Smt

variable {e : Encoder} {f : Formula}

/-- The variables of a step, or those without one, show a marking. -/
def ShowsTokens (e : Encoder) (a : Assignment) (k : Option Int) (m : Marking) : Prop :=
  ∀ p ∈ e.net.places, a (place p.id k) = .int (m p.id)

/-- What a firing takes from a place. -/
def takes (k : Int) (arc : String × Nat) : Term :=
  .binary .ge (.sym (place arc.1 (some k))) (.num arc.2)

/-- What a firing leaves in a place. -/
def leaves (t : Transition) (k k' : Int) (p : Place) : Term :=
  changeBy (.sym (place p.id (some k))) (.sym (place p.id (some k'))) (t.delta p.id)

/-- The term of a firing, in tokens. -/
def firingTokens (net : Net) (t : Transition) (k k' : Int) : Term :=
  Fold.and.term (t.pre.map (takes k) ++ net.places.map (leaves t k k'))

/-! ## Arcs -/

/-- The places of arcs are places of the net. -/
theorem has_of_mem_pre (hn : e.net.WellFormed) {t : Transition} (ht : t ∈ e.net.transitions)
    {arc : String × Nat} (harc : arc ∈ t.pre) : e.net.Has arc.1 :=
  (hn.arcs t ht).1.known arc harc

theorem Writable.quotable (h : e.Writable) {p : String} (hp : e.net.Has p) :
    isQuotable p = true := by
  obtain ⟨q, hq, rfl⟩ := hp
  exact h q hq

theorem Covers.sort?_sym {ds : List (Symbol × VarSort)} {k : Option Int} (h : e.Covers ds k)
    {p : String} (hp : e.net.Has p) : (Term.sym (place p k)).sort? ds = some e.placeSort := by
  obtain ⟨q, hq, rfl⟩ := hp
  exact h q hq

theorem ShowsTokens.value_sym {a : Assignment} {k : Option Int} {m : Marking}
    (h : e.ShowsTokens a k m) {p : String} (hp : e.net.Has p) :
    (Term.sym (place p k)).value a = some (.int (m p)) := by
  obtain ⟨q, hq, rfl⟩ := hp
  exact Term.value_sym (h q hq)

/-- A transition is enabled on the places if and only if every input arc finds its tokens. -/
theorem enabled_iff (hn : e.net.WellFormed) {t : Transition} (ht : t ∈ e.net.transitions)
    {m : Marking} : (∀ arc ∈ t.pre, arc.2 ≤ m arc.1) ↔
      ∀ p ∈ e.net.places, t.pre.weight p.id ≤ m p.id := by
  have hsound := (hn.arcs t ht).1
  constructor
  · intro h p _
    unfold Arcs.weight
    cases hw : t.pre.lookup p.id with
    | none => exact Nat.zero_le _
    | some w => exact h (p.id, w) (NameMap.mem_of_lookup hw)
  · intro h arc harc
    obtain ⟨p, hp, hpa⟩ := hsound.known arc harc
    have hle := h p hp
    rwa [hpa, Arcs.weight, hsound.sorted.lookup_eq harc] at hle

/-! ## Firing -/

theorem firingInt_eq (hw : e.Writable) (hn : e.net.WellFormed) {t : Transition}
    (ht : t ∈ e.net.transitions) (k k' : Int) :
    firingInt e.net t k k' = .ok (firingTokens e.net t k k') := by
  have henabled : (t.pre.mapM fun a => do return .binary .ge (← var a.1 (some k)) (.num a.2) :
      Except EncodingError (List Term)) = .ok (t.pre.map (takes k)) := by
    refine mapM_eq_pure fun arc harc => ?_
    rw [var_eq (hw.quotable (has_of_mem_pre hn ht harc))]
    rfl
  have heffect : (e.net.places.mapM fun p => do
      return changeBy (← var p.id (some k)) (← var p.id (some k')) (t.delta p.id) :
      Except EncodingError (List Term)) = .ok (e.net.places.map (leaves t k k')) := by
    refine mapM_eq_pure fun p hp => ?_
    rw [var_eq (hw p hp), var_eq (hw p hp)]
    rfl
  rw [firingInt, henabled, heffect]
  rfl

theorem sort?_changeBy {ds : List (Symbol × VarSort)} {x y : Term} (hx : x.sort? ds = some .int)
    (hy : y.sort? ds = some .int) (d : Int) : (changeBy x y d).sort? ds = some .bool := by
  unfold changeBy
  split
  · exact Term.sort?_binary hy (Term.sort?_binary hx (Term.sort?_num (by omega)) .add) .eq
  · split
    · exact Term.sort?_binary hy (Term.sort?_binary hx (Term.sort?_num (by omega)) .sub) .eq
    · exact Term.sort?_binary hy hx .eq

theorem changeBy_decides {a : Assignment} {x y : Term} {m n : Int}
    (hx : x.value a = some (.int m)) (hy : y.value a = some (.int n)) (d : Int) :
    (changeBy x y d).Decides a (n = m + d) := by
  have hnum : ∀ c : Int, (Term.num c).value a = some (.int c) := fun _ => rfl
  have heq : ∀ {u : Term} {c : Int}, u.value a = some (.int c) → c = m + d →
      (Term.binary .eq y u).Decides a (n = m + d) := by
    rintro u c hu rfl
    exact (Term.decides_eq hy hu rfl).congr (by simp)
  unfold changeBy
  split
  · exact heq ((Term.value_binary hx (hnum d) .add).trans (by simp [Op.value, Value.ints?])) rfl
  · split
    · exact heq (Term.value_binary hx (hnum (-d)) .sub) (by omega)
    · exact heq hx (by omega)

theorem sort?_firingTokens (hn : e.net.WellFormed) {t : Transition} (ht : t ∈ e.net.transitions)
    {ds : List (Symbol × VarSort)} {k k' : Int} (hint : e.placeSort = .int)
    (hk : e.Covers ds (some k)) (hk' : e.Covers ds (some k')) :
    (firingTokens e.net t k k').sort? ds = some .bool := by
  refine Fold.sort?_term .and fun u hu => ?_
  rcases List.mem_append.mp hu with hu | hu
  · obtain ⟨arc, harc, rfl⟩ := List.mem_map.mp hu
    have hsym := hk.sort?_sym (has_of_mem_pre hn ht harc)
    rw [hint] at hsym
    exact Term.sort?_binary hsym (Term.sort?_num (Int.natCast_nonneg arc.2)) .ge
  · obtain ⟨p, hp, rfl⟩ := List.mem_map.mp hu
    have hbefore := hk.sort?_sym ⟨p, hp, rfl⟩
    have hafter := hk'.sort?_sym ⟨p, hp, rfl⟩
    rw [hint] at hbefore hafter
    exact sort?_changeBy hbefore hafter _

/-- **The term of a firing** says that the transition is enabled and what it leaves in every
place. -/
theorem firingInt_decides (hn : e.net.WellFormed) {t : Transition} (ht : t ∈ e.net.transitions)
    {a : Assignment} {k k' : Int} {m m' : Marking} (hm : e.ShowsTokens a (some k) m)
    (hm' : e.ShowsTokens a (some k') m') :
    (firingTokens e.net t k k').Decides a
      ((∀ p ∈ e.net.places, t.pre.weight p.id ≤ m p.id) ∧
        ∀ p ∈ e.net.places, m' p.id = t.fire m p.id) := by
  have htakes : ∀ arc ∈ t.pre, (takes k arc).Decides a (arc.2 ≤ m arc.1) := by
    intro arc harc
    exact (Term.decides_ge (hm.value_sym (has_of_mem_pre hn ht harc)) rfl).congr (by omega)
  have hleaves : ∀ p ∈ e.net.places,
      (leaves t k k' p).Decides a ((m' p.id : Int) = m p.id + t.delta p.id) :=
    fun p hp => changeBy_decides (hm.value_sym ⟨p, hp, rfl⟩) (hm'.value_sym ⟨p, hp, rfl⟩) _
  refine (Term.decides_and_append htakes hleaves).congr ?_
  rw [← enabled_iff hn ht]
  -- once the tokens are there, subtraction of naturals is that of integers
  refine and_congr_right fun hen => forall₂_congr fun p hp => ?_
  have hle := (enabled_iff hn ht).mp hen p hp
  unfold Transition.fire Transition.delta
  omega

/-! ## The reading -/

/-- The term of a formula, in tokens. -/
theorem lowerFormula_int (hint : e.encoding = .integer) (hw : e.Writable) (hf : f.Over e.net)
    (hneg : f.NonNeg) (k : Option Int) :
    ∃ t, lowerFormula e.encoding k f = .ok t ∧
      (∀ {ds}, e.Covers ds k → t.sort? ds = some .bool) ∧
      ∀ {a m}, e.ShowsTokens a k m → t.value a = some (.bool (f.holds m)) := by
  have hsort : e.placeSort = .int := by rw [placeSort, hint]
  obtain ⟨t, ht, htsort, htval⟩ := lowerFormula_tokens (fun p hp => hw.quotable (hf p hp)) hneg k
  refine ⟨t, by rw [hint]; exact ht, fun hds => htsort fun p hp => ?_,
    fun hm => htval fun p hp => ?_⟩
  · exact (hds.sort?_sym (hf p hp)).trans (by rw [hsort])
  · exact Option.some.inj (hm.value_sym (hf p hp))

theorem goalTerm_eq (hgoal : e.goal = some (.formula f)) {k : Option Int} {t : Term}
    (h : lowerFormula e.encoding k f = .ok t) (negate : Bool) :
    e.goalTerm k negate = .ok (if negate then t.not else t) := by
  rw [goalTerm, hgoal]
  simp [h, bind, Except.bind, pure, Except.pure]

theorem assertGoal_eq (hgoal : e.goal = some (.formula f)) {k : Option Int} {t : Term}
    (h : lowerFormula e.encoding k f = .ok t) : e.assertGoal k = .ok [.assert t] := by
  rw [assertGoal, goalTerm_eq hgoal h]
  rfl

theorem refuteGoal_eq (hgoal : e.goal = some (.formula f)) {k : Option Int} {t : Term}
    (h : lowerFormula e.encoding k f = .ok t) : e.refuteGoal k = .ok [.assert t.not] := by
  rw [refuteGoal, goalTerm_eq hgoal h]
  rfl

/-- The tokens that a value stands for. -/
def tokensOf : Value → Nat
  | .int n => n.toNat
  | .bool _ => 0

/-- Declared integers are the tokens of a marking. -/
theorem exists_tokens (hsort : e.placeSort = .int) {a : Assignment} {k : Nat}
    (h : e.Framed a (some (k : Int))) : ∃ m, e.ShowsTokens a (some (k : Int)) m := by
  refine ⟨fun q => tokensOf (a (place q (some (k : Int)))), fun p hp => ?_⟩
  have hx : place p.id (some (k : Int)) ∈ e.symbols (some (k : Int)) := List.mem_map_of_mem hp
  have hbound : (Term.binary .ge (.sym (place p.id (some (k : Int)))) (.num 0)).Holds a := by
    refine h.2 _ (List.mem_flatMap.mpr ⟨_, hx, ?_⟩)
    rw [hsort]
    exact List.mem_singleton.mpr rfl
  have hval := h.1 _ hx
  cases hv : a (place p.id (some (k : Int))) with
  | bool b =>
    rw [hv, hsort] at hval
    exact absurd hval (by simp [Value.sort])
  | int n =>
    have hn : 0 ≤ n := (Term.decides_ge (Term.value_sym hv) rfl).holds_iff.mp hbound
    simp only [hv, tokensOf]
    rw [Int.toNat_of_nonneg hn]

/-- The tokens of a marking are values as they were declared. -/
theorem ShowsTokens.framed (hsort : e.placeSort = .int) {a : Assignment} {k : Nat} {m : Marking}
    (h : e.ShowsTokens a (some (k : Int)) m) : e.Framed a (some (k : Int)) := by
  refine ⟨fun x hx => ?_, fun t ht => ?_⟩
  · obtain ⟨p, hp, rfl⟩ := List.mem_map.mp hx
    rw [h p hp, hsort]
    rfl
  · obtain ⟨x, hx, ht⟩ := List.mem_flatMap.mp ht
    obtain ⟨p, hp, rfl⟩ := List.mem_map.mp hx
    rw [hsort] at ht
    obtain rfl := List.mem_singleton.mp ht
    exact (Term.decides_ge (Term.value_sym (h p hp)) rfl).holds_iff.mpr (Int.natCast_nonneg _)

/-- Every sequence of markings is shown by an assignment. -/
theorem exists_assignment_tokens (hsort : e.placeSort = .int) (xs : Nat → Marking) :
    ∃ a, ∀ k : Nat, e.Framed a (some (k : Int)) ∧ e.ShowsTokens a (some (k : Int)) (xs k) := by
  refine ⟨assignment fun p k => .int (xs k p), fun k => ?_⟩
  have hshows : e.ShowsTokens (assignment fun p k => .int (xs k p)) (some (k : Int)) (xs k) :=
    fun p _ => assignment_place _ p.id k
  exact ⟨hshows.framed hsort, hshows⟩

theorem init_iff_tokens (hint : e.encoding = .integer) (hn : e.net.WellFormed) {a : Assignment}
    {m : Marking} (hm : e.ShowsTokens a (some 0) m) :
    (∀ t ∈ e.initTerms (some 0), t.Holds a) ↔ (e.net.tokens f).init m := by
  rw [initTerms, List.forall_mem_map, hint]
  refine forall₂_congr fun p hp => ?_
  have hdec := Term.decides_eq (hm.value_sym ⟨p, hp, rfl⟩)
    (show (Term.num p.tokens).value a = some (.int p.tokens) from rfl) rfl
  refine hdec.holds_iff.trans ?_
  rw [Value.int.injEq, ← hn.initial_eq hp, Int.ofNat_inj]

/-- **The integer encoder writes the markings of its net.** -/
theorem exists_reading_tokens (hint : e.encoding = .integer) (hgoal : e.goal = some (.formula f))
    (hn : e.net.WellFormed) (hw : e.Writable) (hf : f.Over e.net) (hneg : f.NonNeg) :
    ∃ R : e.Reading (e.net.tokens f),
      R.Shows = fun a (k : Nat) => e.ShowsTokens a (some (k : Int)) := by
  have hsort : e.placeSort = .int := by rw [placeSort, hint]
  have hfiring : ∀ (k k' : Int), ∀ t ∈ e.net.transitions,
      e.firing t k k' = .ok (firingTokens e.net t k k') := by
    intro k k' t ht
    rw [firing, hint]
    exact firingInt_eq hw hn ht k k'
  choose goalAt hlower hgsort hgval using fun k : Nat => lowerFormula_int hint hw hf hneg (some k)
  refine ⟨{
    initTerms := e.initTerms (some 0)
    stepTerm := fun k => Fold.or.term
      (e.net.transitions.map fun t => firingTokens e.net t k (k + 1))
    goalAt
    Shows := fun a k => e.ShowsTokens a (some (k : Int))
    writable := hw
    wellFormed := hn
    initial_eq := initialMarking_eq hw _
    step_eq := fun k => transitionRelation_eq (hfiring k (k + 1))
    goal_eq := fun k => assertGoal_eq hgoal (hlower k)
    refute_eq := fun k => refuteGoal_eq hgoal (hlower k)
    init_sort := by
      intro ds hds t ht
      obtain ⟨p, hp, rfl⟩ := List.mem_map.mp ht
      have hsym := hds.sort?_sym ⟨p, hp, rfl⟩
      rw [hsort] at hsym
      rw [hint]
      exact Term.sort?_binary hsym (Term.sort?_num (hn.tokens_nonneg p hp)) .eq
    step_sort := by
      intro ds k hk hk'
      refine Fold.sort?_term .or fun u hu => ?_
      obtain ⟨t, ht, rfl⟩ := List.mem_map.mp hu
      exact sort?_firingTokens hn ht hsort hk hk'
    goal_sort := fun {ds k} hds => hgsort k hds
    exists_state := exists_tokens hsort
    exists_assignment := exists_assignment_tokens hsort
    init_iff := init_iff_tokens hint hn
    step_decides := by
      intro a k m m' hm hm'
      exact Term.decides_or_map fun t ht => firingInt_decides hn ht hm hm'
    goal_decides := fun {a k m} hm => Term.decides_of_value (hgval k hm) }, rfl⟩

end PetriReach.Encoder
