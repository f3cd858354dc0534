import PetriReach.Proofs.Encoder.Names
import PetriReach.Proofs.Net.Printed

/-!
# The transition relation

In the integer encoding, what is written for two steps says of two markings that one firing leads
from the first to the second. The numbers in it are differences of weights, and these can be
computed in machine words.

* `Encoder.relationTokens_decides`: the term is the firing rule.
* `Encoder.means_relation`: the term is legal where the variables of both steps are declared.
* `Transition.exactInWords`: differences of weights can be computed in machine words.
-/

namespace PetriReach

open Smt

/-! ## Machine words -/

theorem toInt_ofInt_of_limit {n : Int} (h : n.natAbs ≤ Number.limit) :
    (Int64.ofInt n).toInt = n := by
  unfold Number.limit at h
  exact Int64.toInt_ofInt_of_le (by omega) (by omega)

theorem toInt_neg_of_limit {n : Int} (h : n.natAbs ≤ Number.limit) :
    (-Int64.ofInt n).toInt = -n := by
  rw [← Int64.ofInt_neg]
  exact toInt_ofInt_of_limit (by rwa [Int.natAbs_neg])

/-- Only the least word has no absolute value, and no number within the limit is that. -/
theorem toInt_abs_of_limit {n : Int} (h : n.natAbs ≤ Number.limit) :
    (Int64.ofInt n).abs.toInt = n.natAbs := by
  have hn := toInt_ofInt_of_limit h
  have hmin : (Int64.ofInt n).toBitVec ≠ BitVec.intMin 64 := by
    intro hmin
    have hvalue : n = (BitVec.intMin 64).toInt := hn.symm.trans (congrArg BitVec.toInt hmin)
    have hleast : (BitVec.intMin 64).toInt = -9223372036854775808 := by decide
    unfold Number.limit at h
    omega
  show (Int64.ofInt n).abs.toBitVec.toInt = _
  rw [Int64.toBitVec_abs, BitVec.toInt_abs_eq_natAbs, if_neg hmin]
  exact congrArg (fun i : Int => (i.natAbs : Int)) hn

theorem Arcs.weight_le_limit {arcs : Arcs} (h : ∀ a ∈ arcs, LegibleArc a) (p : String) :
    arcs.weight p ≤ Number.limit := by
  unfold Arcs.weight
  cases hw : arcs.lookup p with
  | none => exact Nat.zero_le _
  | some w => exact (h (p, w) (NameMap.mem_of_lookup hw)).le_limit

namespace Transition

/-- What one firing adds to a place, in machine words. -/
def deltaWord (t : Transition) (p : String) : Int64 :=
  Int64.ofInt (t.post.weight p) - Int64.ofInt (t.pre.weight p)

/-- The difference, its negation and its absolute value are what they are in integers. -/
def ExactInWords (t : Transition) (p : String) : Prop :=
  (t.deltaWord p).toInt = t.delta p ∧ (-t.deltaWord p).toInt = -t.delta p ∧
    (t.deltaWord p).abs.toInt = (t.delta p).natAbs

theorem exactInWords {t : Transition} (hpre : ∀ a ∈ t.pre, LegibleArc a)
    (hpost : ∀ a ∈ t.post, LegibleArc a) (p : String) : t.ExactInWords p := by
  have hin := Arcs.weight_le_limit hpre p
  have hout := Arcs.weight_le_limit hpost p
  have hdelta : (t.delta p).natAbs ≤ Number.limit := by
    unfold delta
    omega
  have hword : t.deltaWord p = Int64.ofInt (t.delta p) := (Int64.ofInt_sub _ _).symm
  unfold ExactInWords
  rw [hword]
  exact ⟨toInt_ofInt_of_limit hdelta, toInt_neg_of_limit hdelta, toInt_abs_of_limit hdelta⟩

end Transition

namespace Encoder

variable {e : Encoder} {k k' : Int} {m m' : Marking}

/-! ## The term -/

/-- The term of the transition relation, in tokens. -/
def relationTokens (net : Net) (k k' : Int) : Term :=
  Fold.or.term (net.transitions.map fun t => firingTokens net t k k')

theorem transitionRelation_tokens (hint : e.encoding = .integer) (hw : e.Writable)
    (hn : e.net.WellFormed) (k k' : Int) :
    e.transitionRelation k k' = .ok [.assert (relationTokens e.net k k')] := by
  refine transitionRelation_eq fun t ht => ?_
  rw [firing, hint]
  exact firingInt_eq hw hn ht k k'

theorem sort?_relationTokens (hint : e.encoding = .integer) (hn : e.net.WellFormed)
    {ds : List (Symbol × VarSort)} (hk : e.Covers ds (some k)) (hk' : e.Covers ds (some k')) :
    (relationTokens e.net k k').sort? ds = some .bool := by
  refine Fold.sort?_term .or fun u hu => ?_
  obtain ⟨t, ht, rfl⟩ := List.mem_map.mp hu
  exact sort?_firingTokens hn ht (by rw [placeSort, hint]) hk hk'

/-- **The term is the firing rule**, stated in integers. -/
theorem relationTokens_decides (hn : e.net.WellFormed) {a : Assignment}
    (hm : e.ShowsTokens a (some k) m) (hm' : e.ShowsTokens a (some k') m') :
    (relationTokens e.net k k').Decides a (∃ t ∈ e.net.transitions, ∀ p ∈ e.net.places,
      (t.pre.weight p.id : Int) ≤ m p.id ∧
        (m' p.id : Int) = m p.id - t.pre.weight p.id + t.post.weight p.id) := by
  have hfiring : ∀ t ∈ e.net.transitions, (firingTokens e.net t k k').Decides a
      (∀ p ∈ e.net.places, (t.pre.weight p.id : Int) ≤ m p.id ∧
        (m' p.id : Int) = m p.id - t.pre.weight p.id + t.post.weight p.id) := by
    intro t ht
    refine (firingInt_decides hn ht hm hm').congr ?_
    rw [← forall₂_and]
    refine forall₂_congr fun p _ => ?_
    unfold Transition.fire
    omega
  exact Term.decides_or_map hfiring

/-! ## Two steps -/

open Classical in
/-- The assignment that shows one marking at step `k` and another at step `k'`. -/
noncomputable def showing (k k' : Int) (m m' : Marking) : Assignment := fun x =>
  if h : ∃ p, x = place p (some k) then .int (m h.choose)
  else if h' : ∃ p, x = place p (some k') then .int (m' h'.choose)
  else .int 0

theorem showing_before (p : String) : showing k k' m m' (place p (some k)) = .int (m p) := by
  have h : ∃ q, place p (some k) = place q (some k) := ⟨p, rfl⟩
  rw [showing, dif_pos h, ← (place_inj h.choose_spec).1]

/-- The variables of the second step are no variables of the first. -/
theorem showing_after (hk : k ≠ k') (p : String) :
    showing k k' m m' (place p (some k')) = .int (m' p) := by
  have hno : ¬ ∃ q, place p (some k') = place q (some k) := by
    rintro ⟨q, hq⟩
    exact hk (place_inj hq).2.symm
  have h : ∃ q, place p (some k') = place q (some k') := ⟨p, rfl⟩
  rw [showing, dif_neg hno, dif_pos h, ← (place_inj h.choose_spec).1]

/-- What is declared for two steps. -/
def twoFrames (e : Encoder) (k k' : Int) : List (Symbol × VarSort) :=
  e.frame (some k) ++ e.frame (some k')

theorem mem_twoFrames {d : Symbol × VarSort} (hd : d ∈ e.twoFrames k k') : d.2 = e.placeSort := by
  rcases List.mem_append.mp hd with hd | hd
  · obtain ⟨x, -, rfl⟩ := List.mem_map.mp hd
    rfl
  · obtain ⟨x, -, rfl⟩ := List.mem_map.mp hd
    rfl

theorem covers_twoFrames {j : Int} (hj : j = k ∨ j = k') :
    e.Covers (e.twoFrames k k') (some j) := by
  intro p hp
  refine lookup_of_forall (τ := e.placeSort) ?_ fun d hd => mem_twoFrames hd
  have hmem : (place p.id (some j), e.placeSort) ∈ e.frame (some j) :=
    List.mem_map_of_mem (List.mem_map_of_mem hp)
  rcases hj with rfl | rfl
  · exact List.mem_append_left _ hmem
  · exact List.mem_append_right _ hmem

/-- The variables of two different steps can be declared one after the other. -/
theorem acceptAll_twoFrames (hn : e.net.WellFormed) (hk : k ≠ k') :
    ({} : Scopes).acceptAll ((e.symbols (some k)).flatMap (declareVar · e.placeSort) ++
        (e.symbols (some k')).flatMap (declareVar · e.placeSort)) =
      some (({} : Scopes).extend (e.twoFrames k k') (e.bounds (some k) ++ e.bounds (some k'))) := by
  have hfirst : ({} : Scopes).acceptAll ((e.symbols (some k)).flatMap (declareVar · e.placeSort)) =
      some (({} : Scopes).extend (e.frame (some k)) (e.bounds (some k))) :=
    acceptAll_declareVars e.placeSort (nodup_symbols hn.places_nodup _) (by simp)
      fun x => not_mem_predefined
  rw [Scopes.acceptAll_append, hfirst, Option.bind_some,
    acceptAll_declareVars e.placeSort (nodup_symbols hn.places_nodup _) ?_
      fun x => not_mem_predefined, Scopes.extend_extend]
  · rfl
  · intro x hx d hd hdx
    rw [Scopes.extend_declared, Reading.declared_empty, List.nil_append] at hd
    obtain ⟨y, hy, rfl⟩ := List.mem_map.mp hd
    obtain ⟨p, -, rfl⟩ := List.mem_map.mp hy
    obtain ⟨q, -, rfl⟩ := List.mem_map.mp hx
    exact hk (place_inj hdx).2

/-- The term is legal behind the declarations of both steps, and is read back from its text. -/
theorem means_relation (hint : e.encoding = .integer) (hw : e.Writable) (hn : e.net.WellFormed)
    (hk : k ≠ k') :
    Script.Means ((e.symbols (some k)).flatMap (declareVar · e.placeSort) ++
        (e.symbols (some k')).flatMap (declareVar · e.placeSort) ++
        [.assert (relationTokens e.net k k')])
      (({} : Scopes).extend (e.twoFrames k k')
        (e.bounds (some k) ++ e.bounds (some k') ++ [relationTokens e.net k k'])) := by
  have hframes : Script.Means ((e.symbols (some k)).flatMap (declareVar · e.placeSort) ++
      (e.symbols (some k')).flatMap (declareVar · e.placeSort))
      (({} : Scopes).extend (e.twoFrames k k') (e.bounds (some k) ++ e.bounds (some k'))) := by
    refine ⟨fun x τ hx => ?_, acceptAll_twoFrames hn hk⟩
    rcases List.mem_append.mp hx with hx | hx
    · exact hw.readable hn (mem_declareVars hx).1
    · exact hw.readable hn (mem_declareVars hx).1
  refine hframes.append ?_ (by simp)
  have hsort : (relationTokens e.net k k').sort? (({} : Scopes).extend (e.twoFrames k k')
      (e.bounds (some k) ++ e.bounds (some k'))).declared = some .bool := by
    rw [Scopes.extend_declared, Reading.declared_empty, List.nil_append]
    exact sort?_relationTokens hint hn (covers_twoFrames (.inl rfl)) (covers_twoFrames (.inr rfl))
  rw [Scopes.acceptAll_assert_one hsort, Scopes.extend_extend, List.append_nil]

/-- **The transition relation is exact.** For a net that was read, with names that can be written,
and two different steps: the text of the relation is the assertion of one term, which is legal where
the variables of both steps are declared. Under every assignment that shows a marking at each step,
and there is one, the term is true exactly if some transition finds its tokens in every place and
leaves in every place what the firing rule says. The differences of weights that it is written with
are exact in machine words, as are their negations and absolute values. -/
theorem transitionRelation_exact {text : String} {net : Net} {goal : Option Expr}
    (hnet : Net.parse text = .ok net) (he : make net goal .integer = .ok e)
    (hw : ∀ p ∈ net.places, isQuotable p.id = true) (hk : k ≠ k') (m m' : Marking) :
    (∃ before after relation : Script, ∃ T : Term,
      e.declarePlaces (some k) = .ok before ∧ e.declarePlaces (some k') = .ok after ∧
      e.transitionRelation k k' = .ok relation ∧
      Script.ofText? relation.render = some [.assert T] ∧
      (∃ s, Scopes.ofText? (Script.render (before ++ after ++ relation)) = some s ∧
        s.declared = e.twoFrames k k' ∧ T ∈ s.asserted) ∧
      (∃ a, e.ShowsTokens a (some k) m ∧ e.ShowsTokens a (some k') m') ∧
      ∀ a, e.ShowsTokens a (some k) m → e.ShowsTokens a (some k') m' →
        T.Decides a (∃ t ∈ net.transitions, ∀ p ∈ net.places,
          (t.pre.weight p.id : Int) ≤ m p.id ∧
            (m' p.id : Int) = m p.id - t.pre.weight p.id + t.post.weight p.id)) ∧
    ∀ t ∈ net.transitions, ∀ p, t.ExactInWords p := by
  obtain ⟨rfl, -, -⟩ := make_ok he
  have hn : net.WellFormed := Net.wellFormed_of_parse hnet
  have hlegible := Net.legible_of_parse hnet
  have hwritable : Writable ⟨net, goal, .integer⟩ := hw
  have hmeans := means_relation rfl hwritable hn hk
  refine ⟨⟨_, _, _, relationTokens net k k', declarePlaces_eq hwritable _,
    declarePlaces_eq hwritable _, transitionRelation_tokens rfl hwritable hn k k', ?_,
    ⟨_, hmeans.text, ?_, ?_⟩, ?_, ?_⟩, ?_⟩
  · exact Script.ofText?_render fun c hc => hmeans.readable c (List.mem_append_right _ hc)
  · rw [Scopes.extend_declared, Reading.declared_empty, List.nil_append]
  · rw [Scopes.extend_asserted]
    simp
  · exact ⟨showing k k' m m', fun p _ => showing_before p.id, fun p _ => showing_after hk p.id⟩
  · exact fun a hm hm' => relationTokens_decides hn hm hm'
  · exact fun t ht => Transition.exactInWords (hlegible.pre t ht) (hlegible.post t ht)

/-- A transition moves the greatest number of tokens that an arc can. -/
def hauling : Net where
  places := [⟨"p", 0⟩, ⟨"q", 0⟩]
  transitions := [⟨"t", [("p", Number.limit)], [("q", Number.limit)], ["p", "q"]⟩]

/-- All tokens of `p`, or all tokens of `q`. -/
def only (p : String) : Marking := fun q => if q = p then Number.limit else 0

/-- From step 5 to step -2, all tokens are moved, and the weights fit into machine words. -/
theorem hauling_relation : (∃ relation T,
      transitionRelation ⟨hauling, none, .integer⟩ 5 (-2) = .ok relation ∧
      Script.ofText? relation.render = some [.assert T] ∧
      ∃ a, ShowsTokens ⟨hauling, none, .integer⟩ a (some 5) (only "p") ∧
        ShowsTokens ⟨hauling, none, .integer⟩ a (some (-2)) (only "q") ∧ T.Holds a) ∧
    ∀ t ∈ hauling.transitions, ∀ p, t.ExactInWords p := by
  have hparse : Net.parse "tr t p*9223372036854775807 -> q*9223372036854775807\n" =
      .ok hauling := by decide +kernel
  have hmake : make hauling none .integer = .ok ⟨hauling, none, .integer⟩ := rfl
  have hsteps : (5 : Int) ≠ -2 := by decide
  obtain ⟨⟨_, _, relation, T, -, -, hrel, htext, -, ⟨a, hp, hq⟩, hdecides⟩, hwords⟩ :=
    transitionRelation_exact hparse hmake (by decide) hsteps (only "p") (only "q")
  refine ⟨⟨relation, T, hrel, htext, a, hp, hq, (hdecides a hp hq).holds_iff.mpr ?_⟩, hwords⟩
  exact ⟨_, List.mem_cons_self, by decide⟩

end Encoder

end PetriReach
