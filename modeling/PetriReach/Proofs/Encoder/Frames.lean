import PetriReach.Encoder.Frame
import PetriReach.Proofs.Net.WellFormed
import PetriReach.Proofs.Smt.Naming
import PetriReach.Proofs.Smt.Truth

/-!
# Variables

The variables of an encoder, as they are declared. Where every name can be written, the variables of
a step can be declared after those of other steps.

* `Encoder.declarePlaces_eq`: the script that declares the variables of all places.
* `Encoder.acceptAll_declareVars`: new variables can be declared one after another.
* `Encoder.covers_frames`: after the declarations of steps `0, …, k`, these variables are known.
-/

namespace PetriReach

open Smt

namespace Encoder

/-- The names of all places can be written. -/
def Writable (e : Encoder) : Prop :=
  ∀ p ∈ e.net.places, isQuotable p.id = true

/-- The variable of a name, at a step or without one. -/
def place (p : String) (k : Option Int) : Symbol :=
  ⟨Symbol.indexed p k⟩

/-- The variables of all places. -/
def symbols (e : Encoder) (k : Option Int) : List Symbol :=
  e.net.places.map fun p => place p.id k

/-- What is asserted of a variable where it is declared. -/
def varBounds (τ : VarSort) (x : Symbol) : List Term :=
  match τ with
  | .bool => []
  | .int => [.binary .ge (.sym x) (.num 0)]

/-- What is declared with the variables of all places. -/
def frame (e : Encoder) (k : Option Int) : List (Symbol × VarSort) :=
  (e.symbols k).map fun x => (x, e.placeSort)

/-- What is asserted with the variables of all places. -/
def bounds (e : Encoder) (k : Option Int) : List Term :=
  (e.symbols k).flatMap (varBounds e.placeSort)

/-- What is asserted with the variables of steps `0, …, k`. -/
def boundsTo (e : Encoder) (k : Nat) : List Term :=
  (List.range (k + 1)).flatMap fun j : Nat => e.bounds (some (j : Int))

theorem boundsTo_succ (e : Encoder) (k : Nat) :
    e.boundsTo (k + 1) = e.boundsTo k ++ e.bounds (some (k + 1)) := by
  rw [boundsTo, List.range_succ, List.flatMap_append, List.flatMap_singleton]
  rfl

/-- The variables of steps `0, …, k`. -/
def frames (e : Encoder) : Nat → List (Symbol × VarSort)
  | 0 => e.frame (some 0)
  | k + 1 => e.frames k ++ e.frame (some (k + 1))

/-- The variables of a step are known. -/
def Covers (e : Encoder) (ds : List (Symbol × VarSort)) (k : Option Int) : Prop :=
  ∀ p ∈ e.net.places, ds.lookup (place p.id k) = some e.placeSort

/-- The variables of a step have values as they were declared. -/
def Framed (e : Encoder) (a : Assignment) (k : Option Int) : Prop :=
  (∀ x ∈ e.symbols k, (a x).sort = e.placeSort) ∧ ∀ t ∈ e.bounds k, t.Holds a

variable {e : Encoder}

/-! ## Names -/

theorem symbol_eq {p : String} (h : isQuotable p = true) (k : Option Int) :
    symbol p k = .ok (place p k) := by
  rw [symbol, Symbol.make_eq, if_pos h]
  rfl

theorem var_eq {p : String} (h : isQuotable p = true) (k : Option Int) :
    var p k = .ok (.sym (place p k)) := by
  rw [var, symbol_eq h]
  rfl

theorem place_inj {p q : String} {i j : Int} (h : place p (some i) = place q (some j)) :
    p = q ∧ i = j :=
  Symbol.indexed_inj (congrArg Symbol.name h)

/-- At one step, or without one, each name has its own symbol. -/
theorem place_injective (k : Option Int) : Function.Injective fun p => place p k := by
  intro p q hpq
  cases k with
  | none => exact congrArg Symbol.name hpq
  | some k => exact (place_inj hpq).1

theorem nodup_symbols (h : (e.net.places.map (·.id)).Nodup) (k : Option Int) :
    (e.symbols k).Nodup := by
  have hmap : e.symbols k = (e.net.places.map (·.id)).map fun p => place p k := by
    rw [symbols, List.map_map]
    rfl
  rw [hmap]
  exact h.map (place_injective k)

theorem Writable.readable (h : e.Writable) (hn : e.net.WellFormed) {x : Symbol} {k : Int}
    (hx : x ∈ e.symbols (some k)) : x.Readable := by
  obtain ⟨p, hp, rfl⟩ := List.mem_map.mp hx
  exact Symbol.readable_indexed (h p hp) (hn.place_words _ (List.mem_map_of_mem hp)).inline k

theorem not_mem_predefined {x : Symbol} {k : Int} (hx : x ∈ e.symbols (some k)) :
    x.name ∉ predefined := by
  obtain ⟨p, -, rfl⟩ := List.mem_map.mp hx
  exact (Symbol.declarable_of_at (Symbol.at_mem_indexed p.id k)).1

/-! ## Declarations -/

/-- The script that declares the variables of all places. -/
theorem declarePlaces_eq (h : e.Writable) (k : Option Int) :
    e.declarePlaces k = .ok ((e.symbols k).flatMap (declareVar · e.placeSort)) := by
  have hparts : (e.net.places.mapM fun p => do
      return declareVar (← symbol p.id k) e.placeSort : Except EncodingError (List Script)) =
      .ok (e.net.places.map fun p => declareVar (place p.id k) e.placeSort) := by
    refine mapM_eq_pure fun p hp => ?_
    rw [symbol_eq (h p hp)]
    rfl
  unfold declarePlaces
  rw [hparts, symbols, List.flatMap_map]
  rfl

/-- Variables of places are declared only if all names are writable. -/
theorem writable_of_declarePlaces {k : Option Int} {cs : Script}
    (h : e.declarePlaces k = .ok cs) : e.Writable := by
  obtain ⟨parts, hparts, -⟩ := exists_of_bind_ok h
  intro p hp
  obtain ⟨part, hpart⟩ := exists_ok_of_mapM hparts p hp
  obtain ⟨x, hx, -⟩ := exists_of_bind_ok hpart
  by_contra hq
  rw [symbol, Symbol.make_eq, if_neg hq] at hx
  cases hx

theorem declareVar_eq (x : Symbol) (τ : VarSort) :
    declareVar x τ = .declare x τ :: (varBounds τ x).map .assert := by
  cases τ <;> rfl

theorem mem_declareVars {xs : List Symbol} {τ σ : VarSort} {y : Symbol}
    (h : Command.declare y σ ∈ xs.flatMap (declareVar · τ)) : y ∈ xs ∧ σ = τ := by
  obtain ⟨x, hx, hy⟩ := List.mem_flatMap.mp h
  rw [declareVar_eq] at hy
  rcases List.mem_cons.mp hy with hy | hy
  · cases hy
    exact ⟨hx, rfl⟩
  · obtain ⟨t, -, ht⟩ := List.mem_map.mp hy
    exact absurd ht (by simp)

theorem not_checkSat_of_mem_declareVars {xs : List Symbol} {τ : VarSort} :
    ∀ c ∈ xs.flatMap (declareVar · τ), c ≠ .checkSat := by
  intro c hc
  obtain ⟨x, -, hx⟩ := List.mem_flatMap.mp hc
  rw [declareVar_eq] at hx
  rcases List.mem_cons.mp hx with rfl | hx
  · simp
  · obtain ⟨u, -, rfl⟩ := List.mem_map.mp hx
    simp

/-- Declarations hold no other symbols than those they declare. -/
theorem within_declareVars {P : Symbol → Prop} {xs : List Symbol} {τ : VarSort}
    (h : ∀ x ∈ xs, P x) : ∀ c ∈ xs.flatMap (declareVar · τ), c.Within P := by
  intro c hc
  obtain ⟨x, hx, hc⟩ := List.mem_flatMap.mp hc
  have hsym : (Term.sym x).Within P := h x hx
  cases τ with
  | bool =>
    obtain rfl := List.mem_singleton.mp hc
    exact hsym
  | int =>
    rcases List.mem_cons.mp hc with rfl | hc
    · exact hsym
    · obtain rfl := List.mem_singleton.mp hc
      exact ⟨hsym, Int.le_refl 0, trivial⟩

theorem declares_append (cs ds : Script) :
    Script.declares (cs ++ ds) = Script.declares cs ++ Script.declares ds :=
  List.filterMap_append

theorem declares_assert (ts : List Term) : Script.declares (ts.map .assert) = [] := by
  rw [Script.declares, List.filterMap_map, List.filterMap_eq_nil_iff]
  exact fun _ _ => rfl

theorem declares_declareVars (xs : List Symbol) (τ : VarSort) :
    Script.declares (xs.flatMap (declareVar · τ)) = xs := by
  induction xs with
  | nil => rfl
  | cons x xs ih =>
    rw [List.flatMap_cons, declares_append, ih, declareVar_eq]
    exact congrArg (x :: · ++ xs) (declares_assert _)

/-- New variables can be declared one after another. -/
theorem acceptAll_declareVars {s : Scopes} {xs : List Symbol} (τ : VarSort) (hnodup : xs.Nodup)
    (hfresh : ∀ x ∈ xs, ∀ d ∈ s.declared, d.1 ≠ x) (hname : ∀ x ∈ xs, x.name ∉ predefined) :
    s.acceptAll (xs.flatMap (declareVar · τ)) =
      some (s.extend (xs.map fun x => (x, τ)) (xs.flatMap (varBounds τ))) := by
  induction xs generalizing s with
  | nil => exact congrArg some s.extend_nil.symm
  | cons x xs ih =>
    rw [List.forall_mem_cons] at hfresh hname
    obtain ⟨hx, hnodup⟩ := List.nodup_cons.mp hnodup
    have hbounds : ∀ t ∈ varBounds τ x, t.sort? (s.extend [(x, τ)] []).declared = some .bool := by
      intro t ht
      cases τ with
      | bool => simp [varBounds] at ht
      | int =>
        obtain rfl := List.mem_singleton.mp ht
        have hsym : (Term.sym x).sort? (s.extend [(x, .int)] []).declared = some .int := by
          rw [Scopes.extend_declared, Term.sort?, List.lookup_append]
          have hnone : s.declared.lookup x = none := by
            refine List.lookup_eq_none_iff.mpr fun d hd => ?_
            exact bne_iff_ne.mpr (Ne.symm (hfresh.1 d hd))
          simp [hnone]
        exact Term.sort?_binary hsym (Term.sort?_num (Int.le_refl 0)) .ge
    rw [List.flatMap_cons, declareVar_eq, List.cons_append, Scopes.acceptAll,
      Scopes.accept_declare hfresh.1 hname.1, Option.bind_some, Scopes.acceptAll_append,
      Scopes.acceptAll_assert hbounds, Option.bind_some, Scopes.extend_extend, ih hnodup ?_ hname.2,
      Scopes.extend_extend]
    · simp
    · intro y hy d hd
      rw [Scopes.extend_declared, List.append_nil] at hd
      rcases List.mem_append.mp hd with hd | hd
      · exact hfresh.2 y hy d hd
      · obtain rfl := List.mem_singleton.mp hd
        rintro rfl
        exact hx hy

/-- The marking at the beginning, as terms. -/
def initTerms (e : Encoder) (k : Option Int) : List Term :=
  e.net.places.map fun p => initialTokens e.encoding p (.sym (place p.id k))

theorem initialMarking_eq (h : e.Writable) (k : Option Int) :
    e.initialMarking k = .ok ((e.initTerms k).map .assert) := by
  rw [initTerms, List.map_map]
  refine mapM_eq_pure fun p hp => ?_
  rw [var_eq (h p hp)]
  rfl

theorem transitionRelation_eq {k k' : Int} {g : Transition → Term}
    (h : ∀ t ∈ e.net.transitions, e.firing t k k' = .ok (g t)) :
    e.transitionRelation k k' = .ok [.assert (Fold.or.term (e.net.transitions.map g))] := by
  have hterms : (e.net.transitions.mapM fun t => e.firing t k k') =
      .ok (e.net.transitions.map g) := mapM_eq_pure h
  rw [transitionRelation, hterms]
  rfl

/-! ## Values -/

open Classical in
/-- The assignment that gives the variable of each name at each step a value. -/
noncomputable def assignment (v : String → Nat → Value) : Assignment := fun x =>
  if h : ∃ q : String × Nat, x = place q.1 (some (q.2 : Int)) then v h.choose.1 h.choose.2
  else .int 0

theorem assignment_place (v : String → Nat → Value) (p : String) (k : Nat) :
    assignment v (place p (some (k : Int))) = v p k := by
  have h : ∃ q : String × Nat, place p (some (k : Int)) = place q.1 (some (q.2 : Int)) :=
    ⟨(p, k), rfl⟩
  obtain ⟨hp, hk⟩ := place_inj h.choose_spec
  rw [assignment, dif_pos h, ← hp, ← Int.ofNat_inj.mp hk]

/-! ## Steps -/

theorem mem_frames {k : Nat} {d : Symbol × VarSort} : d ∈ e.frames k ↔
    ∃ j ≤ k, ∃ p ∈ e.net.places, d = (place p.id (some (j : Int)), e.placeSort) := by
  induction k with
  | zero =>
    simp only [frames, frame, symbols, List.mem_map, exists_exists_and_eq_and, Nat.le_zero]
    constructor
    · rintro ⟨p, hp, rfl⟩
      exact ⟨0, rfl, p, hp, rfl⟩
    · rintro ⟨j, rfl, p, hp, rfl⟩
      exact ⟨p, hp, rfl⟩
  | succ k ih =>
    simp only [frames, List.mem_append, ih, frame, symbols, List.mem_map, exists_exists_and_eq_and]
    constructor
    · rintro (⟨j, hj, p, hp, rfl⟩ | ⟨p, hp, rfl⟩)
      · exact ⟨j, by omega, p, hp, rfl⟩
      · exact ⟨k + 1, Nat.le_refl _, p, hp, rfl⟩
    · rintro ⟨j, hj, p, hp, rfl⟩
      rcases Nat.lt_or_ge k j with hkj | hjk
      · obtain rfl : j = k + 1 := by omega
        exact .inr ⟨p, hp, rfl⟩
      · exact .inl ⟨j, hjk, p, hp, rfl⟩

/-- After the declarations of steps `0, …, k`, the variables of these steps are known. -/
theorem covers_frames {j k : Nat} (h : j ≤ k) : e.Covers (e.frames k) (some (j : Int)) := by
  intro p hp
  refine lookup_of_forall (mem_frames.mpr ⟨j, h, p, hp, rfl⟩) fun d hd => ?_
  obtain ⟨i, -, q, -, rfl⟩ := mem_frames.mp hd
  rfl

/-- The variables of a step can be declared after those of the steps before. -/
theorem acceptAll_frame (hnodup : (e.net.places.map (·.id)).Nodup) {s : Scopes} {k : Nat}
    (hs : ∀ d ∈ s.declared, ∃ j < k, ∃ p, d.1 = place p (some (j : Int))) :
    s.acceptAll ((e.symbols (some (k : Int))).flatMap (declareVar · e.placeSort)) =
      some (s.extend (e.frame (some (k : Int))) (e.bounds (some (k : Int)))) := by
  refine acceptAll_declareVars e.placeSort (nodup_symbols hnodup _) ?_ fun x => not_mem_predefined
  intro x hx d hd hdx
  obtain ⟨j, hj, p, hp⟩ := hs d hd
  obtain ⟨q, -, rfl⟩ := List.mem_map.mp hx
  have hjk := (place_inj (hp.symm.trans hdx)).2
  omega

end Encoder

end PetriReach
