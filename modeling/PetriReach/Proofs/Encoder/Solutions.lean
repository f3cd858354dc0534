import Mathlib.Data.Set.Function
import PetriReach.Proofs.Encoder.Safe

/-!
# Solutions of an unrolling

The constraints of `k` firings from the marking at the beginning, as one text, and the values that
satisfy them. On a safe net the solutions in tokens and those in marks are the same up to a change
of the values: a place is marked if it holds a token.

* `Encoder.Reading.unrolled_means`: the solutions are the runs of the system.
* `Net.marks_of_tokens`, `Net.tokens_of_marks`: runs of tokens as runs of marks, and back.
* `Encoder.mark_bijOn_solutions`: marking is a bijection between the solutions.
-/

namespace PetriReach

open Smt

/-! ## Solutions of a text -/

namespace Smt

/-- Whether there are tokens. A truth value says so itself. -/
def Value.mark : Value → Value
  | .int n => .bool (0 < n)
  | .bool b => .bool b

/-- As many tokens as a mark stands for. -/
def Value.count : Value → Value
  | .int n => .int n
  | .bool b => .int b.toNat

/-- The values of the variables in a list. -/
def valuesOn (xs : List Symbol) (a : Assignment) : Symbol → Option Value :=
  fun x => if x ∈ xs then some (a x) else none

/-- The values of the declared variables in the models of a legal text. -/
def solutions (text : String) : Set (Symbol → Option Value) :=
  {v | ∃ s a, Scopes.ofText? text = some s ∧ s.Model a ∧
    v = valuesOn (s.declared.map Prod.fst) a}

theorem valuesOn_congr {xs : List Symbol} {a a' : Assignment} (h : ∀ x ∈ xs, a x = a' x) :
    valuesOn xs a = valuesOn xs a' := by
  funext x
  unfold valuesOn
  split
  · next hx => rw [h x hx]
  · rfl

theorem map_valuesOn (g : Value → Value) (xs : List Symbol) (a : Assignment) :
    (fun x => (valuesOn xs a x).map g) = valuesOn xs fun x => g (a x) := by
  funext x
  unfold valuesOn
  split <;> rfl

theorem eq_of_valuesOn_eq {xs : List Symbol} {a a' : Assignment}
    (h : valuesOn xs a = valuesOn xs a') : ∀ x ∈ xs, a x = a' x := by
  intro x hx
  have hvalue := congrFun h x
  rw [valuesOn, valuesOn, if_pos hx, if_pos hx] at hvalue
  exact Option.some.inj hvalue

end Smt

/-! ## The constraints -/

namespace Encoder

variable {e : Encoder}

/-- The variables of steps `0, …, k`, the marking at the beginning, and a firing between each step
and the next. -/
def unrolled (e : Encoder) (k : Nat) : Except EncodingError Script := do
  let frames ← (List.range (k + 1)).mapM fun j : Nat => e.declarePlaces (some (j : Int))
  let init ← e.initialMarking (some 0)
  let steps ← (List.range k).mapM fun j : Nat => e.transitionRelation j (j + 1)
  return frames.flatten ++ init ++ steps.flatten

/-- The declarations of steps `0, …, k`. -/
def declareTo (e : Encoder) (k : Nat) : Script :=
  (List.range (k + 1)).flatMap fun j : Nat =>
    (e.symbols (some (j : Int))).flatMap (declareVar · e.placeSort)

/-- The variables of steps `0, …, k`, the same in both encodings. -/
def names (net : Net) (k : Nat) : List Symbol :=
  (List.range (k + 1)).flatMap fun j : Nat => net.places.map fun p => place p.id (some (j : Int))

theorem mem_names {net : Net} {k : Nat} {x : Symbol} : x ∈ names net k ↔
    ∃ j ≤ k, ∃ p ∈ net.places, x = place p.id (some (j : Int)) := by
  simp only [names, List.mem_flatMap, List.mem_range, List.mem_map, Nat.lt_succ_iff, eq_comm]

theorem frames_names (k : Nat) : (e.frames k).map Prod.fst = names e.net k := by
  induction k with
  | zero => simp [names, frames, frame, symbols, Function.comp_def]
  | succ k ih =>
    rw [frames, List.map_append, ih]
    unfold names
    rw [List.range_succ (n := k + 1), List.flatMap_append, List.flatMap_singleton]
    simp [frame, symbols, Function.comp_def]

/-- Frame after frame can be declared. -/
theorem acceptAll_declareTo (hn : e.net.WellFormed) (k : Nat) :
    ({} : Scopes).acceptAll (e.declareTo k) =
      some (({} : Scopes).extend (e.frames k) (e.boundsTo k)) := by
  induction k with
  | zero =>
    have hfirst := acceptAll_frame (e := e) (s := {}) (k := 0) hn.places_nodup
      (by simp [Scopes.declared])
    simpa [declareTo, boundsTo, frames] using hfirst
  | succ k ih =>
    have hsplit : e.declareTo (k + 1) = e.declareTo k ++
        (e.symbols (some ((k + 1 : Nat) : Int))).flatMap (declareVar · e.placeSort) := by
      unfold declareTo
      rw [List.range_succ, List.flatMap_append, List.flatMap_singleton]
    have hfresh : ∀ d ∈ (({} : Scopes).extend (e.frames k) (e.boundsTo k)).declared,
        ∃ j < k + 1, ∃ p, d.1 = place p (some (j : Int)) := by
      intro d hd
      rw [Scopes.extend_declared, Reading.declared_empty, List.nil_append] at hd
      obtain ⟨j, hj, p, -, rfl⟩ := mem_frames.mp hd
      exact ⟨j, by omega, p.id, rfl⟩
    rw [hsplit, boundsTo_succ, Scopes.acceptAll_append, ih, Option.bind_some,
      acceptAll_frame hn.places_nodup hfresh, Scopes.extend_extend]
    rfl

namespace Reading

variable {σ : Type} {S : System σ} (R : e.Reading S)

/-- The script of the constraints. -/
theorem unrolled_eq (k : Nat) : e.unrolled k =
    .ok (e.declareTo k ++ (R.initTerms ++ (List.range k).map R.stepTerm).map .assert) := by
  have hframes : ((List.range (k + 1)).mapM fun j : Nat => e.declarePlaces (some (j : Int))) =
      .ok ((List.range (k + 1)).map fun j : Nat =>
        (e.symbols (some (j : Int))).flatMap (declareVar · e.placeSort)) :=
    mapM_eq_pure fun j _ => declarePlaces_eq R.writable _
  have hsteps : ((List.range k).mapM fun j : Nat => e.transitionRelation j (j + 1)) =
      .ok ((List.range k).map fun j => [Command.assert (R.stepTerm j)]) :=
    mapM_eq_pure fun j _ => R.step_eq j
  unfold unrolled
  rw [hframes, R.initial_eq, hsteps]
  have hflat : ((List.range k).map fun j => [Command.assert (R.stepTerm j)]).flatten =
      ((List.range k).map R.stepTerm).map .assert := by
    rw [← List.flatMap_def, List.map_map, List.map_eq_flatMap]
    rfl
  show Except.ok _ = _
  rw [hflat, List.map_append, List.append_assoc, ← List.flatMap_def]
  rfl

/-- **The solutions of the constraints are the runs of the system.** -/
theorem unrolled_means (k : Nat) : ∃ cs s, e.unrolled k = .ok cs ∧
    Scopes.ofText? (Script.render cs) = some s ∧ s.declared = e.frames k ∧
    ∀ a, s.Model a ↔ ∃ xs : Nat → σ,
      (∀ j ≤ k, e.Framed a (some (j : Int)) ∧ R.Shows a j (xs j)) ∧
        S.init (xs 0) ∧ S.Trail xs k := by
  let s₀ := ({} : Scopes).extend (e.frames k) (e.boundsTo k)
  let ts := R.initTerms ++ (List.range k).map R.stepTerm
  have hdecl : s₀.declared = e.frames k := by simp [s₀]
  have hsorts : ∀ t ∈ ts, t.sort? s₀.declared = some .bool := by
    intro t ht
    rw [hdecl]
    rcases List.mem_append.mp ht with ht | ht
    · exact R.init_sort (covers_frames (Nat.zero_le k)) t ht
    · obtain ⟨j, hj, rfl⟩ := List.mem_map.mp ht
      rw [List.mem_range] at hj
      exact R.step_sort (covers_frames (by omega)) (covers_frames hj)
  have hmeans : Script.Means (e.declareTo k ++ ts.map .assert) (s₀.extend [] ts) := by
    refine ⟨fun x τ hx => ?_, ?_⟩
    · rcases List.mem_append.mp hx with hx | hx
      · obtain ⟨j, -, hx⟩ := List.mem_flatMap.mp hx
        exact R.writable.readable R.wellFormed (mem_declareVars hx).1
      · obtain ⟨t, -, ht⟩ := List.mem_map.mp hx
        cases ht
    · rw [Scopes.acceptAll_append, acceptAll_declareTo R.wellFormed, Option.bind_some]
      exact Scopes.acceptAll_assert hsorts
  refine ⟨_, _, R.unrolled_eq k, hmeans.text, by simp [hdecl], fun a => ?_⟩
  -- the assertions say that the variables are framed, and what the terms say of the states
  have hframed : (s₀.extend [] ts).Model a ↔
      (∀ j ≤ k, e.Framed a (some (j : Int))) ∧ ∀ t ∈ ts, t.Holds a := by
    have hasserted : (s₀.extend [] ts).asserted = e.boundsTo k ++ ts := by simp [s₀]
    have hdeclared : (s₀.extend [] ts).declared = e.frames k := by simp [s₀]
    unfold Scopes.Model
    rw [hdeclared, hasserted, List.forall_mem_append]
    constructor
    · rintro ⟨hsort, hbounds, hts⟩
      refine ⟨fun j hj => ⟨fun x hx => ?_, fun t ht => ?_⟩, hts⟩
      · obtain ⟨p, hp, rfl⟩ := List.mem_map.mp hx
        exact hsort _ (mem_frames.mpr ⟨j, hj, p, hp, rfl⟩)
      · exact hbounds t (List.mem_flatMap.mpr ⟨j, List.mem_range.mpr (by omega), ht⟩)
    · rintro ⟨hframe, hts⟩
      refine ⟨fun d hd => ?_, fun t ht => ?_, hts⟩
      · obtain ⟨j, hj, p, hp, rfl⟩ := mem_frames.mp hd
        exact (hframe j hj).1 _ (List.mem_map_of_mem hp)
      · obtain ⟨j, hj, ht⟩ := List.mem_flatMap.mp ht
        rw [List.mem_range] at hj
        exact (hframe j (by omega)).2 t ht
  have hstates : ∀ xs : Nat → σ, (∀ j ≤ k, R.Shows a j (xs j)) →
      ((∀ t ∈ ts, t.Holds a) ↔ S.init (xs 0) ∧ S.Trail xs k) := by
    intro xs hxs
    have hsteps : (∀ j < k, (R.stepTerm j).Holds a) ↔ S.Trail xs k :=
      forall₂_congr fun j hj => (R.step_decides (hxs j (by omega)) (hxs (j + 1) hj)).holds_iff
    rw [List.forall_mem_append, R.init_iff (hxs 0 (Nat.zero_le k)), ← hsteps]
    simp only [List.forall_mem_map, List.mem_range]
  rw [hframed]
  constructor
  · rintro ⟨hframe, hts⟩
    obtain ⟨x₀, -⟩ := R.exists_state (hframe 0 (Nat.zero_le k))
    have hchoice : ∀ j, ∃ x, j ≤ k → R.Shows a j x := by
      intro j
      by_cases hj : j ≤ k
      · obtain ⟨x, hx⟩ := R.exists_state (hframe j hj)
        exact ⟨x, fun _ => hx⟩
      · exact ⟨x₀, fun h => absurd h hj⟩
    choose xs hxs using hchoice
    exact ⟨xs, fun j hj => ⟨hframe j hj, hxs j hj⟩, (hstates xs hxs).mp hts⟩
  · rintro ⟨xs, hxs, hrun⟩
    exact ⟨fun j hj => (hxs j hj).1, (hstates xs fun j hj => (hxs j hj).2).mpr hrun⟩

/-- The solutions are the values that show a run. -/
theorem mem_solutions (k : Nat)
    (hframed : ∀ {a : Assignment} {j : Nat} {x : σ}, R.Shows a j x → e.Framed a (some (j : Int))) :
    ∃ cs, e.unrolled k = .ok cs ∧ (Scopes.ofText? (Script.render cs)).isSome ∧
      ∀ v, v ∈ solutions (Script.render cs) ↔ ∃ a, v = valuesOn (names e.net k) a ∧
        ∃ xs : Nat → σ, (∀ j ≤ k, R.Shows a j (xs j)) ∧ S.init (xs 0) ∧ S.Trail xs k := by
  obtain ⟨cs, s, hcs, hs, hdecl, hmodel⟩ := R.unrolled_means k
  refine ⟨cs, hcs, by simp [hs], fun v => ?_⟩
  rw [← frames_names, ← hdecl]
  constructor
  · rintro ⟨s', a, hs', ha, rfl⟩
    cases hs.symm.trans hs'
    obtain ⟨xs, hxs, hrun⟩ := (hmodel a).mp ha
    exact ⟨a, rfl, xs, fun j hj => (hxs j hj).2, hrun⟩
  · rintro ⟨a, rfl, xs, hxs, hrun⟩
    exact ⟨s, a, hs, (hmodel a).mpr ⟨xs, fun j hj => ⟨hframed (hxs j hj), hxs j hj⟩, hrun⟩, rfl⟩

end Reading

end Encoder

/-! ## Runs of tokens and runs of marks -/

namespace Net

variable {n : Net} {f : Formula} (hcheck : Encoder.checkNet n = .ok ()) (hn : n.WellFormed)
  (hsafe : n.Safe)

include hn in
/-- What a run of tokens comes to is reachable, on the places. -/
theorem reachable_of_trail {ms : Nat → Marking} {k : Nat} (hinit : (n.tokens f).init (ms 0))
    (htrail : (n.tokens f).Trail ms k) : ∀ j ≤ k, n.Reachable (n.restrict (ms j)) := by
  intro j
  induction j with
  | zero =>
    intro _
    have hstart : n.restrict (ms 0) = n.initial := by
      funext p
      by_cases hp : n.Has p
      · rw [restrict_of_has hp]
        obtain ⟨q, hq, rfl⟩ := hp
        exact hinit q hq
      · rw [restrict_of_not_has hp, initial_of_not_has hp]
    rw [hstart]
    exact reachable_initial
  | succ j ih =>
    intro hj
    exact (ih (by omega)).step (hn.step_restrict (htrail j hj))

include hn hsafe in
theorem le_one_of_trail {ms : Nat → Marking} {k : Nat} (hinit : (n.tokens f).init (ms 0))
    (htrail : (n.tokens f).Trail ms k) {j : Nat} (hj : j ≤ k) {p : String} (hp : n.Has p) :
    ms j p ≤ 1 := by
  have hle := hsafe _ (reachable_of_trail hn hinit htrail j hj) p
  rwa [restrict_of_has hp] at hle

include hcheck hn hsafe in
/-- **A run of tokens is a run of marks.** -/
theorem marks_of_tokens {ms : Nat → Marking} {k : Nat} (hinit : (n.tokens f).init (ms 0))
    (htrail : (n.tokens f).Trail ms k) :
    (n.marks f).init (fun p => decide (0 < ms 0 p)) ∧
      (n.marks f).Trail (fun j p => decide (0 < ms j p)) k := by
  have hmarked : ∀ j, n.MarkedAs (n.restrict (ms j)) fun p => decide (0 < ms j p) := by
    intro j p hp
    rw [restrict_of_has hp]
  constructor
  · refine (MarkedAs.initial_iff hn).mp fun p hp => ?_
    obtain ⟨q, hq, rfl⟩ := hp
    rw [hinit q hq]
  · intro j hj
    obtain ⟨t, ht, hen, hfire⟩ := hn.step_restrict (htrail j hj)
    refine ⟨t, ht, ((hmarked j).enabled_iff hcheck hn ht).mpr hen, fun p hp => ?_⟩
    have hreach := reachable_of_trail hn hinit htrail j (by omega)
    have hafter := (hmarked j).fire hcheck ht hen (hsafe _ hreach) p.id ⟨p, hp, rfl⟩
    rw [hafter, ← hfire, restrict_of_has ⟨p, hp, rfl⟩]

include hsafe in
/-- On a safe net the marks of a reachable marking give its tokens back. -/
theorem MarkedAs.eq_toNat {m : Marking} {b : Marks} (hb : n.MarkedAs m b) (hm : n.Reachable m)
    {p : String} (hp : n.Has p) : m p = (b p).toNat := by
  have hle := hsafe m hm p
  rw [hb p hp]
  by_cases hpos : 0 < m p
  · simp [hpos]
    omega
  · simp [hpos]
    omega

include hcheck hn hsafe in
/-- **A run of marks is a run of tokens.** -/
theorem tokens_of_marks {bs : Nat → Marks} {k : Nat} (hinit : (n.marks f).init (bs 0))
    (htrail : (n.marks f).Trail bs k) :
    (n.tokens f).init (fun p => (bs 0 p).toNat) ∧
      (n.tokens f).Trail (fun j p => (bs j p).toNat) k := by
  constructor
  · intro p hp
    have hb : n.MarkedAs n.initial (bs 0) := (MarkedAs.initial_iff hn).mpr hinit
    exact (hb.eq_toNat hsafe reachable_initial ⟨p, hp, rfl⟩).symm
  · intro j hj
    obtain ⟨ts, m, hpath, -, hb⟩ :=
      path_of_marks hcheck hn hsafe hinit (htrail.mono (Nat.le_of_lt hj))
    obtain ⟨t, ht, hpre, hmark⟩ := htrail j hj
    have hreach : n.Reachable m := ⟨ts, hpath⟩
    have hen := (hb.enabled_iff hcheck hn ht).mp hpre
    have hnext : n.MarkedAs (t.fire m) (bs (j + 1)) := by
      rintro _ ⟨p, hp, rfl⟩
      rw [hmark p hp]
      exact hb.fire hcheck ht hen (hsafe m hreach) p.id ⟨p, hp, rfl⟩
    have hreach' : n.Reachable (t.fire m) := hreach.step ⟨t, ht, hen, rfl⟩
    refine ⟨t, ht, fun p hp => ?_, fun p hp => ?_⟩
    · show t.pre.weight p.id ≤ (bs j p.id).toNat
      rw [← hb.eq_toNat hsafe hreach ⟨p, hp, rfl⟩]
      exact hen p.id
    · show (bs (j + 1) p.id).toNat = (bs j p.id).toNat - _ + _
      rw [← hb.eq_toNat hsafe hreach ⟨p, hp, rfl⟩, ← hnext.eq_toNat hsafe hreach' ⟨p, hp, rfl⟩]
      rfl

end Net

/-! ## The bijection -/

namespace Encoder

/-- Where a name cannot be written, neither can the constraints be, in either encoding. -/
theorem unrolled_unwritable {net : Net} (h : ∃ p ∈ net.places, isQuotable p.id = false) (k : Nat) :
    ∃ err, ∀ goal encoding, (⟨net, goal, encoding⟩ : Encoder).unrolled k = .error err := by
  -- the first such name stops the declarations of step 0
  have hfirst : ∀ {ps : List Place}, (∃ p ∈ ps, isQuotable p.id = false) → ∃ err, ∀ τ : VarSort,
      (ps.mapM fun p => do return declareVar (← symbol p.id (some 0)) τ :
        Except EncodingError (List Script)) = .error err := by
    intro ps
    induction ps with
    | nil => simp
    | cons p ps ih =>
      intro hps
      by_cases hp : isQuotable p.id = true
      · obtain ⟨q, hq, hqq⟩ := hps
        have hmem : q ∈ ps := by
          rcases List.mem_cons.mp hq with rfl | hq
          · rw [hp] at hqq
            cases hqq
          · exact hq
        obtain ⟨err, herr⟩ := ih ⟨q, hmem, hqq⟩
        refine ⟨err, fun τ => ?_⟩
        rw [List.mapM_cons, symbol_eq hp, herr]
        rfl
      · refine ⟨.unwritable ⟨p.id⟩, fun τ => ?_⟩
        rw [List.mapM_cons, symbol, Symbol.make_eq, if_neg hp]
        rfl
  obtain ⟨err, herr⟩ := hfirst h
  refine ⟨err, fun goal encoding => ?_⟩
  have hframe : (⟨net, goal, encoding⟩ : Encoder).declarePlaces (some ((0 : Nat) : Int)) =
      .error err := by
    unfold declarePlaces
    rw [Int.natCast_zero, herr]
    rfl
  unfold unrolled
  rw [List.range_succ_eq_map, List.mapM_cons, hframe]
  rfl

section Bijection

variable {net : Net} {goal goal' : Option Expr}

/-- The solutions in tokens. -/
theorem solutions_tokens (hn : net.WellFormed)
    (hquotable : ∀ p ∈ net.places, isQuotable p.id = true) (goal : Option Expr) (k : Nat) :
    ∃ cs, (⟨net, goal, .integer⟩ : Encoder).unrolled k = .ok cs ∧
      (Scopes.ofText? (Script.render cs)).isSome ∧
      ∀ v, v ∈ solutions (Script.render cs) ↔ ∃ a, v = valuesOn (names net k) a ∧
        ∃ ms : Nat → Marking,
          (∀ j ≤ k, (⟨net, goal, .integer⟩ : Encoder).ShowsTokens a (some (j : Int)) (ms j)) ∧
            (net.tokens .tt).init (ms 0) ∧ (net.tokens .tt).Trail ms k := by
  -- the constraints do not depend on the goal
  obtain ⟨R, hR⟩ := exists_reading_tokens (e := ⟨net, some (.formula .tt), .integer⟩) (f := .tt)
    rfl rfl hn hquotable (by simp [Formula.Over, Formula.mentions]) trivial
  have h := R.mem_solutions k (by rw [hR]; exact fun h => h.framed rfl)
  rw [hR] at h
  exact h

/-- The solutions in marks. -/
theorem solutions_marks (hn : net.WellFormed)
    (hquotable : ∀ p ∈ net.places, isQuotable p.id = true) (goal : Option Expr) (k : Nat) :
    ∃ cs, (⟨net, goal, .boolean⟩ : Encoder).unrolled k = .ok cs ∧
      (Scopes.ofText? (Script.render cs)).isSome ∧
      ∀ v, v ∈ solutions (Script.render cs) ↔ ∃ a, v = valuesOn (names net k) a ∧
        ∃ bs : Nat → Marks,
          (∀ j ≤ k, (⟨net, goal, .boolean⟩ : Encoder).ShowsMarks a j (bs j)) ∧
            (net.marks .tt).init (bs 0) ∧ (net.marks .tt).Trail bs k := by
  obtain ⟨R, hR⟩ := exists_reading_marks (e := ⟨net, some (.formula .tt), .boolean⟩) (f := .tt)
    rfl rfl hn hquotable (by simp [Formula.Over, Formula.mentions]) rfl
  have h := R.mem_solutions k (by rw [hR]; exact fun h => h.framed rfl)
  rw [hR] at h
  exact h

theorem ShowsTokens.mark {a : Assignment} {j : Nat} {m : Marking}
    (h : (⟨net, goal, .integer⟩ : Encoder).ShowsTokens a (some (j : Int)) m) :
    (⟨net, goal', .boolean⟩ : Encoder).ShowsMarks (fun x => (a x).mark) j
      fun p => decide (0 < m p) := by
  intro p hp
  show (a _).mark = _
  rw [h p hp]
  simp [Value.mark]

theorem ShowsMarks.count {a : Assignment} {j : Nat} {b : Marks}
    (h : (⟨net, goal', .boolean⟩ : Encoder).ShowsMarks a j b) :
    (⟨net, goal, .integer⟩ : Encoder).ShowsTokens (fun x => (a x).count) (some (j : Int))
      fun p => (b p).toNat := by
  intro p hp
  show (a _).count = _
  rw [h p hp]
  rfl

end Bijection

/-- **Marking is a bijection between the solutions** of the constraints in tokens and of those in
marks, on a safe net that fits the boolean encoding. If a name cannot be written, there are no
constraints in either. -/
theorem mark_bijOn_solutions {text : String} {net : Net} (hnet : Net.parse text = .ok net)
    (hcheck : checkNet net = .ok ()) (hsafe : net.Safe) (goal goal' : Option Expr) (k : Nat) :
    ((∀ p ∈ net.places, isQuotable p.id = true) →
      ∃ cs cs', (⟨net, goal, .integer⟩ : Encoder).unrolled k = .ok cs ∧
        (⟨net, goal', .boolean⟩ : Encoder).unrolled k = .ok cs' ∧
        (Scopes.ofText? (Script.render cs)).isSome ∧
        (Scopes.ofText? (Script.render cs')).isSome ∧
        Set.BijOn (fun v x => (v x).map Value.mark) (solutions (Script.render cs))
          (solutions (Script.render cs'))) ∧
    ((∃ p ∈ net.places, isQuotable p.id = false) →
      ∃ err, (⟨net, goal, .integer⟩ : Encoder).unrolled k = .error err ∧
        (⟨net, goal', .boolean⟩ : Encoder).unrolled k = .error err) := by
  have hn := Net.wellFormed_of_parse hnet
  refine ⟨fun hquotable => ?_, fun hunquotable => ?_⟩
  · obtain ⟨cs, hcs, hlegal, hsol⟩ := solutions_tokens hn hquotable goal k
    obtain ⟨cs', hcs', hlegal', hsol'⟩ := solutions_marks hn hquotable goal' k
    refine ⟨cs, cs', hcs, hcs', hlegal, hlegal', ?_⟩
    refine ⟨?_, ?_, ?_⟩
    · intro v hv
      obtain ⟨a, rfl, ms, hms, hinit, htrail⟩ := (hsol v).mp hv
      refine (hsol' _).mpr ⟨_, map_valuesOn _ _ _, _, fun j hj => (hms j hj).mark, ?_⟩
      exact Net.marks_of_tokens hcheck hn hsafe hinit htrail
    · intro v hv v' hv' heq
      obtain ⟨a, rfl, ms, hms, hinit, htrail⟩ := (hsol v).mp hv
      obtain ⟨a', rfl, ms', hms', hinit', htrail'⟩ := (hsol v').mp hv'
      refine valuesOn_congr fun x hx => ?_
      have hmark : (a x).mark = (a' x).mark :=
        eq_of_valuesOn_eq (((map_valuesOn _ _ _).symm.trans heq).trans (map_valuesOn _ _ _)) x hx
      obtain ⟨j, hj, p, hp, rfl⟩ := mem_names.mp hx
      rw [hms j hj p hp, hms' j hj p hp] at hmark ⊢
      have hle := Net.le_one_of_trail hn hsafe hinit htrail hj ⟨p, hp, rfl⟩
      have hle' := Net.le_one_of_trail hn hsafe hinit' htrail' hj ⟨p, hp, rfl⟩
      simp only [Value.mark, Value.bool.injEq, decide_eq_decide] at hmark
      congr 1
      omega
    · intro v hv
      obtain ⟨a, rfl, bs, hbs, hinit, htrail⟩ := (hsol' v).mp hv
      refine ⟨valuesOn (names net k) fun x => (a x).count, (hsol _).mpr ⟨_, rfl, _,
        fun j hj => (hbs j hj).count, Net.tokens_of_marks hcheck hn hsafe hinit htrail⟩, ?_⟩
      refine (map_valuesOn _ _ _).trans (valuesOn_congr fun x hx => ?_)
      obtain ⟨j, hj, p, hp, rfl⟩ := mem_names.mp hx
      rw [hbs j hj p hp]
      cases bs j p.id <;> simp [Value.count, Value.mark]
  · obtain ⟨err, herr⟩ := unrolled_unwritable hunquotable k
    exact ⟨err, herr _ _, herr _ _⟩

/-- One token, which a firing hands from `p` to `q`. -/
def handOver : Net :=
  { places := [⟨"p", 1⟩, ⟨"q", 0⟩]
    transitions := [⟨"t", [("p", 1)], [("q", 1)], ["p", "q"]⟩] }

theorem handOver_parse : Net.parse "pl p (1)\ntr t p -> q\n" = .ok handOver :=
  rfl

theorem weight_one (p x : String) : Arcs.weight [(p, 1)] x = if x = p then 1 else 0 := by
  unfold Arcs.weight
  rw [List.lookup_cons]
  by_cases h : x = p
  · simp [h]
  · simp [h, beq_false_of_ne h]

theorem handOver_safe : handOver.Safe := by
  -- `p` and `q` hold one token together, and nothing else gets any
  have hpath : ∀ {m ts m'}, handOver.Path m ts m' →
      (m "p" + m "q" ≤ 1 ∧ ∀ x, x ≠ "p" → x ≠ "q" → m x ≤ 1) → ∀ x, m' x ≤ 1 := by
    intro m ts m' h
    induction h with
    | nil m =>
      rintro ⟨hpq, hrest⟩ x
      by_cases hp : x = "p"
      · subst hp
        omega
      · by_cases hq : x = "q"
        · subst hq
          omega
        · exact hrest x hp hq
    | cons ht hen _ ih =>
      rintro ⟨hpq, hrest⟩
      obtain rfl := List.mem_singleton.mp ht
      have hone := hen "p"
      refine ih ⟨?_, fun x hp hq => ?_⟩
      · simp only [Transition.fire, weight_one] at hone ⊢
        simp at hone ⊢
        omega
      · simpa [Transition.fire, weight_one, hp, hq] using hrest x hp hq
  rintro m ⟨ts, h⟩
  refine hpath h ⟨by decide, fun x hp hq => ?_⟩
  simp [Net.initial, handOver, Ne.symm hp, Ne.symm hq]

/-- A token handed on: the constraints of one firing can be satisfied, and the ways to do so in
tokens are the ways to do so in marks. -/
theorem handOver_bijOn :
    ∃ cs cs', (⟨handOver, none, .integer⟩ : Encoder).unrolled 1 = .ok cs ∧
      (⟨handOver, none, .boolean⟩ : Encoder).unrolled 1 = .ok cs' ∧
      (solutions (Script.render cs)).Nonempty ∧
      Set.BijOn (fun v x => (v x).map Value.mark) (solutions (Script.render cs))
        (solutions (Script.render cs')) := by
  have hquotable : ∀ p ∈ handOver.places, isQuotable p.id = true := by decide
  obtain ⟨cs, cs', hcs, hcs', -, -, hbij⟩ :=
    (mark_bijOn_solutions handOver_parse (by decide) handOver_safe none none 1).1 hquotable
  refine ⟨cs, cs', hcs, hcs', ?_, hbij⟩
  obtain ⟨_, hok, -, hsol⟩ :=
    solutions_tokens (Net.wellFormed_of_parse handOver_parse) hquotable none 1
  cases hcs.symm.trans hok
  let t : Transition := ⟨"t", [("p", 1)], [("q", 1)], ["p", "q"]⟩
  let ms : Nat → Marking := fun j => if j = 0 then handOver.initial else t.fire handOver.initial
  have hen : t.Enabled handOver.initial := by
    intro x
    rw [weight_one]
    by_cases hx : x = "p"
    · subst hx
      decide
    · simp [hx]
  refine ⟨_, (hsol _).mpr ⟨assignment fun p k => .int (ms k p), rfl, ms,
    fun j _ p _ => assignment_place _ p.id j, fun _ _ => rfl, fun j hj => ?_⟩⟩
  obtain rfl : j = 0 := by omega
  exact Net.step_tokens ⟨t, List.mem_singleton.mpr rfl, hen, rfl⟩

end Encoder

end PetriReach
