import PetriReach.Encoder.StateEquation
import PetriReach.Proofs.Encoder.Tokens

/-!
# The state equation as a system

What the script of the state equation says of tokens and numbers of firings. It is a legal script
exactly if no two of its variables have the same name and no place is named by a word of the
language.

* `Net.solves_of_path`: a marking that is reached, with the firings on the way, solves the system.
* `Encoder.equation_decides`: the term of a place says that its tokens are balanced.
* `Encoder.means_stateScript`, `Encoder.names_of_ofText?`: when the script is legal.
* `Encoder.model_iff`: the models of the script are the solutions of the system.
* `Encoder.satisfiable_iff_solvable`: the test asks for a solution that is in the goal.
-/

namespace PetriReach

open Smt

namespace Net

/-- What the firings `x` add to a place. -/
def flow (n : Net) (x : String → Int) (p : String) : Int :=
  total (n.transitions.map fun t => ((t.post.weight p : Int) - t.pre.weight p) * x t.id)

/-- The tokens `m` and the firings `x` are not negative, and what a place holds is what it held at
the beginning and what the firings added. -/
structure Solves (n : Net) (m x : String → Int) : Prop where
  tokens : ∀ p ∈ n.places, 0 ≤ m p.id
  firings : ∀ t ∈ n.transitions, 0 ≤ x t.id
  balance : ∀ p ∈ n.places, m p.id = n.initial p.id + n.flow x p.id

/-- How often each transition fires. -/
def firings (ts : List Transition) (t : String) : Nat :=
  (ts.map (·.id)).count t

variable {n : Net}

/-- One more firing of `u` adds what `u` adds. -/
theorem flow_cons (hnodup : (n.transitions.map (·.id)).Nodup) {u : Transition}
    (hu : u ∈ n.transitions) (us : List Transition) (p : String) :
    n.flow (fun t => firings (u :: us) t) p = u.delta p + n.flow (fun t => firings us t) p := by
  unfold flow
  dsimp only
  generalize n.transitions = ts at hnodup hu
  induction ts with
  | nil => simp at hu
  | cons t ts ih =>
    rw [List.map_cons, List.nodup_cons] at hnodup
    simp only [List.map_cons, total_cons]
    rcases List.mem_cons.mp hu with rfl | hu
    · -- the transitions behind `u` have other names
      have hsame : (ts.map fun t => ((t.post.weight p : Int) - t.pre.weight p) *
          (firings (u :: us) t.id : Int)) =
          ts.map fun t => ((t.post.weight p : Int) - t.pre.weight p) * (firings us t.id : Int) := by
        refine List.map_congr_left fun t ht => ?_
        have hne : u.id ≠ t.id := fun h => hnodup.1 (h ▸ List.mem_map_of_mem ht)
        simp [firings, List.count_cons_of_ne hne]
      have hone : firings (u :: us) u.id = firings us u.id + 1 := by
        simp [firings]
      rw [hsame, hone, Int.natCast_add, Int.mul_add, Transition.delta]
      omega
    · have hne : u.id ≠ t.id := fun h => hnodup.1 (h ▸ List.mem_map_of_mem hu)
      have hsame : firings (u :: us) t.id = firings us t.id := by
        simp [firings, List.count_cons_of_ne hne]
      rw [ih hnodup.2 hu, hsame]
      omega

theorem flow_zero (n : Net) (p : String) : n.flow (fun _ => 0) p = 0 := by
  unfold flow
  induction n.transitions with
  | nil => rfl
  | cons t ts ih => rw [List.map_cons, total_cons, ih, Int.mul_zero, Int.add_zero]

/-- Along a path, every place gains what the firings add. -/
theorem Path.tokens_eq (hnodup : (n.transitions.map (·.id)).Nodup) {m m' : Marking}
    {ts : List Transition} (h : n.Path m ts m') (p : String) :
    (m' p : Int) = m p + n.flow (fun t => firings ts t) p := by
  induction h with
  | nil m =>
    have hzero : n.flow (fun t => firings [] t) p = 0 := n.flow_zero p
    rw [hzero, Int.add_zero]
  | cons ht hen _ ih =>
    rw [ih, flow_cons hnodup ht, Transition.fire_eq_add_delta hen]
    omega

/-- **A marking that is reached solves the system**, with the firings on the way. -/
theorem solves_of_path (h : n.WellFormed) {m : Marking} {ts : List Transition}
    (hpath : n.Path n.initial ts m) : n.Solves (fun p => m p) (fun t => firings ts t) where
  tokens _ _ := Int.natCast_nonneg _
  firings _ _ := Int.natCast_nonneg _
  balance p _ := hpath.tokens_eq h.transitions_nodup p.id

/-- Only the values at places and transitions matter. -/
theorem Solves.congr {m m' x x' : String → Int} (h : n.Solves m x)
    (hm : ∀ p ∈ n.places, m p.id = m' p.id) (hx : ∀ t ∈ n.transitions, x t.id = x' t.id) :
    n.Solves m' x' where
  tokens p hp := hm p hp ▸ h.tokens p hp
  firings t ht := hx t ht ▸ h.firings t ht
  balance p hp := by
    have hflow : n.flow x p.id = n.flow x' p.id :=
      congrArg total (List.map_congr_left fun t ht => by rw [hx t ht])
    rw [← hm p hp, ← hflow]
    exact h.balance p hp

end Net

namespace Encoder

variable {e : Encoder}

/-! ## Names -/

/-- The variable that counts the firings of a transition. -/
def tally (t : String) : Symbol :=
  ⟨t ++ "@fc"⟩

/-- The variables that count firings. -/
def tallies (e : Encoder) : List Symbol :=
  e.net.transitions.map fun t => tally t.id

/-- The names of all transitions can be written. -/
def Countable (e : Encoder) : Prop :=
  ∀ t ∈ e.net.transitions, isQuotable t.id = true

/-- No two variables have the same name. -/
def Apart (e : Encoder) : Prop :=
  (e.net.places.map (·.id) ++ e.net.transitions.map (·.id ++ "@fc")).Nodup

theorem firingCount_ok {t : String} (h : isQuotable t = true) : firingCount t = .ok (tally t) := by
  rw [firingCount, Symbol.firingCount_eq, if_pos h]
  rfl

theorem tally_inj {t u : String} (h : tally t = tally u) : t = u := by
  have hname : t ++ "@fc" = u ++ "@fc" := congrArg Symbol.name h
  simpa using hname

theorem apart_iff : e.Apart ↔ (e.symbols none ++ e.tallies).Nodup := by
  have hmap : (e.symbols none ++ e.tallies).map Symbol.name =
      e.net.places.map (·.id) ++ e.net.transitions.map (·.id ++ "@fc") := by
    simp only [symbols, tallies, List.map_append, List.map_map]
    rfl
  rw [Apart, ← hmap]
  exact List.nodup_map_iff fun x y h => by cases x; cases y; exact congrArg Symbol.mk h

/-! ## Equations -/

/-- The tokens that the firings of a transition move at a place. -/
def share (p : Place) (t : Transition) : Term :=
  moved (t.delta p.id).natAbs (.sym (tally t.id))

/-- What the given transitions move at a place. -/
def shares (p : Place) (ts : List Transition) : List Term :=
  ts.map (share p)

/-- The term of a place. -/
def equation (net : Net) (p : Place) : Term :=
  let produced := net.transitions.filter (0 < ·.delta p.id)
  let consumed := net.transitions.filter (·.delta p.id < 0)
  let gained := Fold.sum.term (.num p.tokens :: shares p produced)
  .binary .eq (.sym (place p.id none))
    (if consumed = [] then gained else .binary .sub gained (Fold.sum.term (shares p consumed)))

/-- Of the transitions that change a place, those of a kind are taken with their variables. -/
theorem movedAt_filter (p : Place) (ts : List Transition) (kind : Int → Bool)
    (hkind : kind 0 = false) :
    movedAt p.id (((ts.filter (·.delta p.id ≠ 0)).map fun t => (t, Term.sym (tally t.id))).filter
      fun c => kind (c.1.delta p.id)) = shares p (ts.filter fun t => kind (t.delta p.id)) := by
  rw [List.filter_map, List.filter_filter, movedAt, List.map_map, shares]
  have hfilter : ts.filter (fun t => ((fun c : Transition × Term => kind (c.1.delta p.id)) ∘
      fun t => (t, Term.sym (tally t.id))) t && decide (t.delta p.id ≠ 0)) =
      ts.filter fun t => kind (t.delta p.id) := by
    refine List.filter_congr fun t _ => ?_
    by_cases h : t.delta p.id = 0
    · simp [h, hkind]
    · simp [h]
  rw [hfilter]
  rfl

theorem placeEquation_eq (hc : e.Countable) {p : Place} (hp : isQuotable p.id = true) :
    placeEquation e.net p = .ok (.assert (equation e.net p)) := by
  have hcounts : ((e.net.transitions.filter (·.delta p.id ≠ 0)).mapM fun t => do
      return (t, Term.sym (← firingCount t.id)) : Except EncodingError (List (Transition × Term))) =
      .ok ((e.net.transitions.filter (·.delta p.id ≠ 0)).map fun t => (t, .sym (tally t.id))) := by
    refine mapM_eq_pure fun t ht => ?_
    rw [firingCount_ok (hc t (List.mem_of_mem_filter ht))]
    rfl
  have hproduced := movedAt_filter p e.net.transitions (fun d => d > 0) rfl
  have hconsumed := movedAt_filter p e.net.transitions (fun d => d < 0) rfl
  rw [placeEquation, hcounts]
  show (var p.id none >>= _) = _
  rw [var_eq hp, hproduced, hconsumed]
  show Except.ok (Command.assert (.binary .eq _ (if (shares p _).isEmpty then _ else _))) = _
  rw [shares, List.isEmpty_map]
  simp only [List.isEmpty_iff]
  rfl

theorem sort?_share {ds : List (Symbol × VarSort)} {t : Transition}
    (h : ds.lookup (tally t.id) = some .int) (p : Place) : (share p t).sort? ds = some .int := by
  have hsym : (Term.sym (tally t.id)).sort? ds = some .int := h
  unfold share moved
  split
  · exact hsym
  · exact Term.sort?_binary (Term.sort?_num (Int.natCast_nonneg _)) hsym .mul

theorem sort?_equation {net : Net} {ds : List (Symbol × VarSort)} {p : Place}
    (hp : ds.lookup (place p.id none) = some .int) (htokens : 0 ≤ p.tokens)
    (ht : ∀ t ∈ net.transitions, ds.lookup (tally t.id) = some .int) :
    (equation net p).sort? ds = some .bool := by
  have hshares : ∀ kind : Transition → Bool, ∀ u ∈ shares p (net.transitions.filter kind),
      u.sort? ds = some .int := by
    intro kind u hu
    obtain ⟨t, htk, rfl⟩ := List.mem_map.mp hu
    exact sort?_share (ht t (List.mem_of_mem_filter htk)) p
  have hgained : (Fold.sum.term (.num p.tokens :: shares p (net.transitions.filter
      (0 < ·.delta p.id)))).sort? ds = some .int :=
    Fold.sort?_term .sum (List.forall_mem_cons.mpr ⟨Term.sort?_num htokens, hshares _⟩)
  have hsym : (Term.sym (place p.id none)).sort? ds = some .int := hp
  unfold equation
  dsimp only
  split
  · exact Term.sort?_binary hsym hgained .eq
  · exact Term.sort?_binary hsym
      (Term.sort?_binary hgained (Fold.sort?_term .sum (hshares _)) .sub) .eq

theorem share_value {a : Assignment} {t : Transition} {x : Int} (h : a (tally t.id) = .int x)
    (p : Place) : (share p t).value a = some (.int ((t.delta p.id).natAbs * x)) := by
  have hsym : (Term.sym (tally t.id)).value a = some (.int x) := Term.value_sym h
  unfold share moved
  split
  · next hone => rw [hsym, hone, Int.natCast_one, Int.one_mul]
  · have hnum : (Term.num (t.delta p.id).natAbs).value a = some (.int (t.delta p.id).natAbs) := rfl
    exact Term.value_binary hnum hsym .mul

/-- A sum of changes is what is produced less what is consumed. -/
theorem total_eq_produced_sub_consumed (ts : List Transition) (d x : Transition → Int) :
    total (ts.map fun t => d t * x t) =
      total ((ts.filter (0 < d ·)).map fun t => ((d t).natAbs : Int) * x t) -
        total ((ts.filter (d · < 0)).map fun t => ((d t).natAbs : Int) * x t) := by
  induction ts with
  | nil => rfl
  | cons t ts ih =>
    rw [List.map_cons, total_cons, ih]
    rcases Int.lt_trichotomy (d t) 0 with hneg | hzero | hpos
    · have habs : ((d t).natAbs : Int) = -d t := by omega
      rw [List.filter_cons_of_neg (by simp; omega), List.filter_cons_of_pos (by simpa using hneg),
        List.map_cons, total_cons, habs, Int.neg_mul]
      omega
    · rw [List.filter_cons_of_neg (by simp [hzero]), List.filter_cons_of_neg (by simp [hzero]),
        hzero, Int.zero_mul, Int.zero_add]
    · have habs : ((d t).natAbs : Int) = d t := by omega
      rw [List.filter_cons_of_pos (by simpa using hpos), List.filter_cons_of_neg (by simp; omega),
        List.map_cons, total_cons, habs]
      omega

/-- **The term of a place** says that its tokens are balanced. -/
theorem equation_decides {net : Net} {a : Assignment} {m x : String → Int} {p : Place}
    (hp : a (place p.id none) = .int (m p.id))
    (ht : ∀ t ∈ net.transitions, a (tally t.id) = .int (x t.id)) :
    (equation net p).Decides a (m p.id = p.tokens + net.flow x p.id) := by
  have hvalue : ∀ kind : Transition → Bool, ∀ t ∈ net.transitions.filter kind,
      (share p t).value a = some (.int ((t.delta p.id).natAbs * x t.id)) :=
    fun kind t htk => share_value (ht t (List.mem_of_mem_filter htk)) p
  have hshares : ∀ kind : Transition → Bool,
      (Fold.sum.term (shares p (net.transitions.filter kind))).value a =
        some (.int (total ((net.transitions.filter kind).map fun t =>
          ((t.delta p.id).natAbs : Int) * x t.id))) :=
    fun kind => Term.value_sum (hvalue kind)
  -- the tokens at the beginning are one more summand
  let summand : Option Transition → Term := fun o => o.elim (.num p.tokens) (share p)
  let amount : Option Transition → Int := fun o =>
    o.elim p.tokens fun t => ((t.delta p.id).natAbs : Int) * x t.id
  have hgained : (Fold.sum.term ((none :: (net.transitions.filter
      (0 < ·.delta p.id)).map some).map summand)).value a =
      some (.int (total
        ((none :: (net.transitions.filter (0 < ·.delta p.id)).map some).map amount))) := by
    refine Term.value_sum ?_
    rintro (_ | t) ht
    · rfl
    · exact hvalue (0 < ·.delta p.id) t (by simpa using ht)
  rw [List.map_cons, List.map_map, List.map_cons, List.map_map, total_cons] at hgained
  have hflow : net.flow x p.id = _ :=
    total_eq_produced_sub_consumed net.transitions (·.delta p.id) (x ·.id)
  unfold equation
  dsimp only
  split
  · next hnone =>
    rw [hnone, List.map_nil, total_nil, Int.sub_zero] at hflow
    refine (Term.decides_eq (Term.value_sym hp) hgained rfl).congr ?_
    rw [Value.int.injEq, hflow]
    rfl
  · refine (Term.decides_eq (Term.value_sym hp)
      (Term.value_binary hgained (hshares _) .sub) rfl).congr ?_
    rw [Value.int.injEq, hflow, ← Int.add_sub_assoc]
    rfl

/-! ## The script -/

/-- The variables of the state equation. -/
def unknowns (e : Encoder) : List Symbol :=
  e.symbols none ++ e.tallies

/-- The equations of all places. -/
def equations (e : Encoder) : List Term :=
  e.net.places.map (equation e.net)

/-- The script: the variables, then the equations. -/
def stateScript (e : Encoder) : Script :=
  e.unknowns.flatMap (declareVar · .int) ++ e.equations.map .assert

/-- What is declared with the variables. -/
def stateFrame (e : Encoder) : List (Symbol × VarSort) :=
  e.unknowns.map fun x => (x, .int)

/-- What the script means. -/
def stateMeaning (e : Encoder) : Scopes :=
  ({} : Scopes).extend e.stateFrame (e.unknowns.flatMap (varBounds .int) ++ e.equations)

theorem declareTransitions_eq (h : e.Countable) :
    e.declareTransitions = .ok (e.tallies.flatMap (declareVar · .int)) := by
  have hparts : (e.net.transitions.mapM fun t => do
      return declareVar (← firingCount t.id) .int : Except EncodingError (List Script)) =
      .ok (e.net.transitions.map fun t => declareVar (tally t.id) .int) := by
    refine mapM_eq_pure fun t ht => ?_
    rw [firingCount_ok (h t ht)]
    rfl
  unfold declareTransitions
  rw [hparts, tallies, List.flatMap_map]
  rfl

/-- Variables that count firings are declared only if all names can be written. -/
theorem countable_of_declareTransitions {cs : Script} (h : e.declareTransitions = .ok cs) :
    e.Countable := by
  obtain ⟨parts, hparts, -⟩ := exists_of_bind_ok h
  intro t ht
  obtain ⟨part, hpart⟩ := exists_ok_of_mapM hparts t ht
  obtain ⟨x, hx, -⟩ := exists_of_bind_ok hpart
  by_contra hq
  rw [firingCount, Symbol.firingCount_eq, if_neg hq] at hx
  cases hx

theorem stateEquation_eq (hint : e.encoding = .integer) (hw : e.Writable) (hc : e.Countable) :
    e.stateEquation = .ok (e.equations.map .assert) := by
  rw [stateEquation, hint, equations, List.map_map]
  exact mapM_eq_pure fun p hp => placeEquation_eq hc (hw p hp)

/-- The three parts of the script, one behind the other. -/
theorem stateScript_eq (hint : e.encoding = .integer) {cs ds es : Script}
    (hcs : e.declarePlaces none = .ok cs) (hds : e.declareTransitions = .ok ds)
    (hes : e.stateEquation = .ok es) (hw : e.Writable) (hc : e.Countable) :
    cs ++ ds ++ es = e.stateScript := by
  rw [declarePlaces_eq hw] at hcs
  rw [declareTransitions_eq hc] at hds
  rw [stateEquation_eq hint hw hc] at hes
  cases hcs
  cases hds
  cases hes
  rw [stateScript, unknowns, List.flatMap_append, placeSort, hint]

/-! ## Legality -/

theorem lookup_unknown {x : Symbol} (hx : x ∈ e.unknowns) :
    e.stateFrame.lookup x = some .int := by
  refine lookup_of_forall (List.mem_map_of_mem hx) fun d hd => ?_
  obtain ⟨y, -, rfl⟩ := List.mem_map.mp hd
  rfl

theorem place_mem_unknowns {p : Place} (hp : p ∈ e.net.places) : place p.id none ∈ e.unknowns :=
  List.mem_append_left _ (List.mem_map_of_mem hp)

theorem tally_mem_unknowns {t : Transition} (ht : t ∈ e.net.transitions) :
    tally t.id ∈ e.unknowns :=
  List.mem_append_right _ (List.mem_map_of_mem ht)

theorem sort?_equations (hn : e.net.WellFormed) :
    ∀ t ∈ e.equations, t.sort? e.stateFrame = some .bool := by
  intro t ht
  obtain ⟨p, hp, rfl⟩ := List.mem_map.mp ht
  exact sort?_equation (lookup_unknown (place_mem_unknowns hp)) (hn.tokens_nonneg p hp)
    fun u hu => lookup_unknown (tally_mem_unknowns hu)

theorem covers_stateFrame (hint : e.encoding = .integer) : e.Covers e.stateFrame none := by
  intro p hp
  rw [placeSort, hint]
  exact lookup_unknown (place_mem_unknowns hp)

theorem written_symbols (hn : e.net.WellFormed) (hw : e.Writable) :
    ∀ x ∈ e.symbols none, x.Written := by
  intro x hx
  obtain ⟨p, hp, rfl⟩ := List.mem_map.mp hx
  exact ⟨hw p hp, (hn.place_words _ (List.mem_map_of_mem hp)).inline⟩

theorem written_tallies (hn : e.net.WellFormed) (hc : e.Countable) :
    ∀ x ∈ e.tallies, x.Written := by
  intro x hx
  obtain ⟨t, ht, rfl⟩ := List.mem_map.mp hx
  exact (Symbol.readable_firingCount (hc t ht)
    (hn.transition_words _ (List.mem_map_of_mem ht)).inline).1

theorem written_unknowns (hn : e.net.WellFormed) (hw : e.Writable) (hc : e.Countable) :
    ∀ x ∈ e.unknowns, x.Written :=
  List.forall_mem_append.mpr ⟨written_symbols hn hw, written_tallies hn hc⟩

theorem written_asserts (hn : e.net.WellFormed) (hw : e.Writable) (hc : e.Countable)
    {ts : List Term} (hts : ∀ t ∈ ts, t.sort? e.stateFrame = some .bool) :
    ∀ c ∈ ts.map Command.assert, c.Written := by
  have hframe : ∀ d ∈ e.stateFrame, d.1.Written := by
    intro d hd
    obtain ⟨x, hx, rfl⟩ := List.mem_map.mp hd
    exact written_unknowns hn hw hc x hx
  intro c hc
  obtain ⟨t, ht, rfl⟩ := List.mem_map.mp hc
  exact Term.within_of_sort? hframe (hts t ht)

/-- The script with more assertions over its variables. -/
theorem written_stateScript (hn : e.net.WellFormed) (hw : e.Writable) (hc : e.Countable)
    {ts : List Term} (hts : ∀ t ∈ ts, t.sort? e.stateFrame = some .bool) :
    ∀ c ∈ e.stateScript ++ ts.map .assert, c.Written := by
  rw [stateScript, List.forall_mem_append, List.forall_mem_append]
  exact ⟨⟨within_declareVars (written_unknowns hn hw hc),
    written_asserts hn hw hc (sort?_equations hn)⟩, written_asserts hn hw hc hts⟩

theorem declares_stateScript (ts : List Term) :
    Script.declares (e.stateScript ++ ts.map .assert) = e.unknowns := by
  rw [stateScript, declares_append, declares_append, declares_assert, declares_assert,
    declares_declareVars, List.append_nil, List.append_nil]

theorem pop_not_mem_stateScript (ts : List Term) : .pop ∉ e.stateScript ++ ts.map .assert := by
  intro h
  rw [stateScript, List.mem_append, List.mem_append, List.mem_flatMap, List.mem_map,
    List.mem_map] at h
  rcases h with (⟨x, -, hx⟩ | ⟨t, -, ht⟩) | ⟨t, -, ht⟩
  · rw [declareVar_eq, List.mem_cons, List.mem_map] at hx
    rcases hx with hx | ⟨t, -, ht⟩
    · cases hx
    · cases ht
  · cases ht
  · cases ht

/-- **Names of a legal text**: all apart, and no place named by a word of the language. -/
theorem names_of_ofText? (hn : e.net.WellFormed) (hw : e.Writable) (hc : e.Countable)
    {ts : List Term} (hts : ∀ t ∈ ts, t.sort? e.stateFrame = some .bool) {s : Scopes}
    (h : Scopes.ofText? (Script.render (e.stateScript ++ ts.map .assert)) = some s) :
    e.Apart ∧ ∀ p ∈ e.net.places, Declarable p.id := by
  have hwritten := written_stateScript hn hw hc hts
  obtain ⟨hnodup, hdecl⟩ := Scopes.declares_of_ofText?
    (fun c hc => (hwritten c hc).mono And.left) (pop_not_mem_stateScript ts) h
  rw [declares_stateScript] at hnodup hdecl
  exact ⟨apart_iff.mpr hnodup, fun p hp => hdecl _ (place_mem_unknowns hp)⟩

theorem declarable_unknowns (h : ∀ p ∈ e.net.places, Declarable p.id) :
    ∀ x ∈ e.unknowns, Declarable x.name := by
  intro x hx
  rcases List.mem_append.mp hx with hx | hx
  · obtain ⟨p, hp, rfl⟩ := List.mem_map.mp hx
    exact h p hp
  · obtain ⟨t, -, rfl⟩ := List.mem_map.mp hx
    exact Symbol.declarable_firingCount t.id

/-- **The meaning of the script**, where the names are legal. -/
theorem means_stateScript (hn : e.net.WellFormed) (hw : e.Writable) (hc : e.Countable)
    (hapart : e.Apart) (hdecl : ∀ p ∈ e.net.places, Declarable p.id) {ts : List Term}
    (hts : ∀ t ∈ ts, t.sort? e.stateFrame = some .bool) :
    Script.Means (e.stateScript ++ ts.map .assert) (e.stateMeaning.extend [] ts) := by
  have hnames := declarable_unknowns hdecl
  have hvars : ({} : Scopes).acceptAll (e.unknowns.flatMap (declareVar · .int)) =
      some (({} : Scopes).extend e.stateFrame (e.unknowns.flatMap (varBounds .int))) :=
    acceptAll_declareVars .int (apart_iff.mp hapart) (by simp [Scopes.declared])
      fun x hx => (hnames x hx).1
  refine ⟨fun x τ hx => ?_, ?_⟩
  · have hmem : x ∈ e.unknowns := by
      rw [← declares_stateScript ts]
      exact Script.mem_declares.mpr ⟨τ, hx⟩
    have hwritten := written_unknowns hn hw hc x hmem
    exact Symbol.readable_of_declarable hwritten.1 hwritten.2 (hnames x hmem)
  · rw [stateScript, Scopes.acceptAll_append, Scopes.acceptAll_append, hvars, Option.bind_some,
      Scopes.acceptAll_assert (by simpa using sort?_equations hn),
      Option.bind_some, Scopes.extend_extend, List.append_nil]
    refine Scopes.acceptAll_assert fun t ht => ?_
    simpa using hts t ht

/-! ## Models -/

theorem stateMeaning_declared : e.stateMeaning.declared = e.stateFrame := by
  simp [stateMeaning]

theorem stateMeaning_asserted :
    e.stateMeaning.asserted = e.unknowns.flatMap (varBounds .int) ++ e.equations := by
  simp [stateMeaning]

/-- **The models of the script are the solutions of the system.** -/
theorem model_iff (hn : e.net.WellFormed) {a : Assignment} {v : Symbol → Int}
    (ha : ∀ x ∈ e.unknowns, a x = .int (v x)) :
    e.stateMeaning.Model a ↔ e.net.Solves (fun p => v (place p none)) fun t => v (tally t) := by
  have hsorts : ∀ d ∈ e.stateFrame, (a d.1).sort = d.2 := by
    intro d hd
    obtain ⟨x, hx, rfl⟩ := List.mem_map.mp hd
    rw [ha x hx]
    rfl
  have hbounds : (∀ t ∈ e.unknowns.flatMap (varBounds .int), t.Holds a) ↔
      ∀ x ∈ e.unknowns, 0 ≤ v x := by
    rw [List.forall_mem_flatMap]
    refine forall₂_congr fun x hx => ?_
    rw [varBounds, List.forall_mem_singleton]
    exact (Term.decides_ge (Term.value_sym (ha x hx)) rfl).holds_iff
  have hequations : (∀ t ∈ e.equations, t.Holds a) ↔ ∀ p ∈ e.net.places, v (place p.id none) =
      e.net.initial p.id + e.net.flow (fun t => v (tally t)) p.id := by
    rw [equations, List.forall_mem_map]
    refine forall₂_congr fun p hp => ?_
    have hdec := equation_decides (m := fun p => v (place p none)) (x := fun t => v (tally t))
      (ha _ (place_mem_unknowns hp)) fun t ht => ha _ (tally_mem_unknowns ht)
    rw [hdec.holds_iff, hn.initial_eq hp]
  unfold Scopes.Model
  rw [stateMeaning_declared, stateMeaning_asserted, List.forall_mem_append, hbounds, hequations]
  constructor
  · rintro ⟨-, hnonneg, hbalance⟩
    exact ⟨fun p hp => hnonneg _ (place_mem_unknowns hp),
      fun t ht => hnonneg _ (tally_mem_unknowns ht), hbalance⟩
  · intro hsolves
    refine ⟨hsorts, fun x hx => ?_, hsolves.balance⟩
    rcases List.mem_append.mp hx with hx | hx
    · obtain ⟨p, hp, rfl⟩ := List.mem_map.mp hx
      exact hsolves.tokens p hp
    · obtain ⟨u, hu, rfl⟩ := List.mem_map.mp hx
      exact hsolves.firings u hu

open Classical in
/-- Where names are apart, tokens and firings can be chosen freely. -/
theorem exists_valuation (h : e.Apart) (m x : String → Int) : ∃ v : Symbol → Int,
    (∀ p ∈ e.net.places, v (place p.id none) = m p.id) ∧
      ∀ t ∈ e.net.transitions, v (tally t.id) = x t.id := by
  have hdisjoint := (List.nodup_append.mp (apart_iff.mp h)).2.2
  refine ⟨fun y => if y ∈ e.symbols none then m y.name
    else if ht : ∃ t, y = tally t then x ht.choose else 0, fun p hp => ?_, fun t ht => ?_⟩
  · exact if_pos (List.mem_map_of_mem hp)
  · have hnot : tally t.id ∉ e.symbols none := fun hmem =>
      hdisjoint _ hmem _ (List.mem_map_of_mem ht) rfl
    have hex : ∃ u, tally t.id = tally u := ⟨t.id, rfl⟩
    dsimp only
    rw [if_neg hnot, dif_pos hex, ← tally_inj hex.choose_spec]

theorem model_extend_iff {a : Assignment} {t : Term} :
    (e.stateMeaning.extend [] [t]).Model a ↔ e.stateMeaning.Model a ∧ t.Holds a := by
  unfold Scopes.Model
  rw [Scopes.extend_declared, Scopes.extend_asserted, List.append_nil, List.forall_mem_append,
    List.forall_mem_singleton, and_assoc]

/-- **The test of the state equation** asks for a solution that is in the goal. -/
theorem satisfiable_iff_solvable (hn : e.net.WellFormed) (hapart : e.Apart) {f : Formula} {t : Term}
    (ht : ∀ {a m}, e.ShowsTokens a none m → t.value a = some (.bool (f.holds m))) :
    (e.stateMeaning.extend [] [t]).Satisfiable ↔
      ∃ (m : Marking) (x : String → Int), e.net.Solves (fun p => m p) x ∧ f.holds m = true := by
  constructor
  · rintro ⟨a, ha⟩
    obtain ⟨hmodel, hgoal⟩ := model_extend_iff.mp ha
    have hint : ∀ x, ∃ n, x ∈ e.unknowns → a x = .int n := by
      intro x
      cases hx : a x with
      | int n => exact ⟨n, fun _ => rfl⟩
      | bool b =>
        refine ⟨0, fun hmem => ?_⟩
        have hsort := hmodel.1 (x, .int) (stateMeaning_declared ▸ List.mem_map_of_mem hmem)
        rw [hx] at hsort
        cases hsort
    choose v hv using hint
    have hsolves := (model_iff hn hv).mp hmodel
    have htokens : ∀ p ∈ e.net.places, v (place p.id none) = (v (place p.id none)).toNat :=
      fun p hp => (Int.toNat_of_nonneg (hsolves.tokens p hp)).symm
    refine ⟨fun p => (v (place p none)).toNat, fun t => v (tally t),
      hsolves.congr htokens fun _ _ => rfl, ?_⟩
    have hshows : e.ShowsTokens a none fun p => (v (place p none)).toNat := fun p hp =>
      (hv _ (place_mem_unknowns hp)).trans (congrArg Value.int (htokens p hp))
    rw [Term.Holds, ht hshows] at hgoal
    simpa using hgoal
  · rintro ⟨m, x, hsolves, hm⟩
    obtain ⟨v, hplaces, htallies⟩ := exists_valuation hapart (fun p => m p) x
    refine ⟨fun y => .int (v y), model_extend_iff.mpr ⟨(model_iff hn fun _ _ => rfl).mpr ?_, ?_⟩⟩
    · exact hsolves.congr (fun p hp => (hplaces p hp).symm) fun t ht => (htallies t ht).symm
    · rw [Term.Holds, ht fun p hp => congrArg Value.int (hplaces p hp), hm]

end Encoder

end PetriReach
