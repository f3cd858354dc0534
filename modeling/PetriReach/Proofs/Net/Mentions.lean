import Mathlib.Data.List.Induction
import Mathlib.Data.List.Sort
import PetriReach.Proofs.Net.Lines

/-!
# Mentions

The declarations of a net may mention its parts any number of times, in any order. The net has each
part once, in the order of first mentions, and the last mention of a number counts.

* `Net.Described`: the net that a list of declarations describes.
* `Net.Described.declare`: one more declaration.
* `Net.Described.unique`: declarations describe one net.
* `Net.parse_eq_ok_iff_described`: the net that is read is the one that the text describes.
-/

namespace PetriReach

namespace Declaration

/-- The name that a declaration gives to the net. -/
def netName? : Declaration → Option String
  | .net id => some id
  | _ => none

/-- The transition that a declaration is about. -/
def transitionName? : Declaration → Option String
  | .transition id _ _ => some id
  | _ => none

/-- The places that a declaration mentions, in order. -/
def mentions : Declaration → List String
  | .net _ => []
  | .place id _ => [id]
  | .transition _ inputs outputs => (inputs ++ outputs).map (·.1)

/-- The tokens that a declaration gives to the place `p`. -/
def tokens? (p : String) : Declaration → Option Nat
  | .place id tokens => if id = p then some tokens else none
  | _ => none

/-- The input arcs that a declaration gives to the transition `t`, in order. -/
def inputsOf (t : String) : Declaration → List (String × Nat)
  | .transition id inputs _ => if id = t then inputs else []
  | _ => []

/-- The output arcs that a declaration gives to the transition `t`, in order. -/
def outputsOf (t : String) : Declaration → List (String × Nat)
  | .transition id _ outputs => if id = t then outputs else []
  | _ => []

/-- All arcs that a declaration gives to the transition `t`, in order. -/
def arcsOf (t : String) (d : Declaration) : List (String × Nat) :=
  d.inputsOf t ++ d.outputsOf t

end Declaration

/-- The value of the last entry for a key. -/
def lastValue (entries : List (String × Nat)) (key : String) : Option Nat :=
  entries.reverse.lookup key

/-- The transition has the arcs of these lists: the last weight of a place counts, and places are
connected in the order of their first arc. -/
structure Transition.Joined (t : Transition) (inputs outputs arcs : List (String × Nat)) :
    Prop where
  pre : ∀ p, t.pre.lookup p = lastValue inputs p
  post : ∀ p, t.post.lookup p = lastValue outputs p
  connected : t.connected = (arcs.map (·.1)).eraseDups

/-- The net is what the declarations say of it: parts stand in the order of first mentions, names,
tokens and weights are those of last mentions. -/
structure Net.Described (n : Net) (ds : List Declaration) : Prop where
  id : n.id = ((ds.filterMap Declaration.netName?).getLast?).getD ""
  places : n.places.map (·.id) = (ds.flatMap Declaration.mentions).eraseDups
  tokens : ∀ p ∈ n.places, p.tokens = ((ds.reverse.findSome? (·.tokens? p.id)).getD 0 : Nat)
  transitions : n.transitions.map (·.id) = (ds.filterMap Declaration.transitionName?).eraseDups
  arcs : ∀ t ∈ n.transitions, t.Joined (ds.flatMap (·.inputsOf t.id))
    (ds.flatMap (·.outputsOf t.id)) (ds.flatMap (·.arcsOf t.id))

/-! ## Names -/

/-- One more name, in its place unless it was there before. -/
theorem eraseDups_concat (xs : List String) (x : String) :
    (xs ++ [x]).eraseDups = if x ∈ xs then xs.eraseDups else xs.eraseDups ++ [x] := by
  rw [List.eraseDups_append]
  by_cases hx : x ∈ xs
  · simp [hx, List.removeAll]
  · simp [hx, List.removeAll, List.eraseDups_cons]

/-- What keeps names in the order of first mentions: a name is put behind them if it is new. -/
theorem ite_concat_eq_eraseDups {P : Prop} [Decidable P] {xs names : List String} {x : String}
    (h : names = xs.eraseDups) (hP : P ↔ x ∈ names) :
    (if P then names else names ++ [x]) = (xs ++ [x]).eraseDups := by
  have hmem : P ↔ x ∈ xs := by rw [hP, h, List.mem_eraseDups]
  rw [eraseDups_concat, h]
  simp only [hmem]

theorem nodup_eraseDups (xs : List String) : xs.eraseDups.Nodup := by
  induction xs using List.reverseRecOn with
  | nil => exact List.nodup_nil
  | append_singleton xs x ih =>
    rw [eraseDups_concat]
    by_cases hx : x ∈ xs
    · rw [if_pos hx]
      exact ih
    · rw [if_neg hx]
      exact Net.nodup_concat ih (mt List.mem_eraseDups.mp hx)

/-- A name that is used once stands at its first position. -/
theorem idxOf?_eq_some_iff_of_nodup {names : List String} (h : names.Nodup) {p : String}
    {i : Nat} : names.idxOf? p = some i ↔ names[i]? = some p := by
  rw [List.idxOf?_eq_some_iff, List.getElem?_eq_some_iff]
  refine exists_congr fun hi => and_iff_left_of_imp fun hp j hj hsame => ?_
  have hij := h.getElem_inj_iff.mp (hsame.trans hp.symm)
  omega

/-- Where names are distinct, everything else stays as it is. -/
theorem NameMap.Points.update_eq {α : Type} {m : NameMap} {xs : List α} {name : α → String}
    (h : m.Points (xs.map name)) (hnodup : (xs.map name).Nodup) (p : String) (f : α → α) :
    m.update xs p f = xs.map fun x => if name x = p then f x else x := by
  unfold NameMap.update
  split
  · next i hi =>
    rw [h.lookup] at hi
    refine List.ext_getElem? fun j => ?_
    rw [List.getElem?_modify, List.getElem?_map]
    cases hj : xs[j]? with
    | none => rfl
    | some x =>
      -- only one position has the name
      have hiff : i = j ↔ name x = p := by
        rw [← Option.some_inj, ← hi, idxOf?_eq_some_iff_of_nodup hnodup, List.getElem?_map, hj]
        exact Option.some_inj
      simp only [hiff]
      rfl
  · next hi =>
    rw [h.lookup, List.idxOf?_eq_none_iff] at hi
    have hsame : ∀ x ∈ xs, (if name x = p then f x else x) = x := by
      intro x hx
      refine if_neg fun hname => hi ?_
      rw [← hname]
      exact List.mem_map_of_mem hx
    rw [List.map_congr_left hsame, List.map_id']

/-- Sets arcs on one side, one by one. -/
def Transition.setArcs (t : Transition) (side : ArcSide) (arcs : List (String × Nat)) :
    Transition :=
  arcs.foldl (fun t a => t.setArc side a.1 a.2) t

namespace Net

variable {n : Net}

theorem map_places_addPlace (n : Net) (id : String) {xs : List String}
    (h : n.places.map (·.id) = xs.eraseDups) :
    (n.addPlace id).places.map (·.id) = (xs ++ [id]).eraseDups := by
  rw [places_addPlace, apply_ite (List.map _), List.map_append]
  exact ite_concat_eq_eraseDups h (hasPlace_iff.trans List.mem_map.symm)

theorem map_transitions_addTransition (n : Net) (id : String) {xs : List String}
    (h : n.transitions.map (·.id) = xs.eraseDups) :
    (n.addTransition id).transitions.map (·.id) = (xs ++ [id]).eraseDups := by
  rw [transitions_addTransition, apply_ite (List.map _), List.map_append]
  exact ite_concat_eq_eraseDups h hasTransition_iff

theorem places_setTokens (n : Net) (id : String)
    (hnodup : ((n.addPlace id).places.map (·.id)).Nodup) (k : Int) : (n.setTokens id k).places =
      (n.addPlace id).places.map fun p => if p.id = id then { p with tokens := k } else p :=
  (n.addPlace id).points_places.update_eq hnodup id _

theorem transitions_modifyTransition (n : Net) (hnodup : (n.transitions.map (·.id)).Nodup)
    (id : String) {f : Transition → Transition} (hf : ∀ t, (f t).id = t.id) :
    (n.modifyTransition id f hf).transitions =
      n.transitions.map fun t => if t.id = id then f t else t :=
  n.points_transitions.update_eq hnodup id f

theorem id_addPlace (n : Net) (id : String) : (n.addPlace id).id = n.id := by
  unfold addPlace
  split <;> rfl

/-! ## Arcs -/

section Arcs

variable {id : String} {side : ArcSide}

theorem id_addArcs (n : Net) (arcs : List (String × Nat)) :
    (n.addArcs id side arcs).id = n.id := by
  induction arcs generalizing n with
  | nil => rfl
  | cons a arcs ih =>
    rw [addArcs, List.foldl_cons]
    exact (ih _).trans (n.id_addPlace a.1)

theorem map_places_addArcs {xs : List String} (arcs : List (String × Nat))
    (h : n.places.map (·.id) = xs.eraseDups) :
    (n.addArcs id side arcs).places.map (·.id) = (xs ++ arcs.map (·.1)).eraseDups := by
  induction arcs generalizing n xs with
  | nil =>
    rw [List.map_nil, List.append_nil]
    exact h
  | cons a arcs ih =>
    rw [addArcs, List.foldl_cons, List.map_cons, List.append_cons]
    exact ih (n.map_places_addPlace a.1 h)

theorem Has.addArcs {p : String} (h : n.Has p) (arcs : List (String × Nat)) :
    (n.addArcs id side arcs).Has p := by
  induction arcs generalizing n with
  | nil => exact h
  | cons a arcs ih =>
    rw [Net.addArcs, List.foldl_cons]
    exact ih (h.addPlace a.1)

theorem mem_places_addArcs {arcs : List (String × Nat)} {p : Place}
    (h : p ∈ (n.addArcs id side arcs).places) : p ∈ n.places ∨ p.tokens = 0 ∧ ¬ n.Has p.id := by
  induction arcs generalizing n with
  | nil => exact .inl h
  | cons a arcs ih =>
    rw [addArcs, List.foldl_cons] at h
    rcases ih h with h | ⟨hzero, hnew⟩
    · rcases mem_places_addPlace h with h | ⟨rfl, hnew⟩
      · exact .inl h
      · exact .inr ⟨rfl, hnew⟩
    · exact .inr ⟨hzero, fun hold => hnew (hold.addPlace a.1)⟩

theorem map_transitions_addArcs (n : Net) (arcs : List (String × Nat)) :
    (n.addArcs id side arcs).transitions.map (·.id) = n.transitions.map (·.id) := by
  induction arcs generalizing n with
  | nil => rfl
  | cons a arcs ih =>
    rw [addArcs, List.foldl_cons]
    refine (ih _).trans ((map_transitions_modifyTransition _ id _).trans ?_)
    rw [transitions_addPlace]

/-- Only the transition of that name is changed, arc by arc. -/
theorem transitions_addArcs (n : Net) (hnodup : (n.transitions.map (·.id)).Nodup)
    (arcs : List (String × Nat)) : (n.addArcs id side arcs).transitions =
      n.transitions.map fun t => if t.id = id then t.setArcs side arcs else t := by
  induction arcs generalizing n with
  | nil =>
    show n.transitions = _
    simp [Transition.setArcs]
  | cons a arcs ih =>
    have hadd : ((n.addPlace a.1).transitions.map (·.id)).Nodup := by
      rwa [transitions_addPlace]
    have hids := (n.addPlace a.1).map_transitions_modifyTransition id
      (Transition.id_setArc side a.1 a.2)
    rw [addArcs, List.foldl_cons]
    refine (ih _ (hids ▸ hadd)).trans ?_
    rw [transitions_modifyTransition _ hadd, transitions_addPlace, List.map_map]
    refine List.map_congr_left fun t _ => ?_
    by_cases ht : t.id = id
    · simp only [Function.comp_apply, if_pos ht, Transition.id_setArc]
      rfl
    · simp only [Function.comp_apply, if_neg ht]

end Arcs

end Net

theorem lastValue_concat (entries : List (String × Nat)) (a : String × Nat) (q : String) :
    lastValue (entries ++ [a]) q = if q = a.1 then some a.2 else lastValue entries q := by
  rw [lastValue, List.reverse_append]
  exact lookup_cons_eq a entries.reverse q

namespace Transition

variable {t : Transition} {inputs outputs arcs : List (String × Nat)}

theorem pre_connect (t : Transition) (p : String) : (t.connect p).pre = t.pre := by
  unfold connect
  split <;> rfl

theorem post_connect (t : Transition) (p : String) : (t.connect p).post = t.post := by
  unfold connect
  split <;> rfl

theorem connected_connect (t : Transition) (p : String) {xs : List String}
    (h : t.connected = xs.eraseDups) : (t.connect p).connected = (xs ++ [p]).eraseDups := by
  rw [connect, apply_ite connected]
  exact ite_concat_eq_eraseDups h Iff.rfl

theorem joined_nil (id : String) : Joined { id } [] [] [] :=
  ⟨fun _ => rfl, fun _ => rfl, rfl⟩

theorem id_setArcs (t : Transition) (side : ArcSide) (arcs : List (String × Nat)) :
    (t.setArcs side arcs).id = t.id := by
  induction arcs generalizing t with
  | nil => rfl
  | cons a arcs ih => exact (ih _).trans (id_setArc side a.1 a.2 t)

theorem Joined.setInput (h : t.Joined inputs outputs arcs) (a : String × Nat) :
    (t.setArc .input a.1 a.2).Joined (inputs ++ [a]) outputs (arcs ++ [a]) := by
  refine ⟨fun p => ?_, fun p => ?_, ?_⟩
  · rw [setArc, pre_connect, NameMap.lookup_set, h.pre, lastValue_concat]
  · rw [setArc, post_connect, h.post]
  · rw [List.map_append]
    exact connected_connect _ a.1 h.connected

theorem Joined.setOutput (h : t.Joined inputs outputs arcs) (a : String × Nat) :
    (t.setArc .output a.1 a.2).Joined inputs (outputs ++ [a]) (arcs ++ [a]) := by
  refine ⟨fun p => ?_, fun p => ?_, ?_⟩
  · rw [setArc, pre_connect, h.pre]
  · rw [setArc, post_connect, NameMap.lookup_set, h.post, lastValue_concat]
  · rw [List.map_append]
    exact connected_connect _ a.1 h.connected

theorem Joined.setInputs (h : t.Joined inputs outputs arcs) (more : List (String × Nat)) :
    (t.setArcs .input more).Joined (inputs ++ more) outputs (arcs ++ more) := by
  induction more generalizing t inputs arcs with
  | nil => simpa [setArcs] using h
  | cons a more ih =>
    rw [setArcs, List.foldl_cons, List.append_cons inputs, List.append_cons arcs]
    exact ih (h.setInput a)

theorem Joined.setOutputs (h : t.Joined inputs outputs arcs) (more : List (String × Nat)) :
    (t.setArcs .output more).Joined inputs (outputs ++ more) (arcs ++ more) := by
  induction more generalizing t outputs arcs with
  | nil => simpa [setArcs] using h
  | cons a more ih =>
    rw [setArcs, List.foldl_cons, List.append_cons outputs, List.append_cons arcs]
    exact ih (h.setOutput a)

end Transition

/-! ## Declarations -/

namespace Declaration

variable {ds : List Declaration} {p : String}

/-- A place with tokens is mentioned. -/
theorem mem_mentions_of_tokens? {d : Declaration} {k : Nat} (h : d.tokens? p = some k) :
    p ∈ d.mentions := by
  cases d with
  | net id => cases h
  | transition id inputs outputs => cases h
  | place id tokens =>
    by_cases hid : id = p
    · exact List.mem_singleton.mpr hid.symm
    · rw [tokens?, if_neg hid] at h
      cases h

/-- A place without mention has no tokens. -/
theorem findSome?_tokens? (h : p ∉ ds.flatMap mentions) :
    ds.reverse.findSome? (·.tokens? p) = none := by
  rw [List.findSome?_eq_none_iff]
  intro d hd
  cases hk : d.tokens? p with
  | none => rfl
  | some k =>
    exact absurd (List.mem_flatMap.mpr ⟨d, List.mem_reverse.mp hd, mem_mentions_of_tokens? hk⟩) h

/-- A transition without mention has no arcs. -/
theorem arcs_of_not_mem {t : String} (h : t ∉ ds.filterMap transitionName?) :
    ds.flatMap (·.inputsOf t) = [] ∧ ds.flatMap (·.outputsOf t) = [] ∧
      ds.flatMap (·.arcsOf t) = [] := by
  have hd : ∀ d ∈ ds, d.inputsOf t = [] ∧ d.outputsOf t = [] := by
    intro d hd
    cases d with
    | net id => exact ⟨rfl, rfl⟩
    | place id tokens => exact ⟨rfl, rfl⟩
    | transition id inputs outputs =>
      have hid : id ≠ t := by
        rintro rfl
        exact h (List.mem_filterMap.mpr ⟨_, hd, rfl⟩)
      exact ⟨if_neg hid, if_neg hid⟩
  refine ⟨List.flatMap_eq_nil_iff.mpr fun d h => (hd d h).1,
    List.flatMap_eq_nil_iff.mpr fun d h => (hd d h).2, List.flatMap_eq_nil_iff.mpr fun d h => ?_⟩
  rw [arcsOf, (hd d h).1, (hd d h).2]
  rfl

end Declaration

namespace Net

variable {n : Net} {ds : List Declaration}

theorem described_empty : Described {} [] :=
  ⟨rfl, rfl, by simp, rfl, by simp⟩

theorem Described.not_mem (h : n.Described ds) {p : String} (hp : ¬ n.Has p) :
    p ∉ ds.flatMap Declaration.mentions := by
  rw [← List.mem_eraseDups, ← h.places, List.mem_map]
  exact hp

/-- The tokens of a place are those that were there before, or none if it is new. -/
theorem Described.tokens_eq (h : n.Described ds) {p : Place}
    (hp : p ∈ n.places ∨ p.tokens = 0 ∧ ¬ n.Has p.id) :
    p.tokens = ((ds.reverse.findSome? (·.tokens? p.id)).getD 0 : Nat) := by
  rcases hp with hp | ⟨hzero, hnew⟩
  · exact h.tokens p hp
  · rw [hzero, Declaration.findSome?_tokens? (h.not_mem hnew)]
    rfl

/-- A declaration of the name. -/
theorem Described.name (h : n.Described ds) (id : String) :
    (n.declare (.net id)).Described (ds ++ [.net id]) where
  id := by
    rw [List.filterMap_append]
    exact (congrArg (Option.getD · "") List.getLast?_concat).symm
  places := by simpa [declare, Declaration.mentions] using h.places
  tokens p hp := by
    rw [List.reverse_append]
    exact h.tokens p hp
  transitions := by
    simpa [declare, List.filterMap_cons, Declaration.transitionName?] using h.transitions
  arcs t ht := by
    simpa [Declaration.inputsOf, Declaration.outputsOf, Declaration.arcsOf] using h.arcs t ht

/-- A declaration of a place. -/
theorem Described.place (h : n.Described ds) (id : String) (k : Nat) :
    (n.declare (.place id k)).Described (ds ++ [.place id k]) where
  id := by
    have hid : (n.setTokens id k).id = n.id := n.id_addPlace id
    simpa [declare, Declaration.netName?] using hid.trans h.id
  places := by
    rw [List.flatMap_append, List.flatMap_singleton]
    exact (n.map_places_setTokens id k).trans (n.map_places_addPlace id h.places)
  tokens p hp := by
    have hnodup : ((n.addPlace id).places.map (·.id)).Nodup := by
      rw [n.map_places_addPlace id h.places]
      exact nodup_eraseDups _
    rw [declare, places_setTokens n id hnodup] at hp
    obtain ⟨q, hq, rfl⟩ := List.mem_map.mp hp
    rw [List.reverse_append, List.reverse_singleton, List.singleton_append, List.findSome?_cons]
    by_cases hid : q.id = id
    · simp [hid, Declaration.tokens?]
    · simp only [if_neg hid, Declaration.tokens?, if_neg (Ne.symm hid)]
      rcases mem_places_addPlace hq with hq | ⟨rfl, -⟩
      · exact h.tokens q hq
      · exact absurd rfl hid
  transitions := by
    have hids : (n.setTokens id k).transitions = n.transitions := n.transitions_addPlace id
    simpa [declare, hids, List.filterMap_cons, Declaration.transitionName?] using h.transitions
  arcs t ht := by
    have hids : (n.setTokens id k).transitions = n.transitions := n.transitions_addPlace id
    rw [declare, hids] at ht
    simpa [Declaration.inputsOf, Declaration.outputsOf, Declaration.arcsOf] using h.arcs t ht

theorem id_addTransition (n : Net) (id : String) : (n.addTransition id).id = n.id := by
  unfold addTransition
  split <;> rfl

/-- The places after a declaration of a transition: new ones are empty. -/
theorem mem_places_declare {id : String} {inputs outputs : List (String × Nat)} {p : Place}
    (h : p ∈ (n.declare (.transition id inputs outputs)).places) :
    p ∈ n.places ∨ p.tokens = 0 ∧ ¬ n.Has p.id := by
  have hkeep : ∀ q, n.Has q → (n.addTransition id).Has q := by
    intro q hq
    unfold Has
    rw [places_addTransition]
    exact hq
  rcases mem_places_addArcs h with h | ⟨hzero, hnew⟩
  · rcases mem_places_addArcs h with h | ⟨hzero, hnew⟩
    · rw [places_addTransition] at h
      exact .inl h
    · exact .inr ⟨hzero, fun hold => hnew (hkeep _ hold)⟩
  · exact .inr ⟨hzero, fun hold => hnew ((hkeep _ hold).addArcs inputs)⟩

/-- The transitions after a declaration: the one that it is about has its inputs and then its
outputs set. -/
theorem transitions_declare (n : Net) (id : String) (inputs outputs : List (String × Nat))
    (hnodup : ((n.addTransition id).transitions.map (·.id)).Nodup) :
    (n.declare (.transition id inputs outputs)).transitions =
      (n.addTransition id).transitions.map fun t =>
        if t.id = id then (t.setArcs .input inputs).setArcs .output outputs else t := by
  have hinputs :
      (((n.addTransition id).addArcs id .input inputs).transitions.map (·.id)).Nodup := by
    rwa [map_transitions_addArcs]
  rw [declare, transitions_addArcs _ hinputs, transitions_addArcs _ hnodup, List.map_map]
  refine List.map_congr_left fun t _ => ?_
  by_cases ht : t.id = id
  · simp only [Function.comp_apply, if_pos ht, Transition.id_setArcs]
  · simp only [Function.comp_apply, if_neg ht]

/-- A declaration of a transition. -/
theorem Described.transition (h : n.Described ds) (id : String)
    (inputs outputs : List (String × Nat)) :
    (n.declare (.transition id inputs outputs)).Described
      (ds ++ [.transition id inputs outputs]) where
  id := by
    rw [declare, id_addArcs, id_addArcs, id_addTransition]
    simpa [Declaration.netName?] using h.id
  places := by
    have hplaces : (n.addTransition id).places.map (·.id) =
        (ds.flatMap Declaration.mentions).eraseDups := by rw [places_addTransition, h.places]
    rw [List.flatMap_append, List.flatMap_singleton, Declaration.mentions, List.map_append,
      ← List.append_assoc]
    exact map_places_addArcs outputs (map_places_addArcs inputs hplaces)
  tokens p hp := by
    rw [List.reverse_append]
    exact h.tokens_eq (mem_places_declare hp)
  transitions := by
    rw [declare, map_transitions_addArcs, map_transitions_addArcs, List.filterMap_append]
    exact n.map_transitions_addTransition id h.transitions
  arcs t ht := by
    have hnodup : ((n.addTransition id).transitions.map (·.id)).Nodup := by
      rw [n.map_transitions_addTransition id h.transitions]
      exact nodup_eraseDups _
    rw [transitions_declare n id inputs outputs hnodup] at ht
    obtain ⟨u, hu, rfl⟩ := List.mem_map.mp ht
    -- what was there before, or nothing if the transition is new
    have hbefore : u.Joined (ds.flatMap (·.inputsOf u.id)) (ds.flatMap (·.outputsOf u.id))
        (ds.flatMap (·.arcsOf u.id)) := by
      rcases mem_transitions_addTransition hu with hu | ⟨rfl, hnew⟩
      · exact h.arcs u hu
      · rw [h.transitions, List.mem_eraseDups] at hnew
        obtain ⟨hin, hout, harcs⟩ := Declaration.arcs_of_not_mem hnew
        simp only [hin, hout, harcs]
        exact Transition.joined_nil id
    by_cases hid : u.id = id
    · have hafter := (hbefore.setInputs inputs).setOutputs outputs
      simp only [if_pos hid, Transition.id_setArcs]
      simpa [Declaration.inputsOf, Declaration.outputsOf, Declaration.arcsOf, hid] using hafter
    · simp only [if_neg hid]
      simpa [Declaration.inputsOf, Declaration.outputsOf, Declaration.arcsOf, Ne.symm hid]
        using hbefore

/-- **One more declaration.** -/
theorem Described.declare (h : n.Described ds) (d : Declaration) :
    (n.declare d).Described (ds ++ [d]) := by
  cases d with
  | net id => exact h.name id
  | place id tokens => exact h.place id tokens
  | transition id inputs outputs => exact h.transition id inputs outputs

/-- Declarations one after another. -/
theorem Described.declareAll (h : n.Described ds) (more : List Declaration) :
    (more.foldl Net.declare n).Described (ds ++ more) := by
  induction more generalizing n ds with
  | nil => simpa using h
  | cons d more ih =>
    rw [List.foldl_cons, List.append_cons]
    exact ih (h.declare d)

/-! ## The net that is described -/

end Net

namespace NameMap

theorem Sorted.lookup_eq_some_iff {m : NameMap} (h : m.Sorted) {a : String × Nat} :
    m.lookup a.1 = some a.2 ↔ a ∈ m :=
  ⟨mem_of_lookup, h.lookup_eq⟩

theorem Sorted.ext {m m' : NameMap} (h : m.Sorted) (h' : m'.Sorted)
    (hl : ∀ p, m.lookup p = m'.lookup p) : m = m' := by
  have hasymm : ∀ a b : String × Nat, a.1 < b.1 → b.1 < a.1 → a = b := by
    intro a b hab hba
    exact absurd (String.lt_trans hab hba) (String.lt_irrefl _)
  have : Std.Antisymm fun a b : String × Nat => a.1 < b.1 := ⟨hasymm⟩
  have : Std.Irrefl fun a b : String × Nat => a.1 < b.1 := ⟨fun a => String.lt_irrefl a.1⟩
  refine List.Pairwise.eq_of_mem_iff h h' fun a => ?_
  rw [← h.lookup_eq_some_iff, ← h'.lookup_eq_some_iff, hl]

/-- A list has one index. -/
theorem Points.unique {m m' : NameMap} {names : List String} (h : m.Points names)
    (h' : m'.Points names) : m = m' :=
  h.sorted.ext h'.sorted fun p => (h.lookup p).trans (h'.lookup p).symm

end NameMap

/-- Elements that agree on their names agree on all that the names determine. -/
theorem map_eq_of_map_eq {α β γ : Type} {f : α → β} {F : α → γ} {xs ys : List α}
    (h : xs.map f = ys.map f) (hF : ∀ x ∈ xs, ∀ y ∈ ys, f x = f y → F x = F y) :
    xs.map F = ys.map F := by
  induction xs generalizing ys with
  | nil =>
    obtain rfl : ys = [] := List.map_eq_nil_iff.mp h.symm
    rfl
  | cons x xs ih =>
    obtain ⟨y, ys, rfl, hy, hys⟩ := List.map_eq_cons_iff.mp h.symm
    rw [List.map_cons, List.map_cons, hF x List.mem_cons_self y List.mem_cons_self hy.symm]
    refine congrArg _ (ih hys.symm fun u hu v hv => ?_)
    exact hF u (List.mem_cons_of_mem x hu) v (List.mem_cons_of_mem y hv)

theorem eq_of_map_eq {α β : Type} {f : α → β} {xs ys : List α} (h : xs.map f = ys.map f)
    (hf : ∀ x ∈ xs, ∀ y ∈ ys, f x = f y → x = y) : xs = ys := by
  have hid := map_eq_of_map_eq (F := id) h hf
  rwa [List.map_id, List.map_id] at hid

namespace Net

variable {n n' : Net} {ds : List Declaration}

/-- The arcs of every transition are sorted by place. -/
def ArcsSorted (n : Net) : Prop :=
  ∀ t ∈ n.transitions, t.pre.Sorted ∧ t.post.Sorted

theorem WellFormed.arcsSorted (h : n.WellFormed) : n.ArcsSorted := fun t ht =>
  ⟨(h.arcs t ht).1.sorted, (h.arcs t ht).2.sorted⟩

/-- A net is its name, its places and its transitions. -/
theorem eq_of_parts (hid : n.id = n'.id) (hplaces : n.places = n'.places)
    (htransitions : n.transitions = n'.transitions) : n = n' := by
  have hplace : n.placeIndex = n'.placeIndex :=
    n.points_places.unique (hplaces ▸ n'.points_places)
  have htransition : n.transitionIndex = n'.transitionIndex :=
    n.points_transitions.unique (htransitions ▸ n'.points_transitions)
  cases n
  cases n'
  cases hid
  cases hplaces
  cases htransitions
  cases hplace
  cases htransition
  rfl

/-- **Declarations describe one net.** -/
theorem Described.unique (h : n.Described ds) (h' : n'.Described ds) (hsorted : n.ArcsSorted)
    (hsorted' : n'.ArcsSorted) : n = n' := by
  have hid : n.id = n'.id := h.id.trans h'.id.symm
  have hplaces : n.places = n'.places := by
    refine eq_of_map_eq (h.places.trans h'.places.symm) fun p hp q hq hid => ?_
    have htokens : p.tokens = q.tokens := by rw [h.tokens p hp, h'.tokens q hq, hid]
    exact congrArg₂ Place.mk hid htokens
  have htransitions : n.transitions = n'.transitions := by
    refine eq_of_map_eq (h.transitions.trans h'.transitions.symm) fun t ht u hu hid => ?_
    have harcs := h.arcs t ht
    have harcs' := h'.arcs u hu
    rw [← hid] at harcs'
    have hpre : t.pre = u.pre := (hsorted t ht).1.ext (hsorted' u hu).1 fun p =>
      (harcs.pre p).trans (harcs'.pre p).symm
    have hpost : t.post = u.post := (hsorted t ht).2.ext (hsorted' u hu).2 fun p =>
      (harcs.post p).trans (harcs'.post p).symm
    have hconnected := harcs.connected.trans harcs'.connected.symm
    show (⟨t.id, t.pre, t.post, t.connected⟩ : Transition) = ⟨u.id, u.pre, u.post, u.connected⟩
    rw [hid, hpre, hpost, hconnected]
  exact eq_of_parts hid hplaces htransitions

/-- **The net that is read** is the one that the text describes, with sorted arcs. A text is
accepted if each of its lines says something. -/
theorem parse_eq_ok_iff_described {s : String} {n : Net} : Net.parse s = .ok n ↔
    n.ArcsSorted ∧ ∃ es : List (Option Declaration),
      List.Forall₂ Declaration.LineSays (Text.lines s) es ∧ n.Described es.reduceOption := by
  constructor
  · intro h
    have hsorted := (wellFormed_of_parse h).arcsSorted
    obtain ⟨es, hes, rfl⟩ := readLines_eq_ok_iff.mp h
    exact ⟨hsorted, es, hes, described_empty.declareAll es.reduceOption⟩
  · rintro ⟨hsorted, es, hes, hdescribed⟩
    have hread : Net.parse s = .ok (es.reduceOption.foldl Net.declare {}) :=
      readLines_eq_ok_iff.mpr ⟨es, hes, rfl⟩
    have hsorted' := (wellFormed_of_parse hread).arcsSorted
    rw [hread, hdescribed.unique (described_empty.declareAll es.reduceOption) hsorted hsorted']

/-- Two lines for one transition, a label of two words, a place that is filled after its first
arcs, and two names. -/
def mergedText : String :=
  "net a\ntr t : {x y} p*2 q -> q\npl p (1K)\ntr t q*3 p -> r\nnet b,c\npl p (7)"

def merged : Net where
  id := "b.c"
  places := [⟨"p", 7⟩, ⟨"q", 0⟩, ⟨"r", 0⟩]
  transitions := [{ id := "t", pre := [("p", 1), ("q", 3)], post := [("q", 1), ("r", 1)]
                    connected := ["p", "q", "r"] }]

theorem parse_eq_ok_iff_described_merged : Net.parse mergedText = .ok merged ∧
    merged.ArcsSorted ∧ ∃ es : List (Option Declaration),
      List.Forall₂ Declaration.LineSays (Text.lines mergedText) es ∧
        merged.Described es.reduceOption :=
  have h : Net.parse mergedText = .ok merged := by decide +kernel
  ⟨h, parse_eq_ok_iff_described.mp h⟩

end Net

end PetriReach
