import Mathlib.Data.List.Nodup
import Mathlib.Tactic.Common
import PetriReach.Net.Firing
import PetriReach.Net.Reader

/-!
# Well-formed nets

What every net that was read satisfies: names are words and are used once, no place begins with a
debt, and arcs join declared places with positive weights, one arc per place. Each declaration keeps
it.

* `Net.WellFormed.declare`: a declaration keeps a net well formed.
* `Net.wellFormed_of_parse`: a net that was read is well formed.
-/

namespace PetriReach

/-! ## Words -/

/-- A text without blanks. -/
def Text.IsWord (s : String) : Prop :=
  ∀ c ∈ s.toList, isBlank c = false

theorem Text.IsWord.inline {s : String} (h : IsWord s) : '\n' ∉ s.toList := by
  intro hmem
  exact absurd (h '\n' hmem) (by decide)

theorem Text.not_of_mem_pieces {p : Char → Bool} {cs w : List Char} (hw : w ∈ pieces p cs) :
    ∀ c ∈ w, p c = false := by
  induction cs generalizing w with
  | nil =>
    obtain rfl := List.mem_singleton.mp hw
    simp
  | cons c cs ih =>
    unfold pieces at hw
    split at hw
    · rcases List.mem_cons.mp hw with rfl | hw
      · simp
      · exact ih hw
    · rename_i hc
      have hc : p c = false := by simpa using hc
      split at hw
      · obtain rfl := List.mem_singleton.mp hw
        simpa using hc
      · rename_i u us hus
        rw [hus] at ih
        rcases List.mem_cons.mp hw with rfl | hw
        · rw [List.forall_mem_cons]
          exact ⟨hc, ih List.mem_cons_self⟩
        · exact ih (List.mem_cons_of_mem u hw)

theorem Text.isWord_of_mem_fields {s w : String} (h : w ∈ fields s) : IsWord w := by
  obtain ⟨cs, hcs, rfl⟩ := List.mem_map.mp h
  unfold IsWord
  rw [String.toList_ofList]
  exact not_of_mem_pieces (List.mem_of_mem_filter hcs)

/-! ## Maps -/

namespace NameMap

variable {m : NameMap}

/-- In a sorted map the number of a name is that of its only entry. -/
theorem Sorted.lookup_eq (h : m.Sorted) {a : String × Nat} (ha : a ∈ m) :
    m.lookup a.1 = some a.2 := by
  induction m with
  | nil => simp at ha
  | cons b m ih =>
    obtain ⟨hb, hm⟩ := List.pairwise_cons.mp h
    rcases List.mem_cons.mp ha with rfl | ha
    · exact List.lookup_cons_self
    · have hne : a.1 ≠ b.1 := fun he => String.lt_irrefl b.1 (he ▸ hb a ha)
      rw [List.lookup_cons, beq_eq_false_iff_ne.mpr hne]
      exact ih hm ha

theorem mem_of_lookup {p : String} {k : Nat} (h : m.lookup p = some k) : (p, k) ∈ m := by
  induction m with
  | nil => simp at h
  | cons b m ih =>
    rw [List.lookup_cons] at h
    split at h
    · rename_i hp
      obtain rfl := beq_iff_eq.mp hp
      obtain rfl := Option.some.inj h
      exact List.mem_cons_self
    · exact List.mem_cons_of_mem _ (ih h)

theorem mem_update {α : Type} {xs : List α} {p : String} {f : α → α} {x : α}
    (h : x ∈ m.update xs p f) : x ∈ xs ∨ ∃ y ∈ xs, x = f y := by
  unfold update at h
  split at h
  · obtain ⟨j, hj⟩ := List.mem_iff_getElem?.mp h
    rw [List.getElem?_modify] at hj
    obtain ⟨y, hy, rfl⟩ := Option.map_eq_some_iff.mp hj
    have hmem := List.mem_of_getElem? hy
    split
    · exact .inr ⟨y, hmem, rfl⟩
    · exact .inl hmem
  · exact .inl h

end NameMap

/-! ## Arcs -/

namespace Arcs

/-- Sorted arcs with positive weights to known places. -/
structure Sound (arcs : Arcs) (known : String → Prop) : Prop where
  sorted : arcs.Sorted
  positive : ∀ a ∈ arcs, 0 < a.2
  known : ∀ a ∈ arcs, known a.1

theorem Sound.set {arcs : Arcs} {known : String → Prop} (h : arcs.Sound known) {p : String}
    {w : Nat} (hp : known p) (hw : 0 < w) : Arcs.Sound (arcs.set p w) known where
  sorted := h.sorted.set p w
  positive a ha := by
    rcases NameMap.mem_set ha with rfl | ha
    · exact hw
    · exact h.positive a ha
  known a ha := by
    rcases NameMap.mem_set ha with rfl | ha
    · exact hp
    · exact h.known a ha

theorem Sound.mono {arcs : Arcs} {known known' : String → Prop} (h : arcs.Sound known)
    (hk : ∀ p, known p → known' p) : arcs.Sound known' :=
  ⟨h.sorted, h.positive, fun a ha => hk _ (h.known a ha)⟩

theorem sound_nil (known : String → Prop) : Sound [] known :=
  ⟨List.Pairwise.nil, by simp, by simp⟩

/-- Without an arc to a place, its weight is 0. -/
theorem Sound.weight_eq_zero {arcs : Arcs} {known : String → Prop} (h : arcs.Sound known)
    {p : String} (hp : ¬ known p) : arcs.weight p = 0 := by
  cases hl : arcs.lookup p with
  | none => simp [weight, hl]
  | some w => exact absurd (h.known _ (NameMap.mem_of_lookup hl)) hp

end Arcs

namespace Net

theorem points_nil : NameMap.Points [] [] :=
  NameMap.points_positions []

/-- A net of places that nothing moves tokens between. -/
def ofPlaces (places : List Place) : Net where
  places
  points_transitions := points_nil

/-- The net has a place of this name. -/
def Has (n : Net) (id : String) : Prop :=
  ∃ p ∈ n.places, p.id = id

theorem hasPlace_iff {n : Net} {id : String} : n.hasPlace id = true ↔ n.Has id :=
  n.points_places.isSome_iff.trans List.mem_map

theorem hasTransition_iff {n : Net} {id : String} :
    n.hasTransition id = true ↔ id ∈ n.transitions.map (·.id) :=
  n.points_transitions.isSome_iff

/-- Both sides of a transition are sound. -/
def ArcsSound (n : Net) (t : Transition) : Prop :=
  t.pre.Sound n.Has ∧ t.post.Sound n.Has

/-- What every net that was read satisfies. -/
structure WellFormed (n : Net) : Prop where
  places_nodup : (n.places.map (·.id)).Nodup
  transitions_nodup : (n.transitions.map (·.id)).Nodup
  place_words : ∀ id ∈ n.places.map (·.id), Text.IsWord id
  transition_words : ∀ id ∈ n.transitions.map (·.id), Text.IsWord id
  tokens_nonneg : ∀ p ∈ n.places, 0 ≤ p.tokens
  arcs : ∀ t ∈ n.transitions, n.ArcsSound t

theorem wellFormed_empty : WellFormed {} :=
  ⟨List.nodup_nil, List.nodup_nil, by simp, by simp, by simp, by simp⟩

variable {n : Net}

/-! ## Places and transitions -/

theorem places_addPlace (n : Net) (id : String) : (n.addPlace id).places =
    if n.hasPlace id then n.places else n.places ++ [{ id := id }] := by
  unfold addPlace
  split <;> rfl

theorem transitions_addPlace (n : Net) (id : String) :
    (n.addPlace id).transitions = n.transitions := by
  unfold addPlace
  split <;> rfl

theorem transitions_addTransition (n : Net) (id : String) : (n.addTransition id).transitions =
    if n.hasTransition id then n.transitions else n.transitions ++ [{ id := id }] := by
  unfold addTransition
  split <;> rfl

theorem places_addTransition (n : Net) (id : String) :
    (n.addTransition id).places = n.places := by
  unfold addTransition
  split <;> rfl

theorem mem_places_addPlace {id : String} {p : Place} (h : p ∈ (n.addPlace id).places) :
    p ∈ n.places ∨ p = { id } ∧ ¬ n.Has id := by
  rw [places_addPlace] at h
  split at h
  · exact .inl h
  · next hid =>
    rcases List.mem_append.mp h with h | h
    · exact .inl h
    · exact .inr ⟨List.mem_singleton.mp h, mt hasPlace_iff.mpr hid⟩

theorem mem_transitions_addTransition {id : String} {t : Transition}
    (h : t ∈ (n.addTransition id).transitions) :
    t ∈ n.transitions ∨ t = { id } ∧ id ∉ n.transitions.map (·.id) := by
  rw [transitions_addTransition] at h
  split at h
  · exact .inl h
  · next hid =>
    rcases List.mem_append.mp h with h | h
    · exact .inl h
    · exact .inr ⟨List.mem_singleton.mp h, mt hasTransition_iff.mpr hid⟩

theorem has_addPlace (n : Net) (id : String) : (n.addPlace id).Has id := by
  unfold Has
  rw [places_addPlace]
  split
  · next h => exact hasPlace_iff.mp h
  · exact ⟨{ id }, by simp, rfl⟩

theorem Has.addPlace {p : String} (h : n.Has p) (id : String) : (n.addPlace id).Has p := by
  unfold Has
  rw [places_addPlace]
  split
  · exact h
  · obtain ⟨q, hq, rfl⟩ := h
    exact ⟨q, List.mem_append_left _ hq, rfl⟩

/-- Places of the same names are the same to arcs. -/
theorem ArcsSound.mono {n' : Net} {t : Transition} (h : n.ArcsSound t)
    (hk : ∀ p, n.Has p → n'.Has p) : n'.ArcsSound t :=
  ⟨h.1.mono hk, h.2.mono hk⟩

theorem has_iff_mem_map {id : String} : n.Has id ↔ id ∈ n.places.map (·.id) :=
  List.mem_map.symm

theorem nodup_concat {xs : List String} {x : String} (h : xs.Nodup) (hx : x ∉ xs) :
    (xs ++ [x]).Nodup :=
  List.concat_eq_append ▸ h.concat hx

theorem WellFormed.addPlace (h : n.WellFormed) {id : String} (hword : Text.IsWord id) :
    (n.addPlace id).WellFormed := by
  refine ⟨?_, ?_, ?_, ?_, fun p hp => ?_, fun t ht => ?_⟩
  · rw [places_addPlace]
    split
    · exact h.places_nodup
    · next hid =>
      rw [List.map_append]
      exact nodup_concat h.places_nodup (mt (hasPlace_iff.trans has_iff_mem_map).mpr hid)
  · rw [transitions_addPlace]
    exact h.transitions_nodup
  · rw [places_addPlace]
    split
    · exact h.place_words
    · rw [List.map_append, List.map_singleton, List.forall_mem_append, List.forall_mem_singleton]
      exact ⟨h.place_words, hword⟩
  · rw [transitions_addPlace]
    exact h.transition_words
  · rcases mem_places_addPlace hp with hp | ⟨rfl, -⟩
    · exact h.tokens_nonneg p hp
    · exact Int.le_refl 0
  · rw [transitions_addPlace] at ht
    exact (h.arcs t ht).mono fun _ hp => hp.addPlace id

theorem WellFormed.addTransition (h : n.WellFormed) {id : String} (hword : Text.IsWord id) :
    (n.addTransition id).WellFormed := by
  have hplaces := n.places_addTransition id
  refine ⟨?_, ?_, ?_, ?_, ?_, fun t ht => ?_⟩
  · rw [hplaces]
    exact h.places_nodup
  · rw [transitions_addTransition]
    split
    · exact h.transitions_nodup
    · next hid =>
      rw [List.map_append]
      exact nodup_concat h.transitions_nodup (mt hasTransition_iff.mpr hid)
  · rw [hplaces]
    exact h.place_words
  · rw [transitions_addTransition]
    split
    · exact h.transition_words
    · rw [List.map_append, List.map_singleton, List.forall_mem_append, List.forall_mem_singleton]
      exact ⟨h.transition_words, hword⟩
  · rw [hplaces]
    exact h.tokens_nonneg
  · have hmono : ∀ p, n.Has p → (n.addTransition id).Has p := by
      unfold Has
      rw [hplaces]
      exact fun _ hp => hp
    rcases mem_transitions_addTransition ht with ht | ⟨rfl, -⟩
    · exact (h.arcs t ht).mono hmono
    · exact ⟨Arcs.sound_nil _, Arcs.sound_nil _⟩

theorem map_places_setTokens (n : Net) (id : String) (k : Int) :
    (n.setTokens id k).places.map (·.id) = (n.addPlace id).places.map (·.id) :=
  NameMap.Points.map_update (f := fun p : Place => { p with tokens := k }) (fun _ => rfl) _ id

theorem map_transitions_modifyTransition (n : Net) (id : String) {f : Transition → Transition}
    (hf : ∀ t, (f t).id = t.id) :
    (n.modifyTransition id f hf).transitions.map (·.id) = n.transitions.map (·.id) :=
  NameMap.Points.map_update hf n.transitionIndex id

theorem WellFormed.setTokens (h : n.WellFormed) {id : String} (hword : Text.IsWord id) {k : Int}
    (hk : 0 ≤ k) : (n.setTokens id k).WellFormed := by
  have hadd := h.addPlace hword
  have hids := n.map_places_setTokens id k
  have hmono : ∀ p, (n.addPlace id).Has p → (n.setTokens id k).Has p := by
    intro p hp
    rw [has_iff_mem_map, hids]
    exact has_iff_mem_map.mp hp
  refine ⟨hids ▸ hadd.places_nodup, hadd.transitions_nodup, hids ▸ hadd.place_words,
    hadd.transition_words, fun p hp => ?_, fun t ht => (hadd.arcs t ht).mono hmono⟩
  rcases NameMap.mem_update hp with hp | ⟨q, -, rfl⟩
  · exact hadd.tokens_nonneg p hp
  · exact hk

/-- A change that keeps the names and the soundness of transitions keeps the net well formed. -/
theorem WellFormed.modifyTransition (h : n.WellFormed) (id : String)
    {f : Transition → Transition} (hid : ∀ t, (f t).id = t.id)
    (hf : ∀ t, n.ArcsSound t → n.ArcsSound (f t)) : (n.modifyTransition id f hid).WellFormed := by
  have hids := n.map_transitions_modifyTransition id hid
  refine ⟨h.places_nodup, hids ▸ h.transitions_nodup, h.place_words, hids ▸ h.transition_words,
    h.tokens_nonneg, fun t ht => ?_⟩
  rcases NameMap.mem_update ht with ht | ⟨u, hu, rfl⟩
  · exact h.arcs t ht
  · exact hf u (h.arcs u hu)

theorem ArcsSound.connect {t : Transition} (h : n.ArcsSound t) (p : String) :
    n.ArcsSound (t.connect p) := by
  unfold Transition.connect
  split
  · exact h
  · exact h

theorem ArcsSound.setArc {t : Transition} (h : n.ArcsSound t) (side : ArcSide) {p : String}
    {w : Nat} (hp : n.Has p) (hw : 0 < w) : n.ArcsSound (t.setArc side p w) := by
  cases side with
  | input => exact ArcsSound.connect (t := { t with pre := t.pre.set p w }) ⟨h.1.set hp hw, h.2⟩ p
  | output =>
    exact ArcsSound.connect (t := { t with post := t.post.set p w }) ⟨h.1, h.2.set hp hw⟩ p

theorem WellFormed.addArcs (id : String) (side : ArcSide) {arcs : List (String × Nat)}
    (harcs : ∀ a ∈ arcs, Text.IsWord a.1 ∧ 0 < a.2) (h : n.WellFormed) :
    (n.addArcs id side arcs).WellFormed := by
  induction arcs generalizing n with
  | nil => exact h
  | cons a arcs ih =>
    refine ih (fun b hb => harcs b (List.mem_cons_of_mem a hb)) ?_
    obtain ⟨hword, hpos⟩ := harcs a List.mem_cons_self
    exact (h.addPlace hword).modifyTransition id _ fun t ht =>
      ht.setArc side (n.has_addPlace a.1) hpos

end Net

/-! ## Reading -/

/-- The names in the declaration are words, and no arc is without weight. -/
def Declaration.Proper : Declaration → Prop
  | .net _ => True
  | .place id _ => Text.IsWord id
  | .transition id inputs outputs => Text.IsWord id ∧
    (∀ a ∈ inputs, Text.IsWord a.1 ∧ 0 < a.2) ∧ ∀ a ∈ outputs, Text.IsWord a.1 ∧ 0 < a.2

/-- A computation that succeeds does so step by step. -/
theorem exists_of_bind_ok {ε α β : Type} {x : Except ε α} {g : α → Except ε β} {b : β}
    (h : x >>= g = .ok b) : ∃ a, x = .ok a ∧ g a = .ok b := by
  cases x with
  | error e => cases h
  | ok a => exact ⟨a, rfl, h⟩

theorem exists_of_map_ok {ε α β : Type} {x : Except ε α} {g : α → β} {b : β}
    (h : x.map g = .ok b) : ∃ a, x = .ok a ∧ g a = b := by
  cases x with
  | error e => cases h
  | ok a => exact ⟨a, rfl, Except.ok.inj h⟩

/-- Every result of a map that succeeds comes from a step. -/
theorem exists_of_mapM_ok {ε α β : Type} {f : α → Except ε β} {as : List α} {bs : List β}
    (h : as.mapM f = .ok bs) : ∀ b ∈ bs, ∃ a ∈ as, f a = .ok b := by
  induction as generalizing bs with
  | nil =>
    obtain rfl := Except.ok.inj h
    simp
  | cons a as ih =>
    rw [List.mapM_cons] at h
    obtain ⟨b, hb, h⟩ := exists_of_bind_ok h
    obtain ⟨bs', hbs, h⟩ := exists_of_bind_ok h
    cases h
    rw [List.forall_mem_cons]
    refine ⟨⟨a, List.mem_cons_self, hb⟩, fun c hc => ?_⟩
    obtain ⟨d, hd, hdc⟩ := ih hbs c hc
    exact ⟨d, List.mem_cons_of_mem a hd, hdc⟩

/-- A map that succeeds with results that show where they come from. -/
theorem map_of_mapM_ok {ε α β : Type} {f : α → Except ε β} {g : β → α}
    (hg : ∀ a b, f a = .ok b → g b = a) {as : List α} {bs : List β} (h : as.mapM f = .ok bs) :
    bs.map g = as := by
  induction as generalizing bs with
  | nil =>
    obtain rfl := Except.ok.inj h
    rfl
  | cons a as ih =>
    rw [List.mapM_cons] at h
    obtain ⟨b, hb, h⟩ := exists_of_bind_ok h
    obtain ⟨bs', hbs, h⟩ := exists_of_bind_ok h
    cases h
    rw [List.map_cons, hg a b hb, ih hbs]

/-- Every step of a map that succeeds does. -/
theorem exists_ok_of_mapM {α β ε : Type} {g : α → Except ε β} {as : List α} {bs : List β}
    (h : as.mapM g = .ok bs) : ∀ a ∈ as, ∃ b, g a = .ok b := by
  induction as generalizing bs with
  | nil => simp
  | cons a as ih =>
    rw [List.mapM_cons] at h
    obtain ⟨b, hb, h⟩ := exists_of_bind_ok h
    obtain ⟨bs', hbs, -⟩ := exists_of_bind_ok h
    rw [List.forall_mem_cons]
    exact ⟨⟨b, hb⟩, ih hbs⟩

namespace Declaration

theorem readArc_proper {arc : String} (hword : Text.IsWord arc) {a : String × Nat}
    (h : readArc arc = .ok a) : Text.IsWord a.1 ∧ 0 < a.2 := by
  simp only [readArc] at h
  split at h
  · exact absurd h (by simp)
  · split at h
    · exact absurd h (by simp)
    · split at h
      · exact absurd h (by simp)
      · rename_i w _ _ hw
        obtain rfl := Except.ok.inj h
        refine ⟨fun c hc => ?_, Nat.pos_of_ne_zero hw⟩
        rw [String.toList_ofList] at hc
        exact hword c ((List.takeWhile_sublist _).mem hc)

theorem mem_of_closeLabel {ws ws' : List String} (h : closeLabel ws = .ok ws') :
    ∀ w ∈ ws', w ∈ ws := by
  induction ws with
  | nil => exact absurd h (by simp [closeLabel])
  | cons u ws ih =>
    unfold closeLabel at h
    split at h
    · obtain rfl := Except.ok.inj h
      exact fun w hw => List.mem_cons_of_mem u hw
    · exact fun w hw => List.mem_cons_of_mem u (ih h w hw)

theorem mem_of_skipLabel {ws ws' : List String} (h : skipLabel ws = .ok ws') :
    ∀ w ∈ ws', w ∈ ws := by
  unfold skipLabel at h
  split at h
  · exact absurd h (by simp)
  · split at h
    · exact fun w hw => List.mem_cons_of_mem _ (mem_of_closeLabel h w hw)
    · obtain rfl := Except.ok.inj h
      exact fun w hw => List.mem_cons_of_mem _ (List.mem_cons_of_mem _ hw)
  · obtain rfl := Except.ok.inj h
    exact fun w hw => hw

theorem readTransition_proper {ws : List String} (hws : ∀ w ∈ ws, Text.IsWord w)
    {d : Declaration} (h : readTransition ws = .ok d) : d.Proper := by
  cases ws with
  | nil => exact absurd h (by simp [readTransition])
  | cons id ws =>
    rw [List.forall_mem_cons] at hws
    simp only [readTransition] at h
    obtain ⟨fields, hl, h⟩ := exists_of_bind_ok h
    have hfields : ∀ w ∈ fields, Text.IsWord w := fun w hw => hws.2 w (mem_of_skipLabel hl w hw)
    split at h
    · exact absurd h (by simp)
    · obtain ⟨inputs, hin, h⟩ := exists_of_bind_ok h
      obtain ⟨outputs, hout, h⟩ := exists_of_bind_ok h
      obtain rfl := Except.ok.inj h
      refine ⟨hws.1, fun a ha => ?_, fun a ha => ?_⟩
      · obtain ⟨arc, hmem, harc⟩ := exists_of_mapM_ok hin a ha
        exact readArc_proper (hfields arc ((List.takeWhile_sublist _).mem hmem)) harc
      · obtain ⟨arc, hmem, harc⟩ := exists_of_mapM_ok hout a ha
        exact readArc_proper (hfields arc (List.mem_of_mem_drop hmem)) harc

theorem readPlace_proper {ws : List String} (hws : ∀ w ∈ ws, Text.IsWord w) {d : Declaration}
    (h : readPlace ws = .ok d) : d.Proper := by
  cases ws with
  | nil => exact absurd h (by simp [readPlace])
  | cons id ws =>
    rw [List.forall_mem_cons] at hws
    simp only [readPlace] at h
    obtain ⟨fields, -, h⟩ := exists_of_bind_ok h
    split at h
    · obtain rfl := Except.ok.inj h
      exact hws.1
    · obtain ⟨tokens, -, h⟩ := exists_of_bind_ok h
      obtain rfl := Except.ok.inj h
      exact hws.1

theorem parse_proper {line : String} {d : Declaration} (h : parse line = .ok (some d)) :
    d.Proper := by
  have hwords : ∀ w ∈ Text.fields (normalize line), Text.IsWord w :=
    fun w hw => Text.isWord_of_mem_fields hw
  unfold parse at h
  split at h
  · obtain rfl := Option.some.inj (Except.ok.inj h)
    trivial
  · rename_i ws hfields
    rw [hfields, List.forall_mem_cons] at hwords
    obtain ⟨d', hd', hd⟩ := exists_of_map_ok h
    exact Option.some.inj hd ▸ readTransition_proper hwords.2 hd'
  · rename_i ws hfields
    rw [hfields, List.forall_mem_cons] at hwords
    obtain ⟨d', hd', hd⟩ := exists_of_map_ok h
    exact Option.some.inj hd ▸ readPlace_proper hwords.2 hd'
  · exact absurd h (by simp)

end Declaration

namespace Net

/-- **A declaration keeps a net well formed.** -/
theorem WellFormed.declare {n : Net} (h : n.WellFormed) {d : Declaration} (hd : d.Proper) :
    (n.declare d).WellFormed := by
  cases d with
  | net id =>
    exact ⟨h.places_nodup, h.transitions_nodup, h.place_words, h.transition_words,
      h.tokens_nonneg, h.arcs⟩
  | place id tokens => exact h.setTokens hd (Int.natCast_nonneg tokens)
  | transition id inputs outputs =>
    obtain ⟨hword, hin, hout⟩ := hd
    exact ((h.addTransition hword).addArcs id .input hin).addArcs id .output hout

theorem WellFormed.readLines {n n' : Net} (h : n.WellFormed) {k : Nat} {ls : List String}
    (hr : n.readLines k ls = .ok n') : n'.WellFormed := by
  induction ls generalizing n k with
  | nil =>
    obtain rfl := Except.ok.inj hr
    exact h
  | cons l ls ih =>
    rw [Net.readLines] at hr
    cases hl : Declaration.parse l with
    | error e => simp [hl] at hr
    | ok d =>
      cases d with
      | none =>
        simp only [hl] at hr
        exact ih h hr
      | some d =>
        simp only [hl] at hr
        exact ih (h.declare (Declaration.parse_proper hl)) hr

/-- **A net that was read is well formed.** -/
theorem wellFormed_of_parse {s : String} {n : Net} (h : Net.parse s = .ok n) : n.WellFormed :=
  wellFormed_empty.readLines h

end Net

end PetriReach
