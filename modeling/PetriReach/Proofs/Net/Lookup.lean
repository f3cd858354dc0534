import Mathlib.Data.List.Induction
import PetriReach.Proofs.Net.Printed

/-!
# Look-ups

What a net that was read looks like to those who use it. A name leads to the position of its
declaration and to nothing else, numbers are within their limits, and the places of a transition are
those of its arcs.

* `indexed_of_points`: where names are distinct, look-ups agree with positions.
* `Net.Described.connected`: the connected places are those of the arcs.
* `Net.coherent_of_parse`: all of it, for every net that was read.
-/

namespace PetriReach

/-! ## Positions -/

/-- An index agrees with a list of named things: names are distinct, the index leads from each name
to its own position and holds nothing else, and a look-up gives what stands at the position, or
complains that the name is unknown. -/
structure Indexed {α ε : Type} (xs : List α) (name : α → String) (index : NameMap)
    (get : String → Except ε α) (unknown : String → ε) : Prop where
  distinct : (xs.map name).Nodup
  keys : (index.map (·.1)).Nodup
  entry : ∀ id i, (id, i) ∈ index ↔ ∃ x, xs[i]? = some x ∧ name x = id
  get_eq_ok : ∀ id x, get id = .ok x ↔ ∃ i, (id, i) ∈ index ∧ xs[i]? = some x
  get_eq_error : ∀ id e, get id = .error e ↔ id ∉ xs.map name ∧ e = unknown id

theorem NameMap.Sorted.keys_nodup {m : NameMap} (h : m.Sorted) : (m.map (·.1)).Nodup := by
  refine List.pairwise_map.mpr (h.imp fun hlt heq => ?_)
  rw [heq] at hlt
  exact String.lt_irrefl _ hlt

section Indexed

variable {α ε : Type} {xs : List α} {name : α → String} {m : NameMap}

/-- Where names are distinct, an index has one entry for each position. -/
theorem NameMap.Points.mem_iff (h : m.Points (xs.map name)) (hnodup : (xs.map name).Nodup)
    {id : String} {i : Nat} : (id, i) ∈ m ↔ ∃ x, xs[i]? = some x ∧ name x = id := by
  rw [← h.sorted.lookup_eq_some_iff, h.lookup, idxOf?_eq_some_iff_of_nodup hnodup,
    List.getElem?_map, Option.map_eq_some_iff]

/-- **Where names are distinct, look-ups agree with positions.** -/
theorem indexed_of_points (h : m.Points (xs.map name)) (hnodup : (xs.map name).Nodup)
    {get : String → Except ε α} {unknown : String → ε}
    (hget : ∀ id, get id = ((m.lookup id).bind (xs[·]?)).elim (.error (unknown id)) .ok) :
    Indexed xs name m get unknown where
  distinct := hnodup
  keys := h.sorted.keys_nodup
  entry id i := h.mem_iff hnodup
  get_eq_ok id x := by
    have hentry (i : Nat) : (id, i) ∈ m ↔ m.lookup id = some i := h.sorted.lookup_eq_some_iff.symm
    rw [hget]
    simp only [hentry]
    cases m.lookup id with
    | none => simp
    | some i =>
      cases hi : xs[i]? with
      | none => simp [hi]
      | some y => simp [hi]
  get_eq_error id e := by
    rw [hget, ← h.isSome_iff]
    cases hi : m.lookup id with
    | none => simp [eq_comm]
    | some i =>
      obtain ⟨x, hx, -⟩ := (h.mem_iff hnodup).mp (h.sorted.lookup_eq_some_iff.mp hi)
      simp [hx]

end Indexed

/-! ## Connected places -/

theorem mem_keys_iff {entries : List (String × Nat)} {p : String} :
    p ∈ entries.map (·.1) ↔ (entries.lookup p).isSome = true := by
  induction entries with
  | nil => simp
  | cons a entries ih =>
    rw [lookup_cons_eq, List.map_cons, List.mem_cons, ih]
    by_cases hp : p = a.1
    · simp [hp]
    · simp [hp]

theorem lastValue_isSome_iff {entries : List (String × Nat)} {p : String} :
    (lastValue entries p).isSome = true ↔ p ∈ entries.map (·.1) := by
  rw [lastValue, ← mem_keys_iff, List.map_reverse, List.mem_reverse]

namespace Transition

variable {t : Transition} {inputs outputs arcs : List (String × Nat)}

theorem Joined.mem_pre (h : t.Joined inputs outputs arcs) (p : String) :
    p ∈ t.pre.map (·.1) ↔ p ∈ inputs.map (·.1) := by
  rw [mem_keys_iff, h.pre, lastValue_isSome_iff]

theorem Joined.mem_post (h : t.Joined inputs outputs arcs) (p : String) :
    p ∈ t.post.map (·.1) ↔ p ∈ outputs.map (·.1) := by
  rw [mem_keys_iff, h.post, lastValue_isSome_iff]

/-- The connected places are those of the arcs, once each. -/
structure Connected (t : Transition) : Prop where
  nodup : t.connected.Nodup
  mem_iff : ∀ p, p ∈ t.connected ↔ p ∈ t.pre.map (·.1) ∨ p ∈ t.post.map (·.1)

end Transition

namespace Net

variable {n : Net} {ds : List Declaration}

theorem Described.connected (h : n.Described ds) {t : Transition} (ht : t ∈ n.transitions) :
    t.Connected := by
  have hjoined := h.arcs t ht
  refine ⟨hjoined.connected ▸ nodup_eraseDups _, fun p => ?_⟩
  rw [hjoined.connected, List.mem_eraseDups, hjoined.mem_pre, hjoined.mem_post]
  simp only [List.map_flatMap, List.mem_flatMap, Declaration.arcsOf, List.map_append,
    List.mem_append, ← exists_or, ← and_or_left]

/-! ## Nets that were read -/

theorem WellFormed.indexed_places (h : n.WellFormed) :
    Indexed n.places (·.id) n.placeIndex n.place .unknownPlace := by
  refine indexed_of_points n.points_places h.places_nodup fun id => ?_
  unfold place
  cases (n.placeIndex.lookup id).bind (n.places[·]?) <;> rfl

theorem WellFormed.indexed_transitions (h : n.WellFormed) :
    Indexed n.transitions (·.id) n.transitionIndex n.transition .unknownTransition := by
  refine indexed_of_points n.points_transitions h.transitions_nodup fun id => ?_
  unfold transition
  cases (n.transitionIndex.lookup id).bind (n.transitions[·]?) <;> rfl

/-- The arcs of one side: one per place, to places of the net, with weights within the limits. -/
structure ArcsCoherent (n : Net) (arcs : Arcs) : Prop where
  nodup : (arcs.map (·.1)).Nodup
  declared : ∀ p ∈ arcs.map (·.1), n.hasPlace p = true
  weights : ∀ a ∈ arcs, 1 ≤ a.2 ∧ a.2 ≤ Number.limit

/-- The parts of a net agree with each other. -/
structure Coherent (n : Net) : Prop where
  places : Indexed n.places (·.id) n.placeIndex n.place .unknownPlace
  transitions : Indexed n.transitions (·.id) n.transitionIndex n.transition .unknownTransition
  hasPlace : ∀ id, n.hasPlace id = true ↔ ∃ p ∈ n.places, p.id = id
  hasTransition : ∀ id, n.hasTransition id = true ↔ ∃ t ∈ n.transitions, t.id = id
  tokens : ∀ p ∈ n.places, 0 ≤ p.tokens ∧ p.tokens ≤ Number.limit
  pre : ∀ t ∈ n.transitions, n.ArcsCoherent t.pre
  post : ∀ t ∈ n.transitions, n.ArcsCoherent t.post
  connected : ∀ t ∈ n.transitions, t.Connected
  declared : ∀ t ∈ n.transitions, ∀ p ∈ t.connected, n.hasPlace p = true

theorem arcsCoherent {arcs : Arcs} (h : arcs.Sound n.Has) (hlegible : ∀ a ∈ arcs, LegibleArc a) :
    n.ArcsCoherent arcs where
  nodup := h.sorted.keys_nodup
  declared p hp := by
    obtain ⟨a, ha, rfl⟩ := List.mem_map.mp hp
    exact hasPlace_iff.mpr (h.known a ha)
  weights a ha := ⟨h.positive a ha, (hlegible a ha).le_limit⟩

/-- **The parts of a net that was read agree with each other.** -/
theorem coherent_of_parse {s : String} (h : Net.parse s = .ok n) : n.Coherent := by
  have hn := wellFormed_of_parse h
  have hlegible := legible_of_parse h
  obtain ⟨es, -, rfl⟩ := readLines_eq_ok_iff.mp h
  have hdescribed := described_empty.declareAll es.reduceOption
  have hpre := fun t ht => arcsCoherent (hn.arcs t ht).1 (hlegible.pre t ht)
  have hpost := fun t ht => arcsCoherent (hn.arcs t ht).2 (hlegible.post t ht)
  have hconnected := fun t ht => hdescribed.connected (t := t) ht
  refine ⟨hn.indexed_places, hn.indexed_transitions, fun id => ?_, fun id => ?_, fun p hp => ?_,
    hpre, hpost, hconnected, fun t ht p hp => ?_⟩
  · exact hasPlace_iff
  · exact hasTransition_iff.trans List.mem_map
  · obtain ⟨k, hk, hle⟩ := hlegible.tokens p hp
    omega
  · rcases ((hconnected t ht).mem_iff p).mp hp with hp | hp
    · exact (hpre t ht).declared p hp
    · exact (hpost t ht).declared p hp

/-- A place that is filled after its first arc, with the greatest number of tokens, one that only an
arc mentions, and one without arcs. -/
def stockText : String :=
  "tr t p*9E -> q p\npl r\npl p (9223372036854775807)\n"

def stock : Net where
  places := [⟨"p", 9223372036854775807⟩, ⟨"q", 0⟩, ⟨"r", 0⟩]
  transitions := [{ id := "t", pre := [("p", 9000000000000000000)], post := [("p", 1), ("q", 1)]
                    connected := ["p", "q"] }]

/-- The place that only an arc mentions stands second, and there is no fourth. -/
theorem stock_coherent : Net.parse stockText = .ok stock ∧ stock.Coherent ∧
    ("q", 1) ∈ stock.placeIndex ∧ stock.place "q" = .ok ⟨"q", 0⟩ ∧
    stock.place "t" = .error (.unknownPlace "t") := by
  have hparse : Net.parse stockText = .ok stock := by decide +kernel
  have hcoherent := coherent_of_parse hparse
  exact ⟨hparse, hcoherent, (hcoherent.places.entry "q" 1).mpr ⟨_, rfl, rfl⟩,
    (hcoherent.places.get_eq_ok "q" _).mpr ⟨1, by decide, rfl⟩,
    (hcoherent.places.get_eq_error "t" _).mpr ⟨by decide, rfl⟩⟩

end Net

end PetriReach
