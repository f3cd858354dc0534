import PetriReach.Formula.Truth
import PetriReach.Proofs.Net.WellFormed
import PetriReach.Proofs.Search

/-!
# Markings as a system

The markings of a net as a system of states, looked at on the places of the net only. What a marking
says of other names has no influence on firings or on goals over the places.

* `Net.tokens_witness_iff`: a witness is a path from the marking at the beginning to the goal.
* `Net.tokens_entry_iff`: a first entry is one of arbitrary markings.
-/

namespace PetriReach

/-- The formula speaks of places of the net only. -/
def Formula.Over (f : Formula) (n : Net) : Prop :=
  ∀ p ∈ f.mentions, n.Has p

namespace Net

/-- The markings of a net, on its places. -/
def tokens (n : Net) (f : Formula) : System Marking where
  init m := ∀ p ∈ n.places, m p.id = n.initial p.id
  step m m' := ∃ t ∈ n.transitions, (∀ p ∈ n.places, t.pre.weight p.id ≤ m p.id) ∧
    ∀ p ∈ n.places, m' p.id = t.fire m p.id
  goal m := f.holds m = true

/-- A path of `k` firings leads from the marking at the beginning to the goal. -/
def Witness (n : Net) (f : Formula) (k : Nat) : Prop :=
  ∃ ts m, n.Path n.initial ts m ∧ ts.length = k ∧ f.holds m = true

/-- Some path leads to the goal, and none with fewer than `d` firings. -/
def Shortest (n : Net) (f : Formula) (d : Nat) : Prop :=
  n.Witness f d ∧ ∀ ts m, n.Path n.initial ts m → f.holds m = true → d ≤ ts.length

/-- Markings `xs 0, …, xs k`, joined by firings, of which the last and no other is in the goal. -/
def Entry (n : Net) (f : Formula) (k : Nat) : Prop :=
  ∃ xs : Nat → Marking, (∀ i < k, n.Step (xs i) (xs (i + 1))) ∧
    (∀ i < k, f.holds (xs i) = false) ∧ f.holds (xs k) = true

end Net

/-! ## Markings on the places -/

section Restrict

open Classical in
/-- The marking on the places, and nothing elsewhere. -/
noncomputable def Net.restrict (n : Net) (m : Marking) : Marking :=
  fun p => if n.Has p then m p else 0

variable {n : Net} {m m' : Marking}

theorem Net.restrict_of_has {p : String} (h : n.Has p) : n.restrict m p = m p :=
  if_pos h

theorem Net.restrict_of_not_has {p : String} (h : ¬ n.Has p) : n.restrict m p = 0 :=
  if_neg h

theorem TokenSum.valueFrom_congr {c : Int} {ts : List Multiple}
    (h : ∀ t ∈ ts, m t.place = m' t.place) : valueFrom m c ts = valueFrom m' c ts := by
  induction ts with
  | nil => rfl
  | cons t ts ih =>
    rw [valueFrom, valueFrom, h t List.mem_cons_self,
      ih fun u hu => h u (List.mem_cons_of_mem t hu)]

theorem TokenSum.value_congr {s : TokenSum} (h : ∀ p ∈ s.mentions, m p = m' p) :
    s.value m = s.value m' :=
  valueFrom_congr fun t ht => h t.place (List.mem_map_of_mem ht)

mutual

/-- The truth of a formula depends on the places it mentions only. -/
theorem Formula.holds_congr : ∀ {f : Formula}, (∀ p ∈ f.mentions, m p = m' p) →
    f.holds m = f.holds m'
  | .tt, _ => rfl
  | .ff, _ => rfl
  | .not f, h => congrArg Bool.not (Formula.holds_congr (f := f) h)
  | .junction .and fs, h => Formula.allHold_congr h
  | .junction .or fs, h => Formula.anyHolds_congr h
  | .atom l op r, h => by
    have hl : l.value m = l.value m' :=
      TokenSum.value_congr fun p hp => h p (List.mem_append_left _ hp)
    have hr : r.value m = r.value m' :=
      TokenSum.value_congr fun p hp => h p (List.mem_append_right _ hp)
    rw [holds, holds, hl, hr]

theorem Formula.allHold_congr : ∀ {fs : List Formula}, (∀ p ∈ allMentions fs, m p = m' p) →
    allHold m fs = allHold m' fs
  | [], _ => rfl
  | f :: fs, h => by
    rw [allHold, allHold, Formula.holds_congr fun p hp => h p (List.mem_append_left _ hp),
      Formula.allHold_congr fun p hp => h p (List.mem_append_right _ hp)]

theorem Formula.anyHolds_congr : ∀ {fs : List Formula}, (∀ p ∈ allMentions fs, m p = m' p) →
    anyHolds m fs = anyHolds m' fs
  | [], _ => rfl
  | f :: fs, h => by
    rw [anyHolds, anyHolds, Formula.holds_congr fun p hp => h p (List.mem_append_left _ hp),
      Formula.anyHolds_congr fun p hp => h p (List.mem_append_right _ hp)]

end

theorem Formula.Over.holds_restrict {f : Formula} (h : f.Over n) (m : Marking) :
    f.holds (n.restrict m) = f.holds m :=
  Formula.holds_congr fun p hp => Net.restrict_of_has (h p hp)

end Restrict

namespace Net

variable {n : Net} {f : Formula}

/-- At the beginning a place holds the tokens of its declaration. -/
theorem WellFormed.initial_eq (h : n.WellFormed) {p : Place} (hp : p ∈ n.places) :
    (n.initial p.id : Int) = p.tokens := by
  have hfind : n.places.find? (·.id = p.id) = some p := by
    have hnodup := h.places_nodup
    generalize n.places = ps at hp hnodup
    induction ps with
    | nil => simp at hp
    | cons q ps ih =>
      rw [List.map_cons, List.nodup_cons] at hnodup
      rcases List.mem_cons.mp hp with rfl | hp
      · simp
      · have hne : q.id ≠ p.id := fun he => hnodup.1 (he ▸ List.mem_map_of_mem hp)
        rw [List.find?_cons_of_neg (by simpa using hne)]
        exact ih hp hnodup.2
  have hnonneg := h.tokens_nonneg p hp
  simp only [initial, hfind, Option.map_some, Option.getD_some]
  omega

theorem initial_of_not_has {p : String} (h : ¬ n.Has p) : n.initial p = 0 := by
  have hfind : n.places.find? (·.id = p) = none := by
    rw [List.find?_eq_none]
    intro q hq hqp
    exact h ⟨q, hq, by simpa using hqp⟩
  simp [initial, hfind]

/-- A step on the places is a firing of the markings on the places. -/
theorem WellFormed.step_restrict (h : n.WellFormed) {m m' : Marking}
    (hs : (n.tokens f).step m m') : n.Step (n.restrict m) (n.restrict m') := by
  obtain ⟨t, ht, hen, hfire⟩ := hs
  obtain ⟨hpre, hpost⟩ := h.arcs t ht
  refine ⟨t, ht, fun p => ?_, funext fun p => ?_⟩
  · by_cases hp : n.Has p
    · obtain ⟨q, hq, rfl⟩ := hp
      rw [restrict_of_has ⟨q, hq, rfl⟩]
      exact hen q hq
    · rw [hpre.weight_eq_zero hp]
      exact Nat.zero_le _
  · by_cases hp : n.Has p
    · have hfire' : m' p = t.fire m p := by
        obtain ⟨q, hq, rfl⟩ := hp
        exact hfire q hq
      rw [restrict_of_has hp, hfire', Transition.fire, Transition.fire, restrict_of_has hp]
    · rw [Transition.fire, restrict_of_not_has hp, restrict_of_not_has hp,
        hpre.weight_eq_zero hp, hpost.weight_eq_zero hp]

theorem step_tokens {m m' : Marking} (hs : n.Step m m') : (n.tokens f).step m m' := by
  obtain ⟨t, ht, hen, rfl⟩ := hs
  exact ⟨t, ht, fun p _ => hen p.id, fun _ _ => rfl⟩

/-! ## Paths and runs -/

/-- Markings joined by firings lie on a path. -/
theorem path_of_steps {xs : Nat → Marking} {k : Nat} (h : ∀ i < k, n.Step (xs i) (xs (i + 1))) :
    ∃ ts, ts.length = k ∧ n.Path (xs 0) ts (xs k) := by
  induction k with
  | zero => exact ⟨[], rfl, .nil _⟩
  | succ k ih =>
    obtain ⟨ts, hlen, hpath⟩ := ih fun i hi => h i (by omega)
    obtain ⟨t, ht, hen, hfire⟩ := h k (by omega)
    refine ⟨ts ++ [t], by simp [hlen], ?_⟩
    rw [hfire]
    exact hpath.append (.cons ht hen (.nil _))

/-- A path runs through markings joined by firings. -/
theorem Path.steps {m m' : Marking} {ts : List Transition} (h : n.Path m ts m') :
    ∃ xs : Nat → Marking, xs 0 = m ∧ xs ts.length = m' ∧
      ∀ i < ts.length, n.Step (xs i) (xs (i + 1)) := by
  induction h with
  | nil m => exact ⟨fun _ => m, rfl, rfl, fun i hi => absurd hi (Nat.not_lt_zero i)⟩
  | @cons m m' t ts ht hen _ ih =>
    obtain ⟨xs, h0, hend, hsteps⟩ := ih
    refine ⟨fun i => i.casesOn m xs, rfl, hend, ?_⟩
    intro i hi
    cases i with
    | zero => exact ⟨t, ht, hen, h0⟩
    | succ i => exact hsteps i (by simpa using hi)

/-- **A witness is a path from the marking at the beginning to the goal.** -/
theorem tokens_witness_iff (h : n.WellFormed) (hf : f.Over n) (k : Nat) :
    (n.tokens f).Witness k ↔ n.Witness f k := by
  constructor
  · rintro ⟨xs, hinit, htrail, hgoal⟩
    have hstart : n.restrict (xs 0) = n.initial := by
      funext p
      by_cases hp : n.Has p
      · rw [restrict_of_has hp]
        obtain ⟨q, hq, rfl⟩ := hp
        exact hinit q hq
      · rw [restrict_of_not_has hp, initial_of_not_has hp]
    obtain ⟨ts, hlen, hpath⟩ := @path_of_steps n (fun i => n.restrict (xs i)) k
      fun i hi => h.step_restrict (htrail i hi)
    refine ⟨ts, n.restrict (xs k), hstart ▸ hpath, hlen, ?_⟩
    rw [hf.holds_restrict]
    exact hgoal
  · rintro ⟨ts, m, hpath, rfl, hgoal⟩
    obtain ⟨xs, h0, hend, hsteps⟩ := hpath.steps
    refine ⟨xs, fun p _ => by rw [h0], fun i hi => step_tokens (hsteps i hi), ?_⟩
    show f.holds (xs ts.length) = true
    rw [hend]
    exact hgoal

theorem tokens_shortest_iff (h : n.WellFormed) (hf : f.Over n) (d : Nat) :
    (n.tokens f).Shortest d ↔ n.Shortest f d := by
  unfold System.Shortest Shortest
  rw [tokens_witness_iff h hf]
  refine and_congr_right fun _ => ⟨fun hmin ts m hpath hgoal => ?_, fun hmin k hk hw => ?_⟩
  · by_contra hlt
    exact hmin ts.length (by omega) ((tokens_witness_iff h hf _).mpr ⟨ts, m, hpath, rfl, hgoal⟩)
  · obtain ⟨ts, m, hpath, rfl, hgoal⟩ := (tokens_witness_iff h hf k).mp hw
    exact absurd (hmin ts m hpath hgoal) (by omega)

/-- **A first entry is one of arbitrary markings.** -/
theorem tokens_entry_iff (h : n.WellFormed) (hf : f.Over n) (k : Nat) :
    (n.tokens f).Entry k ↔ n.Entry f k := by
  constructor
  · rintro ⟨xs, htrail, hout, hgoal⟩
    refine ⟨fun i => n.restrict (xs i), fun i hi => h.step_restrict (htrail i hi),
      fun i hi => ?_, ?_⟩
    · rw [hf.holds_restrict]
      exact Bool.eq_false_iff.mpr (hout i hi)
    · rw [hf.holds_restrict]
      exact hgoal
  · rintro ⟨xs, hsteps, hout, hgoal⟩
    exact ⟨xs, fun i hi => step_tokens (hsteps i hi),
      fun i hi => Bool.eq_false_iff.mp (hout i hi), hgoal⟩

/-- Nothing reachable is in the goal if and only if there is no witness. -/
theorem no_witness_iff : (∀ k, ¬ n.Witness f k) ↔ ∀ m, n.Reachable m → f.holds m = false := by
  constructor
  · rintro h m ⟨ts, hpath⟩
    exact Bool.eq_false_iff.mpr fun hm => h ts.length ⟨ts, m, hpath, rfl, hm⟩
  · rintro h k ⟨ts, m, hpath, -, hm⟩
    rw [h m ⟨ts, hpath⟩] at hm
    exact absurd hm (by simp)

end Net

end PetriReach
