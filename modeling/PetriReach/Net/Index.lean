/-!
# Numbers by name

A map from names to numbers is kept in the order of the names. The weights of arcs are such a map,
and so is the index of a list of named things, which leads from a name to its position.

* `NameMap.Points`: a map is the index of a list.
* `NameMap.points_positions`, `NameMap.Points.push`, `NameMap.Points.update`: an index that is made
  for a list, and what keeps it in step with the list.
-/

namespace PetriReach

section Lists

variable {κ : Type} [DecidableEq κ]

theorem lookup_cons_eq (a : κ × Nat) (m : List (κ × Nat)) (q : κ) :
    (a :: m).lookup q = if q = a.1 then some a.2 else m.lookup q := by
  rw [List.lookup_cons]
  by_cases hq : q = a.1
  · rw [if_pos hq, beq_iff_eq.mpr hq]
  · rw [if_neg hq, beq_eq_false_iff_ne.mpr hq]

/-- What is new to a list and put behind it stands at its end. -/
theorem idxOf?_concat {names : List κ} {p : κ} (hp : p ∉ names) (q : κ) :
    (names ++ [p]).idxOf? q = if q = p then some names.length else names.idxOf? q := by
  have happend : (names ++ [p]).idxOf? q =
      (names.idxOf? q).or ((List.idxOf? q [p]).map (· + names.length)) := List.findIdx?_append
  rw [happend, List.idxOf?_cons]
  by_cases hq : q = p
  · have hnone : names.idxOf? p = none := List.idxOf?_eq_none_iff.mpr hp
    simp [hq, hnone]
  · have hne : ¬ p = q := fun h => hq h.symm
    simp [hq, hne]

end Lists

/-- Numbers by name, increasing by name. -/
abbrev NameMap := List (String × Nat)

namespace NameMap

variable {m : NameMap} {p q : String} {k : Nat}

/-- Gives the name `p` the number `k`, in place of any number it had. -/
def set (p : String) (k : Nat) : NameMap → NameMap
  | [] => [(p, k)]
  | (q, v) :: rest =>
    if p < q then (p, k) :: (q, v) :: rest
    else if p = q then (p, k) :: rest
    else (q, v) :: set p k rest

/-- Increasing by name. -/
def Sorted (m : NameMap) : Prop :=
  m.Pairwise fun a b => a.1 < b.1

theorem mem_set {a : String × Nat} (h : a ∈ m.set p k) : a = (p, k) ∨ a ∈ m := by
  induction m with
  | nil => exact .inl (List.mem_singleton.mp h)
  | cons b m ih =>
    obtain ⟨q, v⟩ := b
    rw [set] at h
    split at h
    · exact List.mem_cons.mp h
    · split at h
      · rcases List.mem_cons.mp h with h | h
        · exact .inl h
        · exact .inr (List.mem_cons_of_mem _ h)
      · rcases List.mem_cons.mp h with h | h
        · exact .inr (h ▸ List.mem_cons_self)
        · rcases ih h with h | h
          · exact .inl h
          · exact .inr (List.mem_cons_of_mem _ h)

theorem Sorted.set (h : m.Sorted) (p : String) (k : Nat) : (m.set p k).Sorted := by
  induction m with
  | nil => exact List.pairwise_singleton _ _
  | cons b m ih =>
    obtain ⟨q, v⟩ := b
    obtain ⟨hq, hm⟩ := List.pairwise_cons.mp h
    rw [NameMap.set]
    split
    · rename_i hpq
      refine List.pairwise_cons.mpr ⟨fun a ha => ?_, h⟩
      rcases List.mem_cons.mp ha with rfl | ha
      · exact hpq
      · exact String.lt_trans hpq (hq a ha)
    · split
      · rename_i hpq
        subst hpq
        exact List.pairwise_cons.mpr ⟨hq, hm⟩
      · rename_i hlt hne
        refine List.pairwise_cons.mpr ⟨fun a ha => ?_, ih hm⟩
        rcases mem_set ha with rfl | ha
        · exact String.not_le.mp fun hle => hne (String.le_antisymm hle (String.not_lt.mp hlt))
        · exact hq a ha

/-- The number that was set last counts. -/
theorem lookup_set (m : NameMap) (p q : String) (k : Nat) :
    (m.set p k).lookup q = if q = p then some k else m.lookup q := by
  induction m with
  | nil => exact lookup_cons_eq (p, k) [] q
  | cons b m ih =>
    obtain ⟨r, v⟩ := b
    rw [set]
    by_cases hpr : p < r
    · rw [if_pos hpr, lookup_cons_eq]
    · rw [if_neg hpr]
      by_cases heq : p = r
      · subst heq
        rw [if_pos rfl, lookup_cons_eq, lookup_cons_eq]
        by_cases hq : q = p
        · rw [if_pos hq, if_pos hq]
        · rw [if_neg hq, if_neg hq, if_neg hq]
      · rw [if_neg heq, lookup_cons_eq, lookup_cons_eq, ih]
        by_cases hqr : q = r
        · subst hqr
          rw [if_pos rfl, if_neg (Ne.symm heq), if_pos rfl]
        · rw [if_neg hqr, if_neg hqr]

/-! ## Indexes -/

/-- The map leads from every name of a list to its first position, and knows no other names. -/
structure Points (m : NameMap) (names : List String) : Prop where
  sorted : m.Sorted
  lookup : ∀ p, m.lookup p = names.idxOf? p

/-- The positions of names, counted from `k`. -/
def positions (k : Nat) : List String → NameMap
  | [] => []
  | p :: names => (positions (k + 1) names).set p k

theorem sorted_positions (k : Nat) (names : List String) : (positions k names).Sorted := by
  induction names generalizing k with
  | nil => exact .nil
  | cons p names ih => exact (ih (k + 1)).set p k

theorem lookup_positions (k : Nat) (names : List String) (q : String) :
    (positions k names).lookup q = (names.idxOf? q).map (k + ·) := by
  induction names generalizing k with
  | nil => rfl
  | cons p names ih =>
    rw [positions, lookup_set, ih, List.idxOf?_cons]
    by_cases hq : q = p
    · simp [hq]
    · have hne : ¬ p = q := fun h => hq h.symm
      simp only [if_neg hq, beq_iff_eq, if_neg hne, Option.map_map]
      congr 1
      funext i
      exact (Nat.add_right_comm k 1 i).trans (Nat.add_assoc k i 1)

theorem points_positions (names : List String) : (positions 0 names).Points names where
  sorted := sorted_positions 0 names
  lookup q := by
    rw [lookup_positions]
    simp

/-- Changes the thing that a name leads to. -/
def update {α : Type} (m : NameMap) (xs : List α) (p : String) (f : α → α) : List α :=
  match m.lookup p with
  | some i => xs.modify i f
  | none => xs

namespace Points

variable {α : Type} {xs : List α} {name : α → String}

theorem isSome_iff {names : List String} (h : m.Points names) :
    (m.lookup p).isSome = true ↔ p ∈ names := by
  rw [h.lookup, List.isSome_idxOf?]

/-- A name that is new to the index leads to what is put behind the list. -/
theorem push (h : m.Points (xs.map name)) (x : α) (hx : ¬ (m.lookup (name x)).isSome = true) :
    (m.set (name x) xs.length).Points ((xs ++ [x]).map name) where
  sorted := h.sorted.set _ _
  lookup q := by
    rw [lookup_set, h.lookup, List.map_append, List.map_singleton,
      idxOf?_concat (mt h.isSome_iff.mpr hx), List.length_map]

theorem map_update {f : α → α} (hf : ∀ x, name (f x) = name x) (m : NameMap) (p : String) :
    (m.update xs p f).map name = xs.map name := by
  unfold update
  split
  · next i hi =>
    refine List.ext_getElem? fun j => ?_
    rw [List.getElem?_map, List.getElem?_modify, List.getElem?_map]
    cases xs[j]? with
    | none => rfl
    | some x =>
      show some (name (if i = j then f x else x)) = some (name x)
      split
      · rw [hf]
      · rfl
  · rfl

/-- A change that keeps names keeps the index in step. -/
theorem update (h : m.Points (xs.map name)) (p : String) {f : α → α}
    (hf : ∀ x, name (f x) = name x) : m.Points ((m.update xs p f).map name) :=
  (map_update hf m p).symm ▸ h

end Points

end NameMap

end PetriReach
