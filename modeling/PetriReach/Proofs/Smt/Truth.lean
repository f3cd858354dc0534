import Mathlib.Tactic.Common
import PetriReach.Proofs.Smt.Legal

/-!
# Truth values of terms

What a term says, put together from what its operands say. The sort of a term is put together the
same way, so each operator has two lemmas.

* `Term.decides_and_append`, `Term.decides_or_map`: a fold of truth values, of any length.
* `Term.value_sum`: a sum of integers, of any length.
* `Fold.sort?_term`: a fold of operands of its sort has that sort.
-/

namespace PetriReach.Smt

/-- The sort of the operands of a fold, and of the fold itself. -/
def Fold.sort : Fold → VarSort
  | .and => .bool
  | .or => .bool
  | .sum => .int

/-- The sum of integers, as an addition computes it. -/
def total (ns : List Int) : Int :=
  ns.foldr (· + ·) 0

@[simp] theorem total_nil : total [] = 0 :=
  rfl

@[simp] theorem total_cons (n : Int) (ns : List Int) : total (n :: ns) = n + total ns :=
  rfl

theorem total_append (ms ns : List Int) : total (ms ++ ns) = total ms + total ns := by
  induction ms with
  | nil => simp
  | cons m ms ih => rw [List.cons_append, total_cons, total_cons, ih, Int.add_assoc]

theorem Fold.term_cons_cons (f : Fold) (t u : Term) (ts : List Term) :
    f.term (t :: u :: ts) = .app f.op (t :: u :: ts) :=
  rfl

namespace Term

/-- The value of the term is the truth value of `P`. -/
def Decides (a : Assignment) (t : Term) (P : Prop) : Prop :=
  ∃ b : Bool, t.value a = some (.bool b) ∧ (b = true ↔ P)

variable {a : Assignment} {t u : Term} {P Q : Prop}

theorem value_app (op : Op) (ts : List Term) : (app op ts).value a = (values a ts).bind op.value :=
  rfl

theorem values_nil : values a [] = some [] :=
  rfl

theorem values_cons (t : Term) (ts : List Term) :
    values a (t :: ts) = (t.value a).bind fun v => (values a ts).map (v :: ·) :=
  rfl

theorem Decides.holds_iff (h : Decides a t P) : t.Holds a ↔ P := by
  obtain ⟨b, hb, hP⟩ := h
  rw [Holds, hb, ← hP]
  simp

theorem Decides.congr (h : Decides a t P) (hPQ : P ↔ Q) : Decides a t Q := by
  obtain ⟨b, hb, hP⟩ := h
  exact ⟨b, hb, hP.trans hPQ⟩

theorem decides_of_value {b : Bool} (h : t.value a = some (.bool b)) : Decides a t (b = true) :=
  ⟨b, h, Iff.rfl⟩

theorem value_sym {x : Symbol} {v : Value} (h : a x = v) : (sym x).value a = some v :=
  congrArg some h

theorem decides_not (h : Decides a t P) : Decides a t.not (¬ P) := by
  obtain ⟨b, hb, hP⟩ := h
  refine ⟨!b, ?_, ?_⟩
  · rw [not, value_app, values_cons, hb]
    rfl
  · rw [← hP]
    simp

theorem value_binary {v w : Value} (ht : t.value a = some v) (hu : u.value a = some w) (op : Op) :
    (binary op t u).value a = op.value [v, w] := by
  rw [binary, value_app, values_cons, values_cons, ht, hu]
  rfl

/-- Two terms of one sort are equal if and only if their values are. -/
theorem decides_eq {v w : Value} (ht : t.value a = some v) (hu : u.value a = some w)
    (hsort : v.sort = w.sort) : Decides a (binary .eq t u) (v = w) := by
  refine ⟨v = w, ?_, by simp⟩
  rw [value_binary ht hu]
  exact if_pos hsort

theorem decides_ge {m n : Int} (ht : t.value a = some (.int m)) (hu : u.value a = some (.int n)) :
    Decides a (binary .ge t u) (n ≤ m) := by
  refine ⟨n ≤ m, ?_, by simp⟩
  rw [value_binary ht hu]
  rfl

theorem values_map {α : Type} {g : α → Term} {v : α → Value} {xs : List α}
    (h : ∀ x ∈ xs, (g x).value a = some (v x)) : values a (xs.map g) = some (xs.map v) := by
  induction xs with
  | nil => rfl
  | cons x xs ih =>
    rw [List.forall_mem_cons] at h
    rw [List.map_cons, values_cons, h.1, Option.bind_some, ih h.2]
    rfl

theorem bools?_map {α : Type} (b : α → Bool) (xs : List α) :
    Value.bools? (xs.map fun x => .bool (b x)) = some (xs.map b) := by
  induction xs with
  | nil => rfl
  | cons x xs ih => rw [List.map_cons, Value.bools?, ih]; rfl

theorem bools?_map_bool (bs : List Bool) : Value.bools? (bs.map .bool) = some bs := by
  simpa using bools?_map id bs

theorem ints?_map {α : Type} (n : α → Int) (xs : List α) :
    Value.ints? (xs.map fun x => .int (n x)) = some (xs.map n) := by
  induction xs with
  | nil => rfl
  | cons x xs ih => rw [List.map_cons, Value.ints?, ih]; rfl

/-- Terms with truth values: none, one, or an application of the operator to all. -/
theorem fold_cases {ts : List Term} {bs : List Bool} (h : values a ts = some (bs.map .bool))
    (f : Fold) : (ts = [] ∧ bs = []) ∨
      (∃ t b, ts = [t] ∧ bs = [b] ∧ t.value a = some (.bool b)) ∨
      (f.term ts).value a = f.op.value (bs.map .bool) := by
  match ts, h with
  | [], h => exact .inl ⟨rfl, by simpa [values_nil] using h⟩
  | [t], h =>
    obtain ⟨v, hv, hbs⟩ : ∃ v, t.value a = some v ∧ [v] = bs.map Value.bool := by
      simpa [values_cons, values_nil, Option.bind_eq_some_iff] using h
    match bs, hbs with
    | [b], hbs =>
      obtain rfl : v = .bool b := by simpa using hbs
      exact .inr (.inl ⟨t, b, rfl, rfl, hv⟩)
  | t :: u :: ts, h =>
    rw [Fold.term_cons_cons, value_app, h, Option.bind_some]
    exact .inr (.inr rfl)

/-- The value of a conjunction. -/
theorem value_and {ts : List Term} {bs : List Bool} (h : values a ts = some (bs.map .bool)) :
    (Fold.and.term ts).value a = some (.bool (bs.all id)) := by
  rcases fold_cases h .and with ⟨rfl, rfl⟩ | ⟨t, b, rfl, rfl, ht⟩ | happ
  · rfl
  · rw [Fold.term, ht]
    simp
  · rw [happ]
    exact congrArg (Option.map _) (bools?_map_bool bs)

/-- The value of a disjunction. -/
theorem value_or {ts : List Term} {bs : List Bool} (h : values a ts = some (bs.map .bool)) :
    (Fold.or.term ts).value a = some (.bool (bs.any id)) := by
  rcases fold_cases h .or with ⟨rfl, rfl⟩ | ⟨t, b, rfl, rfl, ht⟩ | happ
  · rfl
  · rw [Fold.term, ht]
    simp
  · rw [happ]
    exact congrArg (Option.map _) (bools?_map_bool bs)

/-- The truth values of terms that have one. -/
theorem exists_truths {ts : List Term} (h : ∀ t ∈ ts, ∃ P, Decides a t P) :
    ∃ b : Term → Bool, (∀ t ∈ ts, b t = true ↔ t.Holds a) ∧
      values a ts = some ((ts.map b).map .bool) := by
  classical
  have hval : ∀ t ∈ ts, t.value a = some (.bool (decide (t.Holds a))) := by
    intro t ht
    obtain ⟨P, b, hb, hP⟩ := h t ht
    rw [hb]
    cases b <;> simp [Holds, hb]
  refine ⟨fun t => decide (t.Holds a), fun t _ => by simp, ?_⟩
  have hvals := values_map (g := id) hval
  rw [List.map_id] at hvals
  rw [hvals, List.map_map]
  rfl

/-- A conjunction is true if and only if all its operands are. -/
theorem decides_and {ts : List Term} (h : ∀ t ∈ ts, ∃ P, Decides a t P) :
    Decides a (Fold.and.term ts) (∀ t ∈ ts, t.Holds a) := by
  obtain ⟨b, hb, hvals⟩ := exists_truths h
  refine ⟨_, value_and hvals, ?_⟩
  rw [List.all_map, List.all_eq_true]
  exact forall₂_congr hb

/-- A disjunction is true if and only if one of its operands is. -/
theorem decides_or {ts : List Term} (h : ∀ t ∈ ts, ∃ P, Decides a t P) :
    Decides a (Fold.or.term ts) (∃ t ∈ ts, t.Holds a) := by
  obtain ⟨b, hb, hvals⟩ := exists_truths h
  refine ⟨_, value_or hvals, ?_⟩
  rw [List.any_map, List.any_eq_true]
  exact exists_congr fun t => and_congr_right (hb t)

section Families

variable {α β : Type} {g : α → Term} {g' : β → Term} {p : α → Prop} {q : β → Prop}

theorem decides_or_map {xs : List α} (h : ∀ x ∈ xs, Decides a (g x) (p x)) :
    Decides a (Fold.or.term (xs.map g)) (∃ x ∈ xs, p x) := by
  have hterms : ∀ t ∈ xs.map g, ∃ P, Decides a t P :=
    List.forall_mem_map.mpr fun x hx => ⟨_, h x hx⟩
  refine (decides_or hterms).congr ?_
  simp only [List.mem_map, exists_exists_and_eq_and]
  exact exists_congr fun x => and_congr_right fun hx => (h x hx).holds_iff

theorem decides_and_append {xs : List α} {ys : List β} (h : ∀ x ∈ xs, Decides a (g x) (p x))
    (h' : ∀ y ∈ ys, Decides a (g' y) (q y)) :
    Decides a (Fold.and.term (xs.map g ++ ys.map g')) ((∀ x ∈ xs, p x) ∧ ∀ y ∈ ys, q y) := by
  have hterms : ∀ t ∈ xs.map g ++ ys.map g', ∃ P, Decides a t P :=
    List.forall_mem_append.mpr ⟨List.forall_mem_map.mpr fun x hx => ⟨_, h x hx⟩,
      List.forall_mem_map.mpr fun y hy => ⟨_, h' y hy⟩⟩
  refine (decides_and hterms).congr ?_
  rw [List.forall_mem_append, List.forall_mem_map, List.forall_mem_map]
  exact and_congr (forall₂_congr fun x hx => (h x hx).holds_iff)
    (forall₂_congr fun y hy => (h' y hy).holds_iff)

end Families

/-- The value of a sum is the sum of the values. -/
theorem value_sum {α : Type} {g : α → Term} {n : α → Int} {xs : List α}
    (h : ∀ x ∈ xs, (g x).value a = some (.int (n x))) :
    (Fold.sum.term (xs.map g)).value a = some (.int (total (xs.map n))) := by
  match xs, h with
  | [], _ => rfl
  | [x], h => simpa [Fold.term] using h x (by simp)
  | x :: y :: xs, h =>
    have hvals := values_map h
    rw [List.map_cons, List.map_cons, Fold.term_cons_cons, ← List.map_cons, ← List.map_cons,
      value_app, hvals, Option.bind_some]
    exact congrArg (Option.map _) (ints?_map n _)

/-! ## Sorts -/

variable {ds : List (Symbol × VarSort)}

theorem sort?_app (op : Op) (ts : List Term) :
    (app op ts).sort? ds = (sorts? ds ts).bind op.sort? :=
  rfl

theorem sorts?_cons (t : Term) (ts : List Term) :
    sorts? ds (t :: ts) = (t.sort? ds).bind fun σ => (sorts? ds ts).map (σ :: ·) :=
  rfl

theorem sorts?_of_forall {ts : List Term} {τ : VarSort} (h : ∀ t ∈ ts, t.sort? ds = some τ) :
    sorts? ds ts = some (List.replicate ts.length τ) := by
  induction ts with
  | nil => rfl
  | cons t ts ih =>
    rw [List.forall_mem_cons] at h
    rw [sorts?_cons, h.1, Option.bind_some, ih h.2]
    rfl

theorem sort?_binary {σ τ : VarSort} (ht : t.sort? ds = some σ) (hu : u.sort? ds = some τ)
    (op : Op) : (binary op t u).sort? ds = op.sort? [σ, τ] := by
  rw [binary, sort?_app, sorts?_cons, sorts?_cons, ht, hu]
  rfl

theorem sort?_not (h : t.sort? ds = some .bool) : t.not.sort? ds = some .bool := by
  rw [not, sort?_app, sorts?_cons, h]
  rfl

theorem sort?_num {n : Int} (h : 0 ≤ n) : (num n).sort? ds = some .int :=
  if_pos h

end Term

/-- A fold of operands of its sort has that sort. -/
theorem Fold.sort?_term (f : Fold) {ts : List Term} {ds : List (Symbol × VarSort)}
    (h : ∀ t ∈ ts, t.sort? ds = some f.sort) : (f.term ts).sort? ds = some f.sort := by
  match ts, h with
  | [], _ => cases f <;> rfl
  | [t], h => exact h t (by simp)
  | t :: u :: ts, h =>
    rw [term_cons_cons, Term.sort?_app, Term.sorts?_of_forall h, Option.bind_some]
    cases f <;> simp [op, sort, Op.sort?]

/-- A declared symbol has its sort where every declaration has that sort. -/
theorem lookup_of_forall {ds : List (Symbol × VarSort)} {x : Symbol} {τ : VarSort}
    (hx : (x, τ) ∈ ds) (h : ∀ d ∈ ds, d.2 = τ) : ds.lookup x = some τ := by
  induction ds with
  | nil => simp at hx
  | cons d ds ih =>
    rw [List.forall_mem_cons] at h
    rw [List.lookup_cons]
    by_cases hd : x = d.1
    · simp [hd, h.1]
    · rw [beq_eq_false_iff_ne.mpr hd]
      refine ih ?_ h.2
      rcases List.mem_cons.mp hx with rfl | hx
      · exact absurd rfl hd
      · exact hx

end PetriReach.Smt
