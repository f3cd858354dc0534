import PetriReach.Encoder.Goal
import PetriReach.Proofs.Encoder.Frames
import PetriReach.Proofs.Formula.Atoms

/-!
# Goals as terms

A formula over values of its sums, and the term that is written for it. What is proved of the term
of a sum carries over to the term of a formula, in either encoding.

* `Encoder.lowerFormula_says`: the term of a formula says what the formula says.
* `Encoder.lowerSumInt_says`: the term of a sum, in tokens, has the value of the sum.
* `Encoder.lowerFormula_tokens`: the term of a formula, in tokens, has its truth value.
* `Encoder.lowerSumBool_says`: in marks, it says that one of the places is marked.
-/

namespace PetriReach

open Smt

/-! ## Truth over values of sums -/

/-- A sum in marks: one of its places is marked, or it is a constant other than 0. -/
def TokenSum.marked (s : TokenSum) (b : String → Bool) : Bool :=
  if s.terms = [] then s.constant ≠ 0 else s.terms.any fun m => b m.place

namespace Formula

mutual

/-- Whether a formula is true if its sums have the given values. -/
def truth (v : TokenSum → Value) : Formula → Bool
  | .tt => true
  | .ff => false
  | .not f => !f.truth v
  | .junction .and fs => (truths v fs).all id
  | .junction .or fs => (truths v fs).any id
  | .atom l op r => op.op.value [v l, v r] = some (.bool true)

/-- Which formulas are true. -/
def truths (v : TokenSum → Value) : List Formula → List Bool
  | [] => []
  | f :: fs => f.truth v :: truths v fs

end

theorem value_op_int (op : Comparison) (a b : Int) :
    op.op.value [.int a, .int b] = some (.bool (op.holds a b)) := by
  cases op <;> simp [Comparison.op, Op.value, Comparison.holds, Value.sort]

mutual

/-- Over the values of sums at a marking, truth is that at the marking. -/
theorem truth_value (m : Marking) :
    ∀ f : Formula, f.truth (fun s => .int (s.value m)) = f.holds m
  | .tt => rfl
  | .ff => rfl
  | .not f => by rw [truth, holds, truth_value m f]
  | .junction .and fs => by rw [truth, holds, truths_value m fs, allHold_eq_all, List.all_map]; rfl
  | .junction .or fs => by rw [truth, holds, truths_value m fs, anyHolds_eq_any, List.any_map]; rfl
  | .atom l op r => by
    rw [truth, holds, value_op_int]
    cases op.holds (l.value m) (r.value m) <;> rfl

theorem truths_value (m : Marking) :
    ∀ fs : List Formula, truths (fun s => .int (s.value m)) fs = fs.map (·.holds m)
  | [] => rfl
  | f :: fs => by rw [truths, List.map_cons, truth_value m f, truths_value m fs]

end

end Formula

namespace Encoder

/-! ## Formulas -/

section Lowering

variable (c : Encoding) (k : Option Int) (D : List (Symbol × VarSort) → Prop)
  (V : Assignment → (TokenSum → Value) → Prop) (τ : VarSort)

/-- A sum is written as a term of sort `τ` with the value of the sum. -/
def SaysSum (s : TokenSum) : Prop :=
  ∃ t, lowerSum c k s = .ok t ∧ (∀ {ds}, D ds → t.sort? ds = some τ) ∧
    ∀ {a v}, V a v → t.value a = some (v s) ∧ (v s).sort = τ

/-- Both sides of a comparison are written so, and the comparison is defined for them. -/
def SaysAtom (l : TokenSum) (op : Comparison) (r : TokenSum) : Prop :=
  SaysSum c k D V τ l ∧ SaysSum c k D V τ r ∧ (τ = .int ∨ op = .eq ∨ op = .ne)

variable {c k D V τ}

theorem sort?_op {op : Comparison} (h : τ = .int ∨ op = .eq ∨ op = .ne) :
    op.op.sort? [τ, τ] = some .bool := by
  rcases h with rfl | rfl | rfl
  · cases op <;> rfl
  · simp [Comparison.op, Op.sort?]
  · simp [Comparison.op, Op.sort?]

theorem value_op {op : Comparison} (h : τ = .int ∨ op = .eq ∨ op = .ne) {x y : Value}
    (hx : x.sort = τ) (hy : y.sort = τ) :
    op.op.value [x, y] = some (.bool (op.op.value [x, y] = some (.bool true))) := by
  rcases h with rfl | rfl | rfl
  · cases x with
    | bool b => simp [Value.sort] at hx
    | int m =>
      cases y with
      | bool b => simp [Value.sort] at hy
      | int n => rw [Formula.value_op_int]; simp
  · simp [Comparison.op, Op.value, hx, hy]
  · simp [Comparison.op, Op.value, hx, hy]

mutual

/-- **The term of a formula says what the formula says.** -/
theorem lowerFormula_says : ∀ {f : Formula}, f.Atoms (SaysAtom c k D V τ) →
    ∃ t, lowerFormula c k f = .ok t ∧ (∀ {ds}, D ds → t.sort? ds = some .bool) ∧
      ∀ {a v}, V a v → t.value a = some (.bool (f.truth v))
  | .tt, _ => ⟨.bool true, rfl, fun _ => rfl, fun _ => rfl⟩
  | .ff, _ => ⟨.bool false, rfl, fun _ => rfl, fun _ => rfl⟩
  | .not f, h => by
    obtain ⟨t, ht, hsort, hval⟩ := lowerFormula_says (f := f) h
    refine ⟨t.not, by rw [lowerFormula, ht]; rfl, fun hds => Term.sort?_not (hsort hds), ?_⟩
    intro a v hav
    simp [Term.not, Term.value, Term.values, hval hav, Op.value, Formula.truth]
  | .junction j fs, h => by
    obtain ⟨ts, hts, hsort, hval⟩ := lowerFormulas_says (show Formula.AllAtoms _ fs from h)
    refine ⟨j.fold.term ts, by rw [lowerFormula, hts]; rfl, fun hds => ?_, ?_⟩
    · have hbool : j.fold.sort = .bool := by cases j <;> rfl
      have hfold := j.fold.sort?_term fun t ht => hbool.symm ▸ hsort hds t ht
      rwa [hbool] at hfold
    · intro a v hav
      cases j with
      | and => exact Term.value_and (hval hav)
      | or => exact Term.value_or (hval hav)
  | .atom l op r, h => by
    obtain ⟨⟨t, ht, htsort, htval⟩, ⟨u, hu, husort, huval⟩, hop⟩ := h
    refine ⟨.binary op.op t u, by rw [lowerFormula, ht, hu]; rfl, fun hds => ?_, ?_⟩
    · rw [Term.sort?_binary (htsort hds) (husort hds), sort?_op hop]
    · intro a v hav
      obtain ⟨ht, hl⟩ := htval hav
      obtain ⟨hu, hr⟩ := huval hav
      rw [Term.value_binary ht hu, value_op hop hl hr, Formula.truth]

theorem lowerFormulas_says : ∀ {fs : List Formula}, Formula.AllAtoms (SaysAtom c k D V τ) fs →
    ∃ ts, lowerFormulas c k fs = .ok ts ∧ (∀ {ds}, D ds → ∀ t ∈ ts, t.sort? ds = some .bool) ∧
      ∀ {a v}, V a v → Term.values a ts = some ((Formula.truths v fs).map .bool)
  | [], _ => ⟨[], rfl, by simp, fun _ => rfl⟩
  | f :: fs, h => by
    obtain ⟨t, ht, htsort, htval⟩ := lowerFormula_says h.1
    obtain ⟨ts, hts, htssort, htsval⟩ := lowerFormulas_says h.2
    refine ⟨t :: ts, by rw [lowerFormulas, ht, hts]; rfl, fun hds => ?_, ?_⟩
    · rw [List.forall_mem_cons]
      exact ⟨htsort hds, htssort hds⟩
    · intro a v hav
      rw [Term.values, htval hav, Option.bind_some, htsval hav]
      rfl

end

end Lowering

/-! ## Sums -/

/-- A multiple, as a term. -/
def multiple (k : Option Int) (m : Multiple) : Term :=
  if m.factor = 1 then .sym (place m.place k)
  else .binary .mul (.sym (place m.place k)) (.num m.factor)

theorem valueFrom_eq_total (m : Marking) (c : Int) (ts : List Multiple) :
    TokenSum.valueFrom m c ts = total (ts.map fun t => t.factor * (m t.place : Int)) + c := by
  induction ts with
  | nil => simp [TokenSum.valueFrom]
  | cons t ts ih => rw [TokenSum.valueFrom, ih, List.map_cons, total_cons, Int.add_assoc]

variable {k : Option Int} {s : TokenSum}

theorem mapM_lowerMultiple (hq : ∀ p ∈ s.mentions, isQuotable p = true) :
    s.terms.mapM (lowerMultiple k) = .ok (s.terms.map (multiple k)) := by
  refine mapM_eq_pure fun m hm => ?_
  rw [lowerMultiple, var_eq (hq m.place (List.mem_map_of_mem hm))]
  rfl

/-- In tokens, the term of a sum has the value of the sum. -/
theorem lowerSumInt_says (hq : ∀ p ∈ s.mentions, isQuotable p = true) (hs : s.NonNeg) :
    ∃ t, lowerSumInt k s = .ok t ∧
      (∀ {ds : List (Symbol × VarSort)},
        (∀ p ∈ s.mentions, ds.lookup (place p k) = some .int) → t.sort? ds = some .int) ∧
      ∀ {a : Assignment} {m : Marking}, (∀ p ∈ s.mentions, a (place p k) = .int (m p)) →
        t.value a = some (.int (s.value m)) := by
  -- the summands: the multiples, and the constant where it is written
  let constant : List Int := if s.constant = 0 ∧ s.terms ≠ [] then [] else [s.constant]
  let summand : Multiple ⊕ Int → Term := Sum.elim (multiple k) .num
  let summands : List (Multiple ⊕ Int) := s.terms.map .inl ++ constant.map .inr
  have hform : lowerSumInt k s = .ok (Fold.sum.term (summands.map summand)) := by
    rw [lowerSumInt, mapM_lowerMultiple hq]
    show Except.ok _ = _
    congr 2
    simp only [summands, constant, summand, List.map_append, List.map_map]
    congr 1
    split <;> rfl
  refine ⟨_, hform, fun {ds} hds => ?_, fun {a m} ha => ?_⟩
  · refine Fold.sort?_term .sum fun t ht => ?_
    simp only [summands, List.map_append, List.map_map, List.mem_append, List.mem_map] at ht
    rcases ht with ⟨x, hx, rfl⟩ | ⟨n, hn, rfl⟩
    · have hsym : (Term.sym (place x.place k)).sort? ds = some .int :=
        hds x.place (List.mem_map_of_mem hx)
      show (multiple k x).sort? ds = _
      unfold multiple
      split
      · exact hsym
      · exact Term.sort?_binary hsym (Term.sort?_num (hs.2 x hx)) .mul
    · have hn : n = s.constant := by
        simp only [constant] at hn
        split at hn
        · simp at hn
        · simpa using hn
      exact hn ▸ Term.sort?_num hs.1
  · let amount : Multiple ⊕ Int → Int := Sum.elim (fun x => x.factor * m x.place) id
    have hvals : ∀ x ∈ summands, (summand x).value a = some (.int (amount x)) := by
      intro x hx
      simp only [summands, List.mem_append, List.mem_map] at hx
      rcases hx with ⟨x, hx, rfl⟩ | ⟨n, -, rfl⟩
      · have hsym : (Term.sym (place x.place k)).value a = some (.int (m x.place)) :=
          congrArg some (ha x.place (List.mem_map_of_mem hx))
        show (multiple k x).value a = some (.int (x.factor * m x.place))
        unfold multiple
        split
        · next h1 => rw [hsym, h1, Int.one_mul]
        · rw [Term.value_binary hsym (show (Term.num x.factor).value a = _ from rfl), Int.mul_comm]
          rfl
      · rfl
    have hconst : total (constant.map id) = s.constant := by
      simp only [constant]
      split
      · next h0 => simp [h0.1]
      · simp
    rw [Term.value_sum hvals, TokenSum.value, valueFrom_eq_total]
    simp only [summands, List.map_append, List.map_map, total_append]
    exact congrArg (fun n => some (Value.int (_ + n))) hconst

/-- **In tokens, the term of a formula has its truth value**, over the variables of the names that
it mentions. -/
theorem lowerFormula_tokens {f : Formula} (hq : ∀ p ∈ f.mentions, isQuotable p = true)
    (hneg : f.NonNeg) (k : Option Int) :
    ∃ t, lowerFormula .integer k f = .ok t ∧
      (∀ {ds : List (Symbol × VarSort)},
        (∀ p ∈ f.mentions, ds.lookup (place p k) = some .int) → t.sort? ds = some .bool) ∧
      ∀ {a : Assignment} {m : Marking}, (∀ p ∈ f.mentions, a (place p k) = .int (m p)) →
        t.value a = some (.bool (f.holds m)) := by
  let D : List (Symbol × VarSort) → Prop := fun ds =>
    ∀ p ∈ f.mentions, ds.lookup (place p k) = some .int
  let V : Assignment → (TokenSum → Value) → Prop := fun a v =>
    ∃ m : Marking, (∀ p ∈ f.mentions, a (place p k) = .int (m p)) ∧ v = fun s => .int (s.value m)
  have hsum : ∀ {s : TokenSum}, (∀ p ∈ s.mentions, p ∈ f.mentions) → s.NonNeg →
      SaysSum .integer k D V .int s := by
    intro s hs hneg
    obtain ⟨t, ht, htsort, htval⟩ := lowerSumInt_says (k := k) (fun p hp => hq p (hs p hp)) hneg
    refine ⟨t, ht, fun hds => htsort fun p hp => hds p (hs p hp), ?_⟩
    rintro a v ⟨m, hm, rfl⟩
    exact ⟨htval fun p hp => hm p (hs p hp), rfl⟩
  have hatoms := ((Formula.atoms_mentions (K := (· ∈ f.mentions)) fun p hp => hp).and hneg).mono
    (Q := SaysAtom .integer k D V .int)
    fun l op r h => ⟨hsum h.1.1 h.2.1, hsum h.1.2 h.2.2, .inl rfl⟩
  obtain ⟨t, ht, htsort, htval⟩ := lowerFormula_says hatoms
  refine ⟨t, ht, htsort, fun {a m} hm => ?_⟩
  rw [htval ⟨m, hm, rfl⟩, Formula.truth_value]

/-- In marks, the term of a sum says that one of its places is marked. -/
theorem lowerSumBool_says (hq : ∀ p ∈ s.mentions, isQuotable p = true) :
    ∃ t, lowerSumBool k s = .ok t ∧
      (∀ {ds : List (Symbol × VarSort)},
        (∀ p ∈ s.mentions, ds.lookup (place p k) = some .bool) → t.sort? ds = some .bool) ∧
      ∀ {a : Assignment} {b : String → Bool}, (∀ p ∈ s.mentions, a (place p k) = .bool (b p)) →
        t.value a = some (.bool (s.marked b)) := by
  by_cases hterms : s.terms = []
  · refine ⟨.bool (s.constant ≠ 0), by rw [lowerSumBool, if_pos hterms], fun _ => rfl, fun _ => ?_⟩
    rw [TokenSum.marked, if_pos hterms]
    rfl
  · have hvars : (s.terms.mapM fun m => var m.place k) =
        .ok (s.terms.map fun m => .sym (place m.place k)) :=
      mapM_eq_pure fun m hm => var_eq (hq m.place (List.mem_map_of_mem hm)) k
    refine ⟨Fold.or.term (s.terms.map fun m => .sym (place m.place k)), ?_, fun {ds} hds => ?_,
      fun {a b} ha => ?_⟩
    · rw [lowerSumBool, if_neg hterms, hvars]
      rfl
    · refine Fold.sort?_term .or fun t ht => ?_
      obtain ⟨m, hm, rfl⟩ := List.mem_map.mp ht
      exact hds m.place (List.mem_map_of_mem hm)
    · have hvals : Term.values a (s.terms.map fun m => .sym (place m.place k)) =
          some ((s.terms.map fun m => b m.place).map .bool) := by
        rw [List.map_map]
        refine Term.values_map fun m hm => ?_
        exact congrArg some (ha m.place (List.mem_map_of_mem hm))
      rw [Term.value_or hvals, TokenSum.marked, if_neg hterms, List.any_map]
      rfl

end Encoder

end PetriReach
