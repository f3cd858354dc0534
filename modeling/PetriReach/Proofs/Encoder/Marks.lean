import PetriReach.Proofs.Encoder.Tokens

/-!
# Steps in marks

In the boolean encoding the variables of a step say which places are marked. A firing marks its
output places, clears its other input places, and leaves the rest as it was.

* `Net.marks`: the system that the boolean encoding writes.
* `Encoder.exists_reading_marks`: the boolean encoder writes this system.
* `Net.system`: the system of either encoding.
-/

namespace PetriReach

open Smt

/-- Which places are marked. -/
abbrev Marks := String → Bool

/-- Which places are marked after a firing. -/
def Transition.mark (t : Transition) (b : Marks) : Marks :=
  fun p => if t.post.touches p then true else if t.pre.touches p then false else b p

/-- Whether a formula is true where a sum says that one of its places is marked. -/
def Formula.marked (f : Formula) (b : Marks) : Bool :=
  f.truth fun s => .bool (s.marked b)

/-- The marks of a net, on its places. -/
def Net.marks (n : Net) (f : Formula) : System Marks where
  init b := ∀ p ∈ n.places, b p.id = decide (p.tokens > 0)
  step b b' := ∃ t ∈ n.transitions, (∀ arc ∈ t.pre, b arc.1 = true) ∧
    ∀ p ∈ n.places, b' p.id = t.mark b p.id
  goal b := f.marked b = true

namespace Encoder

variable {e : Encoder} {f : Formula}

/-- The variables of a step show marks. -/
def ShowsMarks (e : Encoder) (a : Assignment) (k : Nat) (b : Marks) : Prop :=
  ∀ p ∈ e.net.places, a (place p.id (some (k : Int))) = .bool (b p.id)

/-- What a firing makes of the mark of a place. -/
def marks (t : Transition) (k k' : Int) (p : Place) : Term :=
  if t.post.touches p.id then .sym (place p.id (some k'))
  else if t.pre.touches p.id then (Term.sym (place p.id (some k'))).not
  else .binary .eq (.sym (place p.id (some k'))) (.sym (place p.id (some k)))

/-- The term of a firing, in marks. -/
def firingMarks (net : Net) (t : Transition) (k k' : Int) : Term :=
  Fold.and.term
    (t.pre.map (fun arc => .sym (place arc.1 (some k))) ++ net.places.map (marks t k k'))

theorem ShowsMarks.value_sym {a : Assignment} {k : Nat} {b : Marks} (h : e.ShowsMarks a k b)
    {p : String} (hp : e.net.Has p) :
    (Term.sym (place p (some (k : Int)))).value a = some (.bool (b p)) := by
  obtain ⟨q, hq, rfl⟩ := hp
  exact Term.value_sym (h q hq)

/-! ## Firing -/

theorem firingBool_eq (hw : e.Writable) (hn : e.net.WellFormed) {t : Transition}
    (ht : t ∈ e.net.transitions) (k k' : Int) :
    firingBool e.net t k k' = .ok (firingMarks e.net t k k') := by
  have henabled : (t.pre.mapM fun a => var a.1 (some k)) =
      .ok (t.pre.map fun arc => .sym (place arc.1 (some k))) :=
    mapM_eq_pure fun arc harc => var_eq (hw.quotable (has_of_mem_pre hn ht harc)) _
  have heffect : (e.net.places.mapM fun p => do
      let after ← var p.id (some k')
      if t.post.touches p.id then return after
      else if t.pre.touches p.id then return after.not
      else return .binary .eq after (← var p.id (some k)) :
      Except EncodingError (List Term)) = .ok (e.net.places.map (marks t k k')) := by
    refine mapM_eq_pure fun p hp => ?_
    rw [var_eq (hw p hp), var_eq (hw p hp)]
    unfold marks
    by_cases hpost : t.post.touches p.id = true
    · simp only [hpost, if_true]
      rfl
    · by_cases hpre : t.pre.touches p.id = true
      · simp only [hpost, hpre, if_true]
        rfl
      · simp only [hpost, hpre]
        rfl
  rw [firingBool, henabled, heffect]
  rfl

theorem sort?_firingMarks (hn : e.net.WellFormed) {t : Transition} (ht : t ∈ e.net.transitions)
    {ds : List (Symbol × VarSort)} {k k' : Int} (hbool : e.placeSort = .bool)
    (hk : e.Covers ds (some k)) (hk' : e.Covers ds (some k')) :
    (firingMarks e.net t k k').sort? ds = some .bool := by
  refine Fold.sort?_term .and fun u hu => ?_
  rcases List.mem_append.mp hu with hu | hu
  · obtain ⟨arc, harc, rfl⟩ := List.mem_map.mp hu
    rw [hk.sort?_sym (has_of_mem_pre hn ht harc), hbool]
    rfl
  · obtain ⟨p, hp, rfl⟩ := List.mem_map.mp hu
    have hbefore := hk.sort?_sym ⟨p, hp, rfl⟩
    have hafter := hk'.sort?_sym ⟨p, hp, rfl⟩
    rw [hbool] at hbefore hafter
    unfold marks
    split
    · exact hafter
    · split
      · exact Term.sort?_not hafter
      · exact Term.sort?_binary hafter hbefore .eq

/-- **The term of a firing** says that its input places are marked and what it marks. -/
theorem firingBool_decides (hn : e.net.WellFormed) {t : Transition} (ht : t ∈ e.net.transitions)
    {a : Assignment} {k : Nat} {b b' : Marks} (hb : e.ShowsMarks a k b)
    (hb' : e.ShowsMarks a (k + 1) b') :
    (firingMarks e.net t k (k + 1)).Decides a
      ((∀ arc ∈ t.pre, b arc.1 = true) ∧ ∀ p ∈ e.net.places, b' p.id = t.mark b p.id) := by
  refine Term.decides_and_append (fun arc harc => ?_) fun p hp => ?_
  · exact Term.decides_of_value (hb.value_sym (has_of_mem_pre hn ht harc))
  · have hbefore := hb.value_sym ⟨p, hp, rfl⟩
    have hafter : (Term.sym (place p.id (some ((k : Int) + 1)))).value a = _ :=
      hb'.value_sym ⟨p, hp, rfl⟩
    unfold marks Transition.mark
    split
    · exact Term.decides_of_value hafter
    · split
      · exact (Term.decides_not (Term.decides_of_value hafter)).congr (by simp)
      · exact (Term.decides_eq hafter hbefore rfl).congr (by simp)

/-! ## Checks -/

theorem firstError_ok {α : Type} {test : α → Option EncodingError} {as : List α}
    (h : firstError test as = .ok ()) : ∀ a ∈ as, test a = none := by
  unfold firstError at h
  split at h
  · cases h
  · next hnone => exact List.findSome?_eq_none_iff.mp hnone

mutual

/-- A formula that passes the check tests sums that pass it for equality. -/
theorem checkFormula_atoms : ∀ {f : Formula}, checkFormula f = .ok () →
    f.Atoms fun l op r => (op = .eq ∨ op = .ne) ∧ checkSum l = .ok () ∧ checkSum r = .ok ()
  | .tt, _ => trivial
  | .ff, _ => trivial
  | .not f, h => checkFormula_atoms (f := f) h
  | .junction _ fs, h => checkFormulas_atoms (show checkFormulas fs = .ok () from h)
  | .atom _ op _, h => by
    by_cases hop : op = .eq ∨ op = .ne
    · rw [checkFormula, if_pos hop] at h
      obtain ⟨⟨⟩, hl, hr⟩ := exists_of_bind_ok h
      exact ⟨hop, hl, hr⟩
    · rw [checkFormula, if_neg hop] at h
      exact absurd h (by simp)

theorem checkFormulas_atoms : ∀ {fs : List Formula}, checkFormulas fs = .ok () →
    Formula.AllAtoms
      (fun l op r => (op = .eq ∨ op = .ne) ∧ checkSum l = .ok () ∧ checkSum r = .ok ()) fs
  | [], _ => trivial
  | _ :: _, h => by
    obtain ⟨⟨⟩, hf, hfs⟩ := exists_of_bind_ok h
    exact ⟨checkFormula_atoms hf, checkFormulas_atoms hfs⟩

end

/-! ## The reading -/

theorem lowerFormula_bool (hbool : e.encoding = .boolean) (hw : e.Writable) (hf : f.Over e.net)
    (hcheck : checkFormula f = .ok ()) (k : Nat) :
    ∃ t, lowerFormula e.encoding (some (k : Int)) f = .ok t ∧
      (∀ {ds}, e.Covers ds (some (k : Int)) → t.sort? ds = some .bool) ∧
      ∀ {a b}, e.ShowsMarks a k b → t.value a = some (.bool (f.marked b)) := by
  let V : Assignment → (TokenSum → Value) → Prop := fun a v =>
    ∃ b, e.ShowsMarks a k b ∧ v = fun s => .bool (s.marked b)
  have hsort : e.placeSort = .bool := by rw [placeSort, hbool]
  have hsum : ∀ {s : TokenSum}, (∀ p ∈ s.mentions, e.net.Has p) →
      SaysSum e.encoding (some (k : Int)) (e.Covers · (some (k : Int))) V .bool s := by
    intro s hs
    obtain ⟨t, ht, htsort, htval⟩ := lowerSumBool_says (k := some (k : Int))
      fun p hp => hw.quotable (hs p hp)
    refine ⟨t, by rw [hbool]; exact ht, fun hds => htsort fun p hp => ?_, ?_⟩
    · exact (hds.sort?_sym (hs p hp)).trans (by rw [hsort])
    · rintro a v ⟨b, hb, rfl⟩
      refine ⟨htval fun p hp => ?_, rfl⟩
      exact Option.some.inj (hb.value_sym (hs p hp))
  have hatoms := ((Formula.atoms_mentions hf).and (checkFormula_atoms hcheck)).mono
    (Q := SaysAtom e.encoding (some (k : Int)) (e.Covers · (some (k : Int))) V .bool)
    fun l op r h => ⟨hsum h.1.1, hsum h.1.2, .inr h.2.1⟩
  obtain ⟨t, ht, htsort, htval⟩ := lowerFormula_says hatoms
  exact ⟨t, ht, htsort, fun {a b} hb => htval ⟨b, hb, rfl⟩⟩

/-- Declared truth values are marks. -/
theorem exists_marks (hsort : e.placeSort = .bool) {a : Assignment} {k : Nat}
    (h : e.Framed a (some (k : Int))) : ∃ b, e.ShowsMarks a k b := by
  refine ⟨fun q => a (place q (some (k : Int))) = .bool true, fun p hp => ?_⟩
  have hval := h.1 _ (List.mem_map_of_mem hp)
  rw [hsort] at hval
  cases hv : a (place p.id (some (k : Int))) with
  | int n =>
    rw [hv] at hval
    exact absurd hval (by simp [Value.sort])
  | bool c => cases c <;> simp [hv]

/-- Marks are values as they were declared. -/
theorem ShowsMarks.framed (hsort : e.placeSort = .bool) {a : Assignment} {k : Nat} {b : Marks}
    (h : e.ShowsMarks a k b) : e.Framed a (some (k : Int)) := by
  refine ⟨fun x hx => ?_, fun t ht => ?_⟩
  · obtain ⟨p, hp, rfl⟩ := List.mem_map.mp hx
    rw [h p hp, hsort]
    rfl
  · obtain ⟨x, -, ht⟩ := List.mem_flatMap.mp ht
    rw [hsort] at ht
    exact absurd ht (by simp [varBounds])

/-- Every sequence of marks is shown by an assignment. -/
theorem exists_assignment_marks (hsort : e.placeSort = .bool) (xs : Nat → Marks) :
    ∃ a, ∀ k : Nat, e.Framed a (some (k : Int)) ∧ e.ShowsMarks a k (xs k) := by
  refine ⟨assignment fun p k => .bool (xs k p), fun k => ?_⟩
  have hshows : e.ShowsMarks (assignment fun p k => .bool (xs k p)) k (xs k) :=
    fun p _ => assignment_place _ p.id k
  exact ⟨hshows.framed hsort, hshows⟩

theorem init_iff_marks (hbool : e.encoding = .boolean) {a : Assignment} {b : Marks}
    (hb : e.ShowsMarks a 0 b) :
    (∀ t ∈ e.initTerms (some 0), t.Holds a) ↔ (e.net.marks f).init b := by
  rw [initTerms, List.forall_mem_map, hbool]
  refine forall₂_congr fun p hp => ?_
  have hdec := Term.decides_of_value (hb.value_sym ⟨p, hp, rfl⟩)
  unfold initialTokens
  by_cases htokens : p.tokens > 0
  · simp only [htokens, if_true, decide_true]
    exact hdec.holds_iff
  · simp only [htokens, if_false, decide_false]
    exact (Term.decides_not hdec).holds_iff.trans (by simp)

/-- **The boolean encoder writes the marks of its net.** -/
theorem exists_reading_marks (hbool : e.encoding = .boolean) (hgoal : e.goal = some (.formula f))
    (hn : e.net.WellFormed) (hw : e.Writable) (hf : f.Over e.net)
    (hcheck : checkFormula f = .ok ()) :
    ∃ R : e.Reading (e.net.marks f), R.Shows = e.ShowsMarks := by
  have hsort : e.placeSort = .bool := by rw [placeSort, hbool]
  have hfiring : ∀ (k k' : Int), ∀ t ∈ e.net.transitions,
      e.firing t k k' = .ok (firingMarks e.net t k k') := by
    intro k k' t ht
    rw [firing, hbool]
    exact firingBool_eq hw hn ht k k'
  choose goalAt hlower hgsort hgval using lowerFormula_bool hbool hw hf hcheck
  refine ⟨{
    initTerms := e.initTerms (some 0)
    stepTerm := fun k => Fold.or.term
      (e.net.transitions.map fun t => firingMarks e.net t k (k + 1))
    goalAt
    Shows := e.ShowsMarks
    writable := hw
    wellFormed := hn
    initial_eq := initialMarking_eq hw _
    step_eq := fun k => transitionRelation_eq (hfiring k (k + 1))
    goal_eq := fun k => assertGoal_eq hgoal (hlower k)
    refute_eq := fun k => refuteGoal_eq hgoal (hlower k)
    init_sort := by
      intro ds hds t ht
      obtain ⟨p, hp, rfl⟩ := List.mem_map.mp ht
      have hsym := hds.sort?_sym ⟨p, hp, rfl⟩
      rw [hsort] at hsym
      rw [hbool, initialTokens]
      split
      · exact hsym
      · exact Term.sort?_not hsym
    step_sort := by
      intro ds k hk hk'
      refine Fold.sort?_term .or fun u hu => ?_
      obtain ⟨t, ht, rfl⟩ := List.mem_map.mp hu
      exact sort?_firingMarks hn ht hsort hk hk'
    goal_sort := fun {ds k} hds => hgsort k hds
    exists_state := exists_marks hsort
    exists_assignment := exists_assignment_marks hsort
    init_iff := init_iff_marks hbool
    step_decides := by
      intro a k b b' hb hb'
      exact Term.decides_or_map fun t ht => firingBool_decides hn ht hb hb'
    goal_decides := fun {a k b} hb => Term.decides_of_value (hgval k hb) }, rfl⟩

end Encoder

/-! ## Either encoding -/

/-- What the variables of a step show. -/
abbrev Encoding.State : Encoding → Type
  | .integer => Marking
  | .boolean => Marks

/-- The system that an encoding writes. -/
abbrev Net.system (n : Net) (f : Formula) : (encoding : Encoding) → System encoding.State
  | .integer => n.tokens f
  | .boolean => n.marks f

/-- **An encoder writes the system of its encoding.** -/
theorem Encoder.exists_reading {n : Net} {f : Formula} {encoding : Encoding} (hn : n.WellFormed)
    (hw : (⟨n, some (.formula f), encoding⟩ : Encoder).Writable) (hf : f.Over n) (hneg : f.NonNeg)
    (hcheck : encoding = .boolean → checkFormula f = .ok ()) :
    Nonempty ((⟨n, some (.formula f), encoding⟩ : Encoder).Reading (n.system f encoding)) := by
  cases encoding with
  | integer => exact (exists_reading_tokens rfl rfl hn hw hf hneg).nonempty
  | boolean => exact (exists_reading_marks rfl rfl hn hw hf (hcheck rfl)).nonempty

end PetriReach
