import PetriReach.Proofs.Encoder.Marks

/-!
# One token at most

Marks say less than tokens. They say the same where no place ever holds two tokens and where no
comparison meets two positive sums that are different.

* `Formula.marked_eq_holds`: when a formula says the same of marks and of tokens.
* `Net.marks_witness_iff`: when the marks of a net have the same witnesses as its markings.
-/

namespace PetriReach

open Smt

/-- No place of a reachable marking holds two tokens. -/
def Net.Safe (n : Net) : Prop :=
  ∀ m, n.Reachable m → ∀ p, m p ≤ 1

/-- No comparison meets two positive sums that are different. -/
def Formula.PlainAt (f : Formula) (m : Marking) : Prop :=
  f.Atoms fun l _ r => 0 < l.value m → 0 < r.value m → l.value m = r.value m

/-- The formula is plain at every reachable marking. -/
def Formula.Plain (f : Formula) (n : Net) : Prop :=
  ∀ m, n.Reachable m → f.PlainAt m

/-- In marks the goal is met, though no reachable marking is in it. -/
def Net.Overstated (n : Net) (f : Formula) : Prop :=
  (∃ k, (n.marks f).Witness k) ∧ ∀ k, ¬ n.Witness f k

/-- The marks show which places hold tokens. -/
def Net.MarkedAs (n : Net) (m : Marking) (b : Marks) : Prop :=
  ∀ p, n.Has p → b p = decide (0 < m p)

/-! ## Formulas -/

section Formulas

variable {n : Net} {m : Marking} {b : Marks}

/-- A sum of places is positive if and only if one of them holds a token. -/
theorem TokenSum.valueFrom_pos {ts : List Multiple} (h : ∀ t ∈ ts, t.factor = 1) :
    0 ≤ valueFrom m 0 ts ∧ (0 < valueFrom m 0 ts ↔ ∃ t ∈ ts, 0 < m t.place) := by
  induction ts with
  | nil => simp [valueFrom]
  | cons t ts ih =>
    rw [List.forall_mem_cons] at h
    obtain ⟨hnonneg, hpos⟩ := ih h.2
    have hvalue : valueFrom m 0 (t :: ts) = m t.place + valueFrom m 0 ts := by
      rw [valueFrom, h.1, Int.one_mul]
    rw [hvalue, List.exists_mem_cons_iff, ← hpos]
    omega

/-- In marks a sum says whether it is positive. -/
theorem TokenSum.marked_eq {s : TokenSum} (hcheck : Encoder.checkSum s = .ok ())
    (hs : ∀ p ∈ s.mentions, n.Has p) (hb : n.MarkedAs m b) :
    0 ≤ s.value m ∧ s.marked b = decide (0 < s.value m) := by
  unfold Encoder.checkSum at hcheck
  by_cases hterms : s.terms = []
  · rw [if_pos hterms] at hcheck
    have hconstant : s.constant = 0 ∨ s.constant = 1 := by
      by_contra hne
      rw [if_neg hne] at hcheck
      cases hcheck
    have hvalue : s.value m = s.constant := by rw [value, hterms, valueFrom]
    rw [marked, if_pos hterms, hvalue]
    rcases hconstant with h | h <;> simp [h]
  · rw [if_neg hterms] at hcheck
    by_cases hconstant : s.constant = 0
    · rw [if_neg (not_not.mpr hconstant)] at hcheck
      have hfactor : ∀ t ∈ s.terms, t.factor = 1 := by
        intro t ht
        by_contra hne
        have htest := Encoder.firstError_ok hcheck t ht
        rw [if_neg hne] at htest
        cases htest
      have hvalue : s.value m = valueFrom m 0 s.terms := by rw [value, hconstant]
      obtain ⟨hnonneg, hpos⟩ := valueFrom_pos (m := m) hfactor
      refine ⟨hvalue ▸ hnonneg, ?_⟩
      rw [marked, if_neg hterms, hvalue, Bool.eq_iff_iff, List.any_eq_true, decide_eq_true_eq, hpos]
      refine exists_congr fun t => and_congr_right fun ht => ?_
      rw [hb t.place (hs _ (List.mem_map_of_mem ht)), decide_eq_true_eq]
    · rw [if_pos hconstant] at hcheck
      cases hcheck

namespace Formula

mutual

/-- The truth of a formula depends on the truth of its comparisons. -/
theorem truth_congr {v w : TokenSum → Value} : ∀ {f : Formula},
    f.Atoms (fun l op r => (Formula.atom l op r).truth v = (Formula.atom l op r).truth w) →
      f.truth v = f.truth w
  | .tt, _ => rfl
  | .ff, _ => rfl
  | .not f, h => congrArg Bool.not (truth_congr (f := f) h)
  | .junction .and fs, h => by rw [truth, truth, truths_congr h]
  | .junction .or fs, h => by rw [truth, truth, truths_congr h]
  | .atom _ _ _, h => h

theorem truths_congr {v w : TokenSum → Value} : ∀ {fs : List Formula},
    AllAtoms (fun l op r => (Formula.atom l op r).truth v = (Formula.atom l op r).truth w) fs →
      truths v fs = truths w fs
  | [], _ => rfl
  | f :: fs, h => by rw [truths, truths, truth_congr h.1, truths_congr h.2]

end

/-- **A plain formula says the same of marks and of tokens.** -/
theorem marked_eq_holds {f : Formula} (hf : f.Over n) (hcheck : Encoder.checkFormula f = .ok ())
    (hplain : f.PlainAt m) (hb : n.MarkedAs m b) : f.marked b = f.holds m := by
  rw [marked, ← truth_value m f]
  have hatoms := ((atoms_mentions hf).and (Encoder.checkFormula_atoms hcheck)).and hplain
  refine truth_congr (hatoms.mono fun l op r h => ?_)
  obtain ⟨⟨⟨hl, hr⟩, hop, hlcheck, hrcheck⟩, heq⟩ := h
  obtain ⟨hlnonneg, hlmarked⟩ := TokenSum.marked_eq hlcheck hl hb
  obtain ⟨hrnonneg, hrmarked⟩ := TokenSum.marked_eq hrcheck hr hb
  have hsame : l.marked b = r.marked b ↔ l.value m = r.value m := by
    rw [hlmarked, hrmarked, decide_eq_decide]
    omega
  rcases hop with rfl | rfl <;>
    simp [truth, Comparison.op, Op.value, Value.sort, hsame]

end Formula

end Formulas

/-! ## Steps -/

namespace Net

variable {n : Net} {f : Formula} {m : Marking} {b b' : Marks} {t : Transition}

theorem arcs_of_checkNet (h : Encoder.checkNet n = .ok ()) (ht : t ∈ n.transitions) :
    ∀ arc ∈ t.pre ++ t.post, arc.2 = 1 := by
  obtain ⟨⟨⟩, -, h⟩ := exists_of_bind_ok h
  intro arc harc
  by_contra hne
  have hnone := List.findSome?_eq_none_iff.mp (Encoder.firstError_ok h t ht) arc harc
  rw [if_neg hne] at hnone
  cases hnone

theorem weight_eq_ite {arcs : Arcs} (h : ∀ arc ∈ arcs, arc.2 = 1) (p : String) :
    arcs.weight p = if arcs.touches p then 1 else 0 := by
  unfold Arcs.weight Arcs.touches
  cases hw : arcs.lookup p with
  | none => rfl
  | some w => exact h (p, w) (NameMap.mem_of_lookup hw)

theorem mem_of_touches {arcs : Arcs} (h : ∀ arc ∈ arcs, arc.2 = 1) {p : String}
    (hp : arcs.touches p = true) : (p, 1) ∈ arcs := by
  unfold Arcs.touches at hp
  obtain ⟨w, hw⟩ := Option.isSome_iff_exists.mp hp
  obtain rfl : w = 1 := h _ (NameMap.mem_of_lookup hw)
  exact NameMap.mem_of_lookup hw

variable (hcheck : Encoder.checkNet n = .ok ()) (hn : n.WellFormed)

include hcheck hn in
/-- Marks allow a firing where the tokens do. -/
theorem MarkedAs.enabled_iff (hb : n.MarkedAs m b) (ht : t ∈ n.transitions) :
    (∀ arc ∈ t.pre, b arc.1 = true) ↔ t.Enabled m := by
  have hunits : ∀ arc ∈ t.pre, arc.2 = 1 := fun arc harc =>
    arcs_of_checkNet hcheck ht arc (List.mem_append_left _ harc)
  have hsound := (hn.arcs t ht).1
  constructor
  · intro hpre p
    rw [weight_eq_ite hunits]
    split
    · next hp =>
      have harc := mem_of_touches hunits hp
      have hmarked := hpre _ harc
      rw [hb p (hsound.known _ harc), decide_eq_true_eq] at hmarked
      exact hmarked
    · exact Nat.zero_le _
  · intro hen arc harc
    rw [hb arc.1 (hsound.known arc harc), decide_eq_true_eq]
    have hle := hen arc.1
    rw [Arcs.weight, hsound.sorted.lookup_eq harc, hunits arc harc] at hle
    exact hle

include hcheck in
/-- A firing marks its output places and clears its other input places if these hold one token. -/
theorem MarkedAs.fire (hb : n.MarkedAs m b) (ht : t ∈ n.transitions) (hen : t.Enabled m)
    (hone : ∀ p, m p ≤ 1) : n.MarkedAs (t.fire m) (t.mark b) := by
  intro p hp
  have hunits := arcs_of_checkNet hcheck ht
  rw [List.forall_mem_append] at hunits
  have hle := hen p
  have hm := hone p
  rw [Transition.fire, Transition.mark, hb p hp]
  rw [weight_eq_ite hunits.1] at hle ⊢
  rw [weight_eq_ite hunits.2]
  by_cases hpost : t.post.touches p = true
  · simp [hpost]
  · by_cases hpre : t.pre.touches p = true
    · rw [if_pos hpre] at hle
      have hzero : m p - 1 = 0 := by omega
      simp [hpost, hpre, hzero]
    · simp [hpost, hpre]

include hn in
theorem MarkedAs.initial_iff :
    n.MarkedAs n.initial b ↔ (n.marks f).init b := by
  have hsame : ∀ p ∈ n.places, decide (0 < n.initial p.id) = decide (p.tokens > 0) := by
    intro p hp
    have heq := hn.initial_eq hp
    rw [decide_eq_decide]
    omega
  constructor
  · intro h p hp
    rw [h p.id ⟨p, hp, rfl⟩, hsame p hp]
  · rintro h _ ⟨p, hp, rfl⟩
    rw [h p hp, hsame p hp]

variable (hsafe : n.Safe)

include hcheck hn hsafe in
/-- **On a safe net, marks run as tokens do.** -/
theorem path_of_marks {xs : Nat → Marks} {k : Nat} (hinit : (n.marks f).init (xs 0))
    (htrail : (n.marks f).Trail xs k) :
    ∃ ts m, n.Path n.initial ts m ∧ ts.length = k ∧ n.MarkedAs m (xs k) := by
  induction k with
  | zero => exact ⟨[], n.initial, .nil _, rfl, (MarkedAs.initial_iff hn).mpr hinit⟩
  | succ k ih =>
    obtain ⟨ts, m, hpath, hlen, hb⟩ := ih (htrail.mono (Nat.le_succ k))
    obtain ⟨t, ht, hpre, hmark⟩ := htrail k (Nat.lt_succ_self k)
    have hen := (hb.enabled_iff hcheck hn ht).mp hpre
    refine ⟨ts ++ [t], t.fire m, hpath.append (.cons ht hen (.nil _)), by simp [hlen], ?_⟩
    rintro _ ⟨p, hp, rfl⟩
    rw [hmark p hp]
    exact hb.fire hcheck ht hen (hsafe m ⟨ts, hpath⟩) p.id ⟨p, hp, rfl⟩

include hcheck hn hsafe in
theorem marks_of_path {ts : List Transition} (hpath : n.Path n.initial ts m) :
    ∃ xs : Nat → Marks, (n.marks f).init (xs 0) ∧ (n.marks f).Trail xs ts.length ∧
      n.MarkedAs m (xs ts.length) := by
  obtain ⟨ms, h0, hend, hsteps⟩ := hpath.steps
  have hreach : ∀ i ≤ ts.length, n.Reachable (ms i) := by
    intro i
    induction i with
    | zero => exact fun _ => h0 ▸ reachable_initial
    | succ i ih => exact fun hi => (ih (by omega)).step (hsteps i (by omega))
  have hmarked : ∀ i, n.MarkedAs (ms i) fun p => decide (0 < ms i p) := fun i p _ => rfl
  refine ⟨fun i p => decide (0 < ms i p), ?_, fun i hi => ?_, ?_⟩
  · exact (MarkedAs.initial_iff hn).mp (h0 ▸ hmarked 0)
  · obtain ⟨t, ht, hen, hfire⟩ := hsteps i hi
    refine ⟨t, ht, ((hmarked i).enabled_iff hcheck hn ht).mpr hen, fun p hp => ?_⟩
    show decide (0 < ms (i + 1) p.id) = _
    rw [hfire]
    exact ((hmarked i).fire hcheck ht hen (hsafe _ (hreach i (by omega))) p.id ⟨p, hp, rfl⟩).symm
  · exact hend ▸ hmarked ts.length

include hcheck hn hsafe in
/-- **Marks find what tokens find**, on a safe net and for a plain formula. -/
theorem marks_witness_iff (hf : f.Over n) (hformula : Encoder.checkFormula f = .ok ())
    (hplain : f.Plain n) (k : Nat) : (n.marks f).Witness k ↔ n.Witness f k := by
  constructor
  · rintro ⟨xs, hinit, htrail, hgoal⟩
    obtain ⟨ts, m, hpath, hlen, hb⟩ := path_of_marks hcheck hn hsafe hinit htrail
    refine ⟨ts, m, hpath, hlen, ?_⟩
    rw [← Formula.marked_eq_holds hf hformula (hplain m ⟨ts, hpath⟩) hb]
    exact hgoal
  · rintro ⟨ts, m, hpath, rfl, hgoal⟩
    obtain ⟨xs, hinit, htrail, hb⟩ := marks_of_path hcheck hn hsafe (f := f) hpath
    refine ⟨xs, hinit, htrail, ?_⟩
    show f.marked (xs ts.length) = true
    rw [Formula.marked_eq_holds hf hformula (hplain m ⟨ts, hpath⟩) hb]
    exact hgoal

end Net

end PetriReach
