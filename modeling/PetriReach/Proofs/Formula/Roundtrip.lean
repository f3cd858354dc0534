import PetriReach.Proofs.Formula.Atoms
import PetriReach.Proofs.Formula.Derivations
import PetriReach.Proofs.Token.Spelling

/-!
# Printed formulas

A printed formula is read back as itself, and a formula that was read can be printed.

* `Grammar.scans_formula`: the text of a formula is cut into the tokens of a derivation of it.
* `Grammar.parse_render_of_proper`: the text of a formula is read as the formula.
* `Grammar.printable_of_parse`: what was read has two operands in every junction, names that can be
  written and numbers that can be read.
-/

namespace PetriReach

/-- The name can be written in braces, and the factor can be read. -/
def Multiple.Writable (m : Multiple) : Prop :=
  Token.IsLabel m.place ∧ 0 ≤ m.factor ∧ m.factor ≤ Number.limit

/-- The names of the sum can be written in braces, and its numbers can be read. -/
def TokenSum.Writable (s : TokenSum) : Prop :=
  (∀ m ∈ s.terms, m.Writable) ∧ 0 ≤ s.constant ∧ s.constant ≤ Number.limit

namespace Formula

/-- The sides of all comparisons are writable. -/
def Writable (f : Formula) : Prop :=
  f.Atoms fun l _ r => l.Writable ∧ r.Writable

mutual

/-- Every junction in the formula has two operands at least. -/
def Proper : Formula → Prop
  | .tt => True
  | .ff => True
  | .not f => f.Proper
  | .junction _ fs => 2 ≤ fs.length ∧ AllProper fs
  | .atom _ _ _ => True

/-- Every junction in the formulas has two operands at least. -/
def AllProper : List Formula → Prop
  | [] => True
  | f :: fs => f.Proper ∧ AllProper fs

end

theorem allProper_iff {fs : List Formula} : AllProper fs ↔ ∀ f ∈ fs, f.Proper := by
  induction fs with
  | nil => simp [AllProper]
  | cons f fs ih => simp [AllProper, ih]

/-- A junction of printable formulas is printable. -/
theorem junction_printable {c : Connective} {f : Formula} {fs : List Formula}
    (hf : f.Proper ∧ f.Writable) (hfs : ∀ g ∈ fs, g.Proper ∧ g.Writable) (hne : fs ≠ []) :
    (junction c (f :: fs)).Proper ∧ (junction c (f :: fs)).Writable := by
  have hlen := List.length_pos_iff.mpr hne
  refine ⟨⟨?_, hf.1, allProper_iff.mpr fun g hg => (hfs g hg).1⟩, hf.2,
    allAtoms_iff.mpr fun g hg => (hfs g hg).2⟩
  rw [List.length_cons]
  omega

end Formula

namespace Grammar

open PetriReach.Token (Readable Scans Behind IsLabel)
open PetriReach.RawToken (EndsWord endsWord_nil endsWord_cons operator?)

variable {cs : List Char} {P : List Token → Prop}

/-! ## Sums -/

/-- A derivation of a sum, and tokens with the property `P` behind it. -/
def BehindSum (ms : List Multiple) (n : Nat) (P : List Token → Prop) (ts : List Token) : Prop :=
  ∃ (d : SumTree) (us : List Token), ts = d.tokens ++ us ∧ d.multiples = ms ∧ d.constant = n ∧
    Each .integer Readable d.tokens ∧ P us

/-- A derivation of a term, and tokens with the property `P` behind it. -/
def BehindTerm (ms : List Multiple) (n : Nat) (P : List Token → Prop) (ts : List Token) : Prop :=
  ∃ (d : TermTree) (us : List Token), ts = d.tokens ++ us ∧ d.multiples = ms ∧ d.constant = n ∧
    Each .integer Readable d.tokens ∧ P us

/-- A number within the limit can be read from its text. -/
theorem readable_of_text {t : Token} {n : Nat} (h : t.text = toString (n : Int))
    (hn : n ≤ Number.limit) : t.Readable ∧ t.value = n := by
  have hvalue : t.value = n := by
    rw [Token.value, h, Smt.toList_toString_ofNat, Nat.ofDigitChars_ten_toDigits]
  refine ⟨⟨?_, ?_⟩, hvalue⟩
  · rw [Token.Digits, h, Smt.toList_toString_ofNat]
    exact Smt.isNumeral_toDigits n
  · rw [hvalue]
    exact hn

theorem scans_literal {n : Nat} (hn : n ≤ Number.limit) (hcs : EndsWord cs) (h : Scans cs P) :
    Scans ((toString (n : Int)).toList ++ cs) (BehindTerm [] n P) := by
  refine (h.numeral hcs).mono ?_
  rintro ts ⟨t, us, rfl, ht, htext, hus⟩
  obtain ⟨hread, hvalue⟩ := readable_of_text htext hn
  exact ⟨.literal ⟨t, ht⟩, us, rfl, rfl, hvalue, each_cons.mpr ⟨fun _ => hread, each_nil⟩, hus⟩

theorem scans_multiple {m : Multiple} (hm : m.Writable) (hcs : EndsWord cs) (h : Scans cs P) :
    Scans (m.render.toList ++ cs) (BehindTerm [m] 0 P) := by
  obtain ⟨p, factor⟩ := m
  obtain ⟨hname, hpos, hle⟩ := hm
  obtain ⟨n, rfl⟩ := Int.eq_ofNat_of_zero_le hpos
  have hplace := h.place hcs hname
  unfold Multiple.render
  split
  · next hone =>
    refine hplace.mono ?_
    rintro ts ⟨t, us, rfl, ht, htext, hus⟩
    refine ⟨.place ⟨t, ht⟩, us, rfl, ?_, rfl, ?_, hus⟩
    · rw [TermTree.multiples, htext, ← hone]
    · exact (each_leaf (by decide)).mpr each_nil
  · have hstar : Scans ("*".toList ++ ((placeText p).toList ++ cs))
        (Behind .star "*" (Behind .identifier p P)) := hplace.operator rfl
    have hnumeral := hstar.numeral (n := n) (endsWord_cons rfl)
    rw [String.toList_append, String.toList_append, List.append_assoc, List.append_assoc]
    refine hnumeral.mono ?_
    rintro ts ⟨t, us, rfl, ht, htext, star, vs, rfl, hstar, -, q, ws, rfl, hq, hqtext, hws⟩
    obtain ⟨hread, hvalue⟩ := readable_of_text htext (Int.ofNat_le.mp hle)
    refine ⟨.multiple ⟨t, ht⟩ ⟨star, hstar⟩ ⟨q, hq⟩, ws, rfl, ?_, rfl, ?_, hws⟩
    · rw [TermTree.multiples, hqtext, hvalue]
    · rw [TermTree.tokens, each_cons, each_leaf (by decide), each_leaf (by decide)]
      exact ⟨fun _ => hread, each_nil⟩

/-- Terms in a row, each read as its own term. -/
theorem scans_plus {text : String} {texts : List String} {ms ms' : List Multiple} {n n' : Nat}
    (hfirst : ∀ {cs P}, EndsWord cs → Scans cs P →
      Scans (text.toList ++ cs) (BehindTerm ms n P))
    (hrest : Scans ((" + ".intercalate texts).toList ++ cs) (BehindSum ms' n' P))
    (hne : texts ≠ []) :
    Scans ((" + ".intercalate (text :: texts)).toList ++ cs)
      (BehindSum (ms ++ ms') (n + n') P) := by
  cases texts with
  | nil => exact absurd rfl hne
  | cons x xs =>
    have hplus : Scans ("+".toList ++ ' ' :: ((" + ".intercalate (x :: xs)).toList ++ cs))
        (Behind .plus "+" (BehindSum ms' n' P)) := hrest.space.operator rfl
    have hshape : (" + ".intercalate (text :: x :: xs)).toList ++ cs = text.toList ++
        ' ' :: ("+".toList ++ ' ' :: ((" + ".intercalate (x :: xs)).toList ++ cs)) := by
      rw [String.intercalate_cons_cons, String.toList_append, String.toList_append]
      simp
    rw [hshape]
    refine (hfirst (endsWord_cons rfl) hplus.space).mono ?_
    rintro ts ⟨t, us, rfl, rfl, rfl, hnum, p, vs, rfl, hp, -, d, ws, rfl, rfl, rfl, hnum', hws⟩
    refine ⟨.plus t ⟨p, hp⟩ d, ws, by simp [SumTree.tokens], rfl, rfl, ?_, hws⟩
    rw [SumTree.tokens, each_append, each_leaf (by decide)]
    exact ⟨hnum, hnum'⟩

/-- A term alone is a sum. -/
theorem BehindTerm.sum {ms : List Multiple} {n : Nat} {ts : List Token}
    (h : BehindTerm ms n P ts) : BehindSum ms n P ts := by
  obtain ⟨t, us, hts, hms, hn, hnum, hus⟩ := h
  exact ⟨.last t, us, hts, hms, hn, hnum, hus⟩

/-- Multiples in a row, and a literal behind them if there is one. -/
theorem scans_summands {ms : List Multiple} {c : Option Nat}
    (hms : ∀ m ∈ ms, m.Writable) (hc : ∀ n, c = some n → n ≤ Number.limit)
    (hne : ms = [] → c ≠ none) (hcs : EndsWord cs) (h : Scans cs P) :
    Scans ((" + ".intercalate (ms.map Multiple.render ++
        c.toList.map fun n => toString (n : Int))).toList ++ cs)
      (BehindSum ms (c.getD 0) P) := by
  induction ms with
  | nil =>
    cases c with
    | none => exact absurd rfl (hne rfl)
    | some n => exact (scans_literal (hc n rfl) hcs h).mono fun ts hts => hts.sum
  | cons m ms ih =>
    rw [List.forall_mem_cons] at hms
    obtain ⟨hm, hms⟩ := hms
    by_cases hend : ms = [] ∧ c = none
    · obtain ⟨rfl, rfl⟩ := hend
      exact (scans_multiple hm hcs h).mono fun ts hts => hts.sum
    · have hrest := ih hms fun hnil hnone => hend ⟨hnil, hnone⟩
      have hsum := scans_plus (scans_multiple hm) hrest fun hnil => hend ?_
      · rwa [Nat.zero_add] at hsum
      · simpa [Option.eq_none_iff_forall_ne_some] using hnil

/-- A printed sum is read as that sum. -/
theorem scans_sum {s : TokenSum} (hs : s.Writable) (hcs : EndsWord cs) (h : Scans cs P) :
    Scans (s.render.toList ++ cs) (BehindSum s.terms s.constant.toNat P) := by
  obtain ⟨hterms, hpos, hle⟩ := hs
  obtain ⟨n, hn⟩ := Int.eq_ofNat_of_zero_le hpos
  unfold TokenSum.render TokenSum.summands
  by_cases hshown : s.terms = [] ∨ s.constant ≠ 0
  · have hsum := scans_summands (c := some n) hterms (by rintro _ ⟨⟩; omega) (by simp) hcs h
    rw [if_pos hshown, hn]
    exact hsum
  · have hsum := scans_summands (c := none) hterms (by simp) (fun hnil => absurd (.inl hnil) hshown)
      hcs h
    have hzero : s.constant = 0 := by
      by_contra hne
      exact hshown (.inr hne)
    rw [if_neg hshown, hzero]
    exact hsum

/-! ## Formulas -/

/-- A derivation of `unary` that denotes `f`, and tokens with the property `P` behind it. -/
def BehindUnary (f : Formula) (P : List Token → Prop) (ts : List Token) : Prop :=
  ∃ (u : UnaryTree) (us : List Token), ts = u.tokens ++ us ∧ u.formula = f ∧
    Fits u.tokens u.sides ∧ P us

/-- A derivation of `formula` with the operands `fs` and one connective, and tokens with the
property `P` behind it. -/
def BehindChain (c : Connective) (fs : List Formula) (P : List Token → Prop)
    (ts : List Token) : Prop :=
  ∃ (d : FormulaTree) (us : List Token), ts = d.tokens ++ us ∧
    d.operands.1 :: d.operands.2.map Prod.snd = fs ∧ (∀ l ∈ d.operands.2, l.1 = c) ∧
    Fits d.tokens d.sides ∧ P us

theorem toNat_le_limit {n : Int} (h : n ≤ Number.limit) : n.toNat ≤ Number.limit := by
  omega

theorem operator?_comparison (op : Comparison) (cs : List Char) :
    operator? (op.text.toList ++ ' ' :: cs) = some (op.text, op.kind) := by
  cases op <;> rfl

theorem operator?_connective (c : Connective) (cs : List Char) :
    operator? (c.text.toList ++ cs) = some (c.text, c.kind) := by
  cases c <;> rfl

theorem scans_atom {l r : TokenSum} {op : Comparison} (hl : l.Writable) (hr : r.Writable)
    (hcs : EndsWord cs) (h : Scans cs P) :
    Scans ((Formula.atom l op r).render.toList ++ cs) (BehindUnary (.atom l op r) P) := by
  have hop := (scans_sum hr hcs h).space.operator (operator?_comparison op _)
  have hshape : (Formula.atom l op r).render.toList ++ cs =
      l.render.toList ++ ' ' :: (op.text.toList ++ ' ' :: (r.render.toList ++ cs)) := by
    simp [Formula.render]
  rw [hshape]
  refine (scans_sum hl (endsWord_cons rfl) hop.space).mono ?_
  rintro ts ⟨dl, us, rfl, hlterms, hlconst, hlnum, rel, vs, rfl, hrel, -, dr, ws, rfl, hrterms,
    hrconst, hrnum, hws⟩
  refine ⟨.primary (.atom ⟨dl, op, ⟨rel, hrel⟩, dr⟩), ws, ?_, ?_, ⟨?_, ?_⟩, hws⟩
  · simp [UnaryTree.tokens, PrimaryTree.tokens, AtomTree.tokens]
  · rw [UnaryTree.formula, PrimaryTree.formula, AtomTree.formula, SumTree.sum, SumTree.sum, hlterms,
      hlconst, hrterms, hrconst, Int.toNat_of_nonneg hl.2.1, Int.toNat_of_nonneg hr.2.1]
  · rw [UnaryTree.tokens, PrimaryTree.tokens, AtomTree.tokens, each_append,
      each_leaf (comparison_kind_ne op).1]
    exact ⟨hlnum, hrnum⟩
  · rw [UnaryTree.sides, PrimaryTree.sides, List.forall_mem_cons, List.forall_mem_singleton,
      hlconst, hrconst]
    exact ⟨toNat_le_limit hl.2.2, toNat_le_limit hr.2.2⟩

/-- A chain in parentheses is an operand. -/
theorem scans_group (text : String) (c : Connective) (fs : List Formula) (f : Formula)
    (hgroup : ∀ {cs P}, EndsWord cs → Scans cs P →
      Scans (text.toList ++ cs) (BehindChain c fs P))
    (hf : ∀ g links, g :: links.map Prod.snd = fs → (∀ l ∈ links, l.1 = c) → joinRuns g links = f)
    (h : Scans cs P) :
    Scans ('(' :: (text.toList ++ ')' :: cs)) (BehindUnary f P) := by
  have hclose : Scans (")".toList ++ cs) (Behind .rparen ")" P) := h.operator rfl
  have hinner := hgroup (endsWord_cons rfl) (show Scans (')' :: cs) _ from hclose)
  have hopen : Scans ("(".toList ++ (text.toList ++ ')' :: cs))
    (Behind .lparen "(" (BehindChain c fs (Behind .rparen ")" P))) := hinner.operator rfl
  refine Scans.mono (show Scans ('(' :: (text.toList ++ ')' :: cs)) _ from hopen) ?_
  rintro ts ⟨l, us, rfl, hl, -, d, vs, rfl, hoperands, hlinks, hfits, r, ws, rfl, hr, -, hws⟩
  refine ⟨.primary (.group ⟨l, hl⟩ d ⟨r, hr⟩), ws, ?_, hf _ _ hoperands hlinks, ⟨?_, hfits.2⟩, hws⟩
  · simp [UnaryTree.tokens, PrimaryTree.tokens]
  · rw [UnaryTree.tokens, PrimaryTree.tokens, each_leaf (by decide), each_append,
      each_leaf (by decide)]
    exact ⟨hfits.1, each_nil⟩

/-- A negated operand is an operand. -/
theorem scans_not {f : Formula} (h : Scans cs (BehindUnary f P)) :
    Scans ('-' :: cs) (BehindUnary (.not f) P) := by
  have hminus : Scans ("-".toList ++ cs) (Behind .minus "-" (BehindUnary f P)) := h.operator rfl
  refine Scans.mono (show Scans ('-' :: cs) _ from hminus) ?_
  rintro ts ⟨m, us, rfl, hm, -, u, vs, rfl, rfl, hfits, hvs⟩
  refine ⟨.not ⟨m, hm⟩ u, vs, rfl, rfl, ⟨?_, hfits.2⟩, hvs⟩
  rw [UnaryTree.tokens, each_leaf (by decide)]
  exact hfits.1

/-- An operand alone is a chain. -/
theorem BehindUnary.chain {f : Formula} {ts : List Token} (c : Connective)
    (h : BehindUnary f P ts) : BehindChain c [f] P ts := by
  obtain ⟨u, us, hts, rfl, hfits, hus⟩ := h
  exact ⟨.last u, us, hts, rfl, by simp [FormulaTree.operands], hfits, hus⟩

/-- A run of one connective is one junction. -/
theorem joinRuns_same {c : Connective} {f : Formula} {links : List (Connective × Formula)}
    (hne : links ≠ []) (h : ∀ l ∈ links, l.1 = c) :
    joinRuns f links = .junction c (f :: links.map Prod.snd) := by
  have hchain : links.IsChain fun a b => decide (a.1 = b.1) = true := by
    refine (List.pairwise_of_forall_mem_list fun a ha b hb => ?_).isChain
    rw [h a ha, h b hb]
    exact decide_eq_true rfl
  rw [joinRuns, List.splitBy_of_isChain hne hchain]
  exact joinRun_eq hne h f

mutual

/-- **A printed formula is read as that formula.** -/
theorem scans_formula : ∀ (f : Formula) {cs : List Char} {P : List Token → Prop}, f.Proper →
    f.Writable → EndsWord cs → Scans cs P → Scans (f.render.toList ++ cs) (BehindUnary f P)
  | .tt, cs, P, _, _, hcs, h => by
    refine (h.word (w := ['T']) hcs (by simp) (by simp; rfl)).mono ?_
    rintro ts ⟨t, us, rfl, ht, -, hus⟩
    exact ⟨.primary (.tt ⟨t, ht⟩), us, rfl, rfl,
      ⟨(each_leaf (by decide)).mpr each_nil, by simp [UnaryTree.sides, PrimaryTree.sides]⟩, hus⟩
  | .ff, cs, P, _, _, hcs, h => by
    refine (h.word (w := ['F']) hcs (by simp) (by simp; rfl)).mono ?_
    rintro ts ⟨t, us, rfl, ht, -, hus⟩
    exact ⟨.primary (.ff ⟨t, ht⟩), us, rfl, rfl,
      ⟨(each_leaf (by decide)).mpr each_nil, by simp [UnaryTree.sides, PrimaryTree.sides]⟩, hus⟩
  | .not f, cs, P, hproper, hwritable, hcs, h => by
    have hf : ∀ {cs P}, EndsWord cs → Scans cs P →
        Scans (f.render.toList ++ cs) (BehindUnary f P) :=
      scans_formula f hproper hwritable
    rw [Formula.render]
    split
    · have hnot := scans_not (hf hcs h)
      simpa using hnot
    · have hgroup := scans_group f.render .and [f] f
        (fun hcs h => (hf hcs h).mono fun ts hts => hts.chain .and) ?_ h
      · have hnot := scans_not hgroup
        simpa using hnot
      · rintro g links heq -
        obtain ⟨rfl, hnil⟩ := List.cons.inj heq
        rw [List.map_eq_nil_iff.mp hnil]
        rfl
  | .junction c fs, cs, P, hproper, hwritable, hcs, h => by
    rw [Formula.Proper] at hproper
    have hgroup := scans_group ((" " ++ c.text ++ " ").intercalate (Formula.renderAll fs)) c fs
      (.junction c fs)
      (fun hcs h => scans_all fs c hproper.2 hwritable (by rintro rfl; simp at hproper) hcs h) ?_ h
    · simpa [Formula.render] using hgroup
    · rintro g links rfl hlinks
      exact joinRuns_same (by rintro rfl; simp at hproper) hlinks
  | .atom l op r, cs, P, _, hwritable, hcs, h => scans_atom hwritable.1 hwritable.2 hcs h

theorem scans_all : ∀ (fs : List Formula) (c : Connective) {cs : List Char}
    {P : List Token → Prop}, Formula.AllProper fs →
    Formula.AllAtoms (fun l _ r => l.Writable ∧ r.Writable) fs → fs ≠ [] → EndsWord cs →
      Scans cs P → Scans (((" " ++ c.text ++ " ").intercalate (Formula.renderAll fs)).toList ++ cs)
        (BehindChain c fs P)
  | [], _, _, _, _, _, hne, _, _ => absurd rfl hne
  | [f], c, cs, P, hproper, hwritable, _, hcs, h =>
    (scans_formula f hproper.1 hwritable.1 hcs h).mono fun ts hts => hts.chain c
  | f :: g :: fs, c, cs, P, hproper, hwritable, _, hcs, h => by
    have hrest := scans_all (g :: fs) c hproper.2 hwritable.2 (List.cons_ne_nil g fs) hcs h
    have hop := hrest.space.operator (operator?_connective c _)
    have hfirst := scans_formula f hproper.1 hwritable.1 (endsWord_cons rfl) hop.space
    have hshape :
        ((" " ++ c.text ++ " ").intercalate (Formula.renderAll (f :: g :: fs))).toList ++ cs =
        f.render.toList ++ ' ' :: (c.text.toList ++ ' ' ::
          (((" " ++ c.text ++ " ").intercalate (Formula.renderAll (g :: fs))).toList ++ cs)) := by
      rw [Formula.renderAll, Formula.renderAll, String.intercalate_cons_cons]
      simp
    rw [hshape]
    refine hfirst.mono ?_
    rintro ts ⟨u, us, rfl, rfl, hufits, o, vs, rfl, ho, -, d, ws, rfl, hoperands, hlinks, hfits,
      hws⟩
    refine ⟨.link u c ⟨o, ho⟩ d, ws, by simp [FormulaTree.tokens], ?_, ?_, ⟨?_, ?_⟩, hws⟩
    · rw [FormulaTree.operands, List.map_cons, hoperands]
    · rw [FormulaTree.operands, List.forall_mem_cons]
      exact ⟨rfl, hlinks⟩
    · rw [FormulaTree.tokens, each_append, each_leaf (connective_kind_ne c).1]
      exact ⟨hufits.1, hfits.1⟩
    · rw [FormulaTree.sides, List.forall_mem_append]
      exact ⟨hufits.2, hfits.2⟩

end

/-- **A printed formula is read back as itself.** -/
theorem parse_render_of_proper {f : Formula} (hproper : f.Proper) (hwritable : f.Writable) :
    Formula.parse f.render = .ok f := by
  have hscans := scans_formula f hproper hwritable endsWord_nil (Scans.nil (P := (· = [])) rfl)
  rw [List.append_nil] at hscans
  obtain ⟨ts, e, hscan, he, u, us, rfl, hf, hfits, rfl⟩ := hscans.exists_scan
  have hspells : (FormulaTree.last u).Spells (u.tokens ++ [] ++ [e]) :=
    ⟨⟨e, he⟩, by rw [List.append_nil]; rfl⟩
  have hnum : Each .integer Readable (u.tokens ++ [] ++ [e]) := by
    rw [List.append_nil, each_append]
    exact ⟨hfits.1, (each_leaf (a := ⟨e, he⟩) (by decide)).mpr each_nil⟩
  have hread := hspells.ofTokens ⟨hnum, hfits.2⟩
  have hformula : (FormulaTree.last u).formula = f := hf
  rw [hformula] at hread
  rw [Formula.parse, hscan]
  exact hread

/-! ## Formulas that were read -/

/-- What junctions keep holds of operands that are combined, if it holds of each. -/
theorem joinRuns_induction {Q : Formula → Prop}
    (hjunction : ∀ {c f fs}, Q f → (∀ g ∈ fs, Q g) → fs ≠ [] → Q (.junction c (f :: fs)))
    {f : Formula} {links : List (Connective × Formula)} (hf : Q f) (hlinks : ∀ l ∈ links, Q l.2) :
    Q (joinRuns f links) := by
  have hrun : ∀ {f run}, Q f → (∀ l ∈ run, Q l.2) → Q (joinRun f run) := by
    intro f run hf hrun
    cases run with
    | nil => exact hf
    | cons l run =>
      refine hjunction hf (fun g hg => ?_) (List.cons_ne_nil _ _)
      obtain ⟨l', hl', rfl⟩ := List.mem_map.mp (show g ∈ (l :: run).map Prod.snd from hg)
      exact hrun l' hl'
  have hruns : ∀ {runs : List (List (Connective × Formula))} {f}, Q f →
      (∀ run ∈ runs, ∀ l ∈ run, Q l.2) → Q (runs.foldl joinRun f) := by
    intro runs
    induction runs with
    | nil => exact fun hf _ => hf
    | cons run runs ih =>
      intro f hf hall
      rw [List.forall_mem_cons] at hall
      exact ih (hrun hf hall.1) hall.2
  refine hruns hf fun run hmem l hl => hlinks l ?_
  rw [← List.flatten_splitBy (fun a b => decide (a.1 = b.1)) links]
  exact List.mem_flatten.mpr ⟨run, hmem, hl⟩

mutual

theorem SumTree.multiples_writable : ∀ (d : SumTree), Each .identifier (IsLabel ·.text) d.tokens →
    Each .integer Readable d.tokens → ∀ m ∈ d.multiples, m.Writable
  | .last t, hnames, hnum => t.multiples_writable hnames hnum
  | .plus t p d, hnames, hnum => by
    rw [SumTree.tokens, each_append, each_leaf (by decide)] at hnames hnum
    rw [SumTree.multiples, List.forall_mem_append]
    exact ⟨t.multiples_writable hnames.1 hnum.1, d.multiples_writable hnames.2 hnum.2⟩

theorem TermTree.multiples_writable : ∀ (t : TermTree),
    Each .identifier (IsLabel ·.text) t.tokens → Each .integer Readable t.tokens →
      ∀ m ∈ t.multiples, m.Writable
  | .literal n, _, _ => by simp [TermTree.multiples]
  | .multiple n star p, hnames, hnum => by
    have hname := hnames p.val (by simp [TermTree.tokens]) p.2
    have hread := hnum n.val (by simp [TermTree.tokens]) n.2
    rw [TermTree.multiples, List.forall_mem_singleton]
    exact ⟨hname, Int.natCast_nonneg _, Int.ofNat_le.mpr hread.2⟩
  | .place p, hnames, _ => by
    rw [TermTree.multiples, List.forall_mem_singleton]
    have hone : (1 : Int) ≤ Number.limit := by decide
    exact ⟨hnames p.val (by simp [TermTree.tokens]) p.2, Int.one_nonneg, hone⟩
  | .group l d r, hnames, hnum => by
    rw [TermTree.tokens, each_leaf (by decide), each_append] at hnames hnum
    exact d.multiples_writable hnames.1 hnum.1

end

theorem SumTree.sum_writable {d : SumTree} (hnames : Each .identifier (IsLabel ·.text) d.tokens)
    (hnum : Each .integer Readable d.tokens) (hbound : d.constant ≤ Number.limit) :
    d.sum.Writable :=
  ⟨d.multiples_writable hnames hnum, Int.natCast_nonneg _, Int.ofNat_le.mpr hbound⟩

mutual

/-- What a derivation denotes can be printed. -/
theorem FormulaTree.printable : ∀ (f : FormulaTree), Each .identifier (IsLabel ·.text) f.tokens →
    Fits f.tokens f.sides → (f.operands.1.Proper ∧ f.operands.1.Writable) ∧
      ∀ l ∈ f.operands.2, l.2.Proper ∧ l.2.Writable
  | .last u, hnames, hfits => ⟨u.printable hnames hfits, by simp [FormulaTree.operands]⟩
  | .link u c o f, hnames, hfits => by
    rw [FormulaTree.tokens, FormulaTree.sides, Fits, each_append, List.forall_mem_append,
      each_leaf (connective_kind_ne c).1] at hfits
    rw [FormulaTree.tokens, each_append, each_cons] at hnames
    obtain ⟨hfirst, hlinks⟩ := f.printable hnames.2.2 ⟨hfits.1.2, hfits.2.2⟩
    refine ⟨u.printable hnames.1 ⟨hfits.1.1, hfits.2.1⟩, ?_⟩
    rw [FormulaTree.operands, List.forall_mem_cons]
    exact ⟨hfirst, hlinks⟩

theorem UnaryTree.printable : ∀ (u : UnaryTree), Each .identifier (IsLabel ·.text) u.tokens →
    Fits u.tokens u.sides → u.formula.Proper ∧ u.formula.Writable
  | .not m u, hnames, hfits => by
    rw [UnaryTree.tokens, UnaryTree.sides, Fits, each_leaf (by decide)] at hfits
    rw [UnaryTree.tokens, each_leaf (by decide)] at hnames
    exact u.printable hnames hfits
  | .primary p, hnames, hfits => p.printable hnames hfits

theorem PrimaryTree.printable : ∀ (p : PrimaryTree), Each .identifier (IsLabel ·.text) p.tokens →
    Fits p.tokens p.sides → p.formula.Proper ∧ p.formula.Writable
  | .tt _, _, _ => ⟨trivial, trivial⟩
  | .ff _, _, _ => ⟨trivial, trivial⟩
  | .group l f r, hnames, hfits => by
    rw [PrimaryTree.tokens, PrimaryTree.sides, Fits, each_leaf (by decide), each_append] at hfits
    rw [PrimaryTree.tokens, each_leaf (by decide), each_append] at hnames
    obtain ⟨hfirst, hlinks⟩ := f.printable hnames.1 ⟨hfits.1.1, hfits.2⟩
    exact joinRuns_induction Formula.junction_printable hfirst hlinks
  | .atom a, hnames, hfits => by
    rw [PrimaryTree.tokens, AtomTree.tokens, PrimaryTree.sides, Fits, each_append,
      each_leaf (comparison_kind_ne a.op).1, List.forall_mem_cons,
      List.forall_mem_singleton] at hfits
    rw [PrimaryTree.tokens, AtomTree.tokens, each_append, each_cons] at hnames
    exact ⟨trivial, SumTree.sum_writable hnames.1 hfits.1.1 hfits.2.1,
      SumTree.sum_writable hnames.2.2 hfits.1.2 hfits.2.2⟩

end

/-- **A formula that was read can be printed.** -/
theorem printable_of_parse {s : String} {f : Formula} (h : Formula.parse s = .ok f) :
    f.Proper ∧ f.Writable := by
  obtain ⟨ts, hscan, h⟩ := exists_of_bind_ok h
  have hstream := Token.stream_of_scan hscan
  obtain ⟨d, ⟨e, rfl⟩, hfits, rfl⟩ := FormulaTree.of_ofTokens hstream h
  have hnames : Each .identifier (IsLabel ·.text) d.tokens := by
    obtain ⟨us, e', heq, -, hus⟩ := hstream
    rw [(List.append_inj' heq rfl).1]
    exact fun t ht => (hus t ht).2.2
  obtain ⟨hfirst, hlinks⟩ := d.printable hnames ⟨(each_append.mp hfits.1).1, hfits.2⟩
  exact joinRuns_induction Formula.junction_printable hfirst hlinks

end Grammar

/-- The numbers of a formula that was read are not negative. -/
theorem Formula.nonNeg_of_parse {s : String} {f : Formula} (h : parse s = .ok f) : f.NonNeg :=
  (Grammar.printable_of_parse h).2.mono fun _ _ _ hlr =>
    ⟨⟨hlr.1.2.1, fun m hm => (hlr.1.1 m hm).2.1⟩, hlr.2.2.1, fun m hm => (hlr.2.1 m hm).2.1⟩

end PetriReach
