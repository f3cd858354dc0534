import PetriReach.Proofs.Formula.Unambiguous
import PetriReach.Proofs.Net.WellFormed
import PetriReach.Proofs.Token.Stream

/-!
# Derivations and the reader

The reader accepts a list of tokens if and only if it has a derivation whose numbers are within the
limit, and then gives the formula that the derivation denotes.

* `chain_eq_joinRuns`: operands are combined in maximal runs of one connective.
* `SumTree.read`, `FormulaTree.readOperands`: what has a derivation is read.
* `SumTree.of_termDue`, `FormulaTree.of_readChain`: what is read has a derivation.
* `ofTokens_ok_iff`: both, for the tokens of a text.
-/

namespace PetriReach

/-- The sum with more multiples and more in its constant. -/
def TokenSum.extend (s : TokenSum) (ms : List Multiple) (n : Nat) : TokenSum :=
  { terms := s.terms ++ ms, constant := s.constant + n }

namespace Formula

theorem errorAt_ne_ok {α : Type} {ts : List Token} {c : SyntaxError.Cause}
    {o : Token → SyntaxError.Cause} {r : α × List Token} : errorAt ts c o ≠ .ok r := by
  cases ts <;> simp [errorAt]

theorem missing_ne_ok {α : Type} {ts : List Token} {c : Found → SyntaxError.Cause}
    {r : α × List Token} : missing c ts ≠ .ok r :=
  errorAt_ne_ok

end Formula

namespace Grammar

open PetriReach.Token (Digits Readable)
open PetriReach.Formula (leads termDue starDue termDone readSum readRelation readAtom readLinks
  readChain readOperand readFormula addLiteral)

/-! ## Sums -/

@[simp] theorem extend_extend (s : TokenSum) (ms ms' : List Multiple) (n n' : Nat) :
    (s.extend ms n).extend ms' n' = s.extend (ms ++ ms') (n + n') := by
  simp [TokenSum.extend, Int.add_assoc]

theorem addMultiple_eq (s : TokenSum) (p : String) (n : Int) :
    s.addMultiple p n = s.extend [⟨p, n⟩] 0 := by
  simp [TokenSum.extend, TokenSum.addMultiple]

theorem addLiteral_eq (s : TokenSum) (n : Nat) (t : Token) : addLiteral s n t =
    if s.constant + n ≤ Number.limit then .ok (s.extend [] n)
    else .error ⟨.constantRange, t.column⟩ := by
  unfold addLiteral
  by_cases h : s.constant + n ≤ Number.limit
  · rw [if_pos h, if_pos (by omega)]
    simp [TokenSum.extend, TokenSum.addConstant]
  · rw [if_neg h, if_neg (by omega)]

theorem read_value {t : Token} (h : t.Digits) :
    Number.read t.text.toList = if t.value ≤ Number.limit then some t.value else none :=
  Number.read_numeral h

theorem read_of_readable {t : Token} (h : t.Readable) :
    Number.read t.text.toList = some t.value := by
  rw [read_value h.1]
  exact if_pos h.2

mutual

/-- **A sum that has a derivation is read.** -/
theorem SumTree.read : ∀ (d : SumTree) {depth : Nat} {s : TokenSum} {rest : List Token},
    Each .integer Readable d.tokens → s.constant + d.constant ≤ Number.limit →
      leads .star rest = false →
      termDue depth s (d.tokens ++ rest) = termDone depth (s.extend d.multiples d.constant) rest
  | .last t, _, _, _, hnum, hs, hrest => t.read hnum hs hrest
  | .plus t p d, depth, s, rest, hnum, hs, hrest => by
    rw [SumTree.tokens, each_append, each_cons] at hnum
    rw [SumTree.constant] at hs
    rw [SumTree.tokens, List.append_assoc,
      t.read hnum.1 (by omega) (by simp [leads_leaf]), List.cons_append, termDone,
      if_pos p.2, d.read hnum.2.2 (by simp only [TokenSum.extend]; omega) hrest,
      extend_extend]
    rfl

theorem TermTree.read : ∀ (t : TermTree) {depth : Nat} {s : TokenSum} {rest : List Token},
    Each .integer Readable t.tokens → s.constant + t.constant ≤ Number.limit →
      leads .star rest = false →
      termDue depth s (t.tokens ++ rest) = termDone depth (s.extend t.multiples t.constant) rest
  | .literal n, depth, s, rest, hnum, hs, hrest => by
    have hread := read_of_readable ((each_cons.mp hnum).1 n.2)
    rw [TermTree.constant] at hs
    rw [TermTree.tokens, List.singleton_append, termDue, n.2]
    simp only [hread, hrest, addLiteral_eq, if_pos hs]
    rfl
  | .multiple n star p, depth, s, rest, hnum, hs, hrest => by
    have hread := read_of_readable ((each_cons.mp hnum).1 n.2)
    rw [TermTree.tokens, List.cons_append, termDue, n.2]
    simp only [hread, List.cons_append, leads_leaf, decide_true, if_true, List.nil_append]
    rw [starDue, if_pos p.2, addMultiple_eq]
    rfl
  | .place p, depth, s, rest, _, _, _ => by
    rw [TermTree.tokens, List.singleton_append, termDue, p.2]
    simp only [addMultiple_eq]
    rfl
  | .group l d r, depth, s, rest, hnum, hs, hrest => by
    rw [TermTree.tokens, each_cons, each_append] at hnum
    rw [TermTree.tokens, List.cons_append, List.append_assoc, termDue, l.2]
    show termDue (depth + 1) s (d.tokens ++ r.val :: rest) = _
    rw [d.read hnum.2.1 hs (by simp [leads_leaf]), termDone, r.2]
    simp
    rfl

end

/-! What is read of a sum has a derivation. The reader counts parentheses where a derivation has
branches, so a term and the inside of a group are followed up to where the reader is done with
them. -/

/-- What the reader does behind a term. -/
theorem termDone_cases {depth : Nat} {s : TokenSum} {ts : List Token} {r : TokenSum × List Token}
    (h : termDone depth s ts = .ok r) :
    (∃ (p : Leaf .plus) (us : List Token), ts = p.val :: us ∧ termDue depth s us = .ok r) ∨
    (depth = 0 ∧ r = (s, ts)) ∨
    (∃ (d : Nat) (p : Leaf .rparen) (us : List Token), depth = d + 1 ∧ ts = p.val :: us ∧
      termDone d s us = .ok r) := by
  cases ts with
  | nil =>
    rw [termDone] at h
    split at h
    · next hdepth =>
      cases h
      exact .inr (.inl ⟨hdepth, rfl⟩)
    · exact absurd h Formula.missing_ne_ok
  | cons t us =>
    rw [termDone] at h
    split at h
    · next ht => exact .inl ⟨⟨t, ht⟩, us, rfl, h⟩
    · split at h
      · next hdepth =>
        cases h
        exact .inr (.inl ⟨hdepth, rfl⟩)
      · next hdepth =>
        split at h
        · next ht =>
          obtain ⟨d, rfl⟩ := Nat.exists_eq_succ_of_ne_zero hdepth
          exact .inr (.inr ⟨d, ⟨t, ht⟩, us, rfl, rfl, h⟩)
        · exact absurd h Formula.missing_ne_ok

/-- If a sum is read from here on, a term stands here. -/
def LeadsTerm (ts : List Token) : Prop :=
  ∀ ⦃depth : Nat⦄ ⦃s : TokenSum⦄ ⦃r : TokenSum × List Token⦄, s.constant ≤ Number.limit →
    termDue depth s ts = .ok r →
    ∃ (t : TermTree) (us : List Token), ts = t.tokens ++ us ∧ Each .integer Readable t.tokens ∧
      (s.extend t.multiples t.constant).constant ≤ Number.limit ∧
      termDone depth (s.extend t.multiples t.constant) us = .ok r

/-- If the inside of a group is read from here on, a sum and a closing parenthesis stand here. -/
def LeadsGroup (ts : List Token) : Prop :=
  ∀ ⦃depth : Nat⦄ ⦃s : TokenSum⦄ ⦃r : TokenSum × List Token⦄, s.constant ≤ Number.limit →
    termDue (depth + 1) s ts = .ok r →
    ∃ (d : SumTree) (p : Leaf .rparen) (us : List Token), ts = d.tokens ++ p.val :: us ∧
      Each .integer Readable d.tokens ∧
      (s.extend d.multiples d.constant).constant ≤ Number.limit ∧
      termDone depth (s.extend d.multiples d.constant) us = .ok r

/-- Behind an integer a star makes a multiple. -/
theorem multiple_of_starDue {n : Leaf .integer} {ts : List Token} (hn : n.val.Readable)
    {depth : Nat} {s : TokenSum} {r : TokenSum × List Token} (hstar : leads .star ts = true)
    (h : starDue depth s n.val.value ts = .ok r) :
    ∃ (star : Leaf .star) (p : Leaf .identifier) (us : List Token),
      n.val :: ts = (TermTree.multiple n star p).tokens ++ us ∧
      Each .integer Readable (TermTree.multiple n star p).tokens ∧
      termDone depth (s.extend (TermTree.multiple n star p).multiples 0) us = .ok r := by
  cases ts with
  | nil => cases hstar
  | cons star ts =>
    cases ts with
    | nil => exact absurd h Formula.missing_ne_ok
    | cons p ts =>
      rw [starDue] at h
      split at h
      · next hp =>
        rw [addMultiple_eq] at h
        refine ⟨⟨star, by simpa [leads] using hstar⟩, ⟨p, hp⟩, ts, rfl, ?_, h⟩
        rw [TermTree.tokens, each_cons, each_leaf (by decide), each_leaf (by decide)]
        exact ⟨fun _ => hn, each_nil⟩
      · exact absurd h Formula.missing_ne_ok

theorem leadsTerm_of_shorter {ts : List Token} (hts : Each .integer Digits ts)
    (h : ∀ us : List Token, us.length < ts.length → Each .integer Digits us → LeadsGroup us) :
    LeadsTerm ts := by
  intro depth s r hs hread
  cases ts with
  | nil => cases hread
  | cons t us =>
    have hus := (each_cons.mp hts).2
    rw [termDue] at hread
    split at hread
    · next ht =>
      obtain ⟨d, p, vs, rfl, hnum, hbound, hdone⟩ := h us (by simp) hus hs hread
      refine ⟨.group ⟨t, ht⟩ d p, vs, by simp [TermTree.tokens], ?_, hbound, hdone⟩
      rw [TermTree.tokens, each_leaf (by decide), each_append, each_leaf (by decide)]
      exact ⟨hnum, each_nil⟩
    · next ht =>
      rw [addMultiple_eq] at hread
      refine ⟨.place ⟨t, ht⟩, us, rfl, ?_, ?_, hread⟩
      · rw [TermTree.tokens, each_leaf (by decide)]
        exact each_nil
      · simpa [TokenSum.extend, TermTree.constant] using hs
    · next ht =>
      have hdigits := (each_cons.mp hts).1 ht
      rw [read_value hdigits] at hread
      by_cases hvalue : t.value ≤ Number.limit
      · rw [if_pos hvalue] at hread
        dsimp only at hread
        split at hread
        · next hstar =>
          obtain ⟨star, p, vs, heq, hnum, hdone⟩ :=
            multiple_of_starDue (n := ⟨t, ht⟩) ⟨hdigits, hvalue⟩ hstar hread
          exact ⟨.multiple ⟨t, ht⟩ star p, vs, heq, hnum,
            by simpa [TokenSum.extend, TermTree.constant] using hs, hdone⟩
        · rw [addLiteral_eq] at hread
          by_cases hsum : s.constant + t.value ≤ Number.limit
          · rw [if_pos hsum] at hread
            have hnum : Each .integer Readable [t] :=
              each_cons.mpr ⟨fun _ => ⟨hdigits, hvalue⟩, each_nil⟩
            exact ⟨.literal ⟨t, ht⟩, us, rfl, hnum, hsum, hread⟩
          · rw [if_neg hsum] at hread
            cases hread
      · rw [if_neg hvalue] at hread
        cases hread
    · cases hread
    · cases hread

theorem leadsGroup_of_shorter {ts : List Token} (hts : Each .integer Digits ts)
    (hterm : LeadsTerm ts)
    (h : ∀ us : List Token, us.length < ts.length → Each .integer Digits us → LeadsGroup us) :
    LeadsGroup ts := by
  intro depth s r hs hread
  obtain ⟨t, us, rfl, hnum, hbound, hdone⟩ := hterm hs hread
  rcases termDone_cases hdone with ⟨p, us, rfl, hdue⟩ | ⟨hdepth, -⟩ | ⟨d, p, us, hdepth, rfl, hdone⟩
  · have hus : Each .integer Digits us := (each_cons.mp (each_append.mp hts).2).2
    obtain ⟨d, q, vs, rfl, hnum', hbound', hdone'⟩ := h us (by simp; omega) hus hbound hdue
    rw [extend_extend] at hbound' hdone'
    refine ⟨.plus t p d, q, vs, by simp [SumTree.tokens], ?_, hbound', hdone'⟩
    rw [SumTree.tokens, each_append, each_leaf (by decide)]
    exact ⟨hnum, hnum'⟩
  · exact absurd hdepth (by omega)
  · obtain rfl : depth = d := by omega
    exact ⟨.last t, p, us, rfl, hnum, hbound, hdone⟩

theorem leadsGroup {ts : List Token} (hts : Each .integer Digits ts) : LeadsGroup ts := by
  induction hn : ts.length using Nat.strongRecOn generalizing ts with
  | ind n ih =>
    have hshorter : ∀ us : List Token, us.length < ts.length → Each .integer Digits us →
        LeadsGroup us :=
      fun us hlt hus => ih us.length (hn ▸ hlt) hus rfl
    exact leadsGroup_of_shorter hts (leadsTerm_of_shorter hts hshorter) hshorter

theorem leadsTerm {ts : List Token} (hts : Each .integer Digits ts) : LeadsTerm ts :=
  leadsTerm_of_shorter hts fun _ _ => leadsGroup

/-- **What is read as a sum has a derivation.** -/
theorem SumTree.of_termDue {ts : List Token} (hts : Each .integer Digits ts) {s s' : TokenSum}
    {rest : List Token} (hs : s.constant ≤ Number.limit)
    (h : termDue 0 s ts = .ok (s', rest)) : ∃ d : SumTree, ts = d.tokens ++ rest ∧
      Each .integer Readable d.tokens ∧ s'.constant ≤ Number.limit ∧
      s' = s.extend d.multiples d.constant := by
  induction hn : ts.length using Nat.strongRecOn generalizing ts s with
  | ind n ih =>
    obtain ⟨t, us, rfl, hnum, hbound, hdone⟩ := leadsTerm hts hs h
    rcases termDone_cases hdone with ⟨p, us, rfl, hdue⟩ | ⟨-, hr⟩ | ⟨d, p, us, hdepth, -, -⟩
    · have hus : Each .integer Digits us := (each_cons.mp (each_append.mp hts).2).2
      obtain ⟨d, rfl, hnum', hbound', rfl⟩ :=
        ih us.length (by simp [← hn]; omega) hus hbound hdue rfl
      refine ⟨.plus t p d, by simp [SumTree.tokens], ?_, hbound', by simp; rfl⟩
      rw [SumTree.tokens, each_append, each_leaf (by decide)]
      exact ⟨hnum, hnum'⟩
    · cases hr
      exact ⟨.last t, rfl, hnum, hbound, rfl⟩
    · exact absurd hdepth (by omega)

/-! ## Runs of connectives -/

theorem joinRun_eq {c : Connective} {run : List (Connective × Formula)} (hne : run ≠ [])
    (hrun : ∀ l ∈ run, l.1 = c) (f : Formula) :
    joinRun f run = .junction c (f :: run.map Prod.snd) := by
  cases run with
  | nil => exact absurd rfl hne
  | cons l run =>
    obtain ⟨d, g⟩ := l
    obtain rfl : d = c := hrun (d, g) List.mem_cons_self
    rfl

theorem forall_mem_reverse_cons {l : Connective × Formula} {run : List (Connective × Formula)}
    (hrun : ∀ l' ∈ run, l'.1 = l.1) : ∀ l' ∈ (l :: run).reverse, l'.1 = l.1 := by
  intro l' hl'
  rcases List.mem_cons.mp (List.mem_reverse.mp hl') with rfl | hl'
  · rfl
  · exact hrun l' hl'

/-- Cutting into runs, with `l` the last link of the run so far and `run` those before it, in
reverse, goes on as the combination of operands does. -/
theorem foldl_joinRun_loop (links : List (Connective × Formula)) (l : Connective × Formula)
    (run : List (Connective × Formula)) (runs : List (List (Connective × Formula)))
    (hrun : ∀ l' ∈ run, l'.1 = l.1) (f : Formula) :
    (List.splitBy.loop (fun a b => decide (a.1 = b.1)) links l run runs).foldl joinRun f =
      Formula.chainFrom (runs.reverse.foldl joinRun f)
        (some (l.1, (l :: run).reverse.map Prod.snd)) links := by
  induction links generalizing l run runs with
  | nil =>
    rw [List.splitBy.loop, List.reverse_cons, List.foldl_append, List.foldl_cons, List.foldl_nil,
      joinRun_eq (by simp) (forall_mem_reverse_cons hrun)]
    rfl
  | cons m links ih =>
    obtain ⟨c, g⟩ := m
    rw [List.splitBy.loop, Formula.chainFrom]
    by_cases hc : c = l.1
    · have hnext : ∀ l' ∈ l :: run, l'.1 = c := by
        intro l' hl'
        rw [forall_mem_reverse_cons hrun l' (List.mem_reverse.mpr hl'), hc]
      rw [decide_eq_true hc.symm, if_pos hc]
      dsimp only
      rw [ih (c, g) (l :: run) runs hnext, List.reverse_cons (a := (c, g)), List.map_append, ← hc]
      rfl
    · rw [decide_eq_false (Ne.symm hc), if_neg hc]
      dsimp only
      rw [ih (c, g) [] ((l :: run).reverse :: runs) (by simp),
        List.reverse_cons (a := (l :: run).reverse), List.foldl_append, List.foldl_cons,
        List.foldl_nil, joinRun_eq (by simp) (forall_mem_reverse_cons hrun)]
      rfl

/-- **Operands are combined in maximal runs of one connective.** -/
theorem chain_eq_joinRuns (f : Formula) (links : List (Connective × Formula)) :
    Formula.chain f links = joinRuns f links := by
  cases links with
  | nil => rfl
  | cons l links =>
    exact (foldl_joinRun_loop links l [] [] (by simp) f).symm

/-! ## What has a derivation is read -/

theorem relation?_kind (op : Comparison) : Formula.relation? op.kind = some op := by
  cases op <;> rfl

theorem connective?_kind (c : Connective) : Formula.connective? c.kind = some c := by
  cases c <;> rfl

theorem kind_of_relation? {k : Token.Kind} {op : Comparison} (h : Formula.relation? k = some op) :
    k = op.kind := by
  cases k <;> cases h <;> rfl

theorem kind_of_connective? {k : Token.Kind} {c : Connective} (h : Formula.connective? k = some c) :
    k = c.kind := by
  cases k <;> cases h <;> rfl

theorem SumTree.readSum (d : SumTree) {rest : List Token} (hnum : Each .integer Readable d.tokens)
    (hbound : d.constant ≤ Number.limit) (hrest : EndsSum rest) :
    Formula.readSum (d.tokens ++ rest) = .ok (d.sum, rest) := by
  have hdone : termDone 0 d.sum rest = .ok (d.sum, rest) := by
    cases rest with
    | nil => rfl
    | cons t ts =>
      have ht : ¬ t.kind = .plus := by simpa [leads] using hrest.1
      rw [termDone, if_neg ht, if_pos rfl]
  have hsum : ({} : TokenSum).extend d.multiples d.constant = d.sum := by
    simp [TokenSum.extend, SumTree.sum]
  rw [Formula.readSum, d.read hnum (by simpa using hbound) hrest.2, hsum, hdone]

theorem AtomTree.read (a : AtomTree) {rest : List Token} (hnum : Each .integer Readable a.tokens)
    (hl : a.lhs.constant ≤ Number.limit) (hr : a.rhs.constant ≤ Number.limit)
    (hrest : EndsSum rest) :
    readAtom (a.tokens ++ rest) = .ok (a.formula, rest) := by
  rw [AtomTree.tokens, each_append, each_cons] at hnum
  have hlhs := a.lhs.readSum hnum.1 hl (endsSum_rel a.rel (a.rhs.tokens ++ rest))
  have hrel : readRelation (a.rel.val :: (a.rhs.tokens ++ rest)) =
      .ok (a.op, a.rhs.tokens ++ rest) := by
    rw [readRelation, a.rel.2, relation?_kind]
  have hrhs := a.rhs.readSum hnum.2.2 hr hrest
  rw [AtomTree.tokens, List.append_assoc, List.cons_append]
  simp only [readAtom, hlhs, hrel, hrhs, bind, Except.bind]
  rfl

/-- The numbers of a derivation, given by its tokens and the sides of its comparisons, can be
read. -/
def Fits (ts : List Token) (sides : List SumTree) : Prop :=
  Each .integer Readable ts ∧ ∀ s ∈ sides, s.constant ≤ Number.limit

theorem readLinks_end {operand : Formula.Reader Formula} {n : Nat} {rest : List Token}
    (hrest : EndsFormula rest) : readLinks operand n rest = .ok ([], rest) := by
  cases n with
  | zero => rfl
  | succ n =>
    cases rest with
    | nil => rfl
    | cons t ts =>
      have hconn : Formula.connective? t.kind = none := by
        cases hc : Formula.connective? t.kind with
        | none => rfl
        | some c => exact absurd (kind_of_connective? hc) (of_decide_eq_false (hrest.2 c))
      simp only [readLinks, hconn]

/-- A chain is read if its first operand is, and the links behind it. -/
theorem readChain_eq {operand : Formula.Reader Formula} {ts ts' rest : List Token} {f : Formula}
    {links : List (Connective × Formula)} (hfirst : operand ts = .ok (f, ts'))
    (hlinks : readLinks operand ts'.length ts' = .ok (links, rest)) :
    readChain operand ts = .ok (joinRuns f links, rest) := by
  simp only [readChain, hfirst, hlinks, bind, Except.bind, chain_eq_joinRuns]
  rfl

mutual

/-- The first operand of a formula is read, and then the links behind it. -/
theorem FormulaTree.readOperands : ∀ (f : FormulaTree) {n : Nat} {rest : List Token},
    Fits f.tokens f.sides → f.tokens.length ≤ n → EndsFormula rest →
      ∃ ts, readOperand n (f.tokens ++ rest) = .ok (f.operands.1, ts) ∧
        ts.length ≤ (f.tokens ++ rest).length ∧
        ∀ m, ts.length ≤ m → readLinks (readOperand n) m ts = .ok (f.operands.2, rest)
  | .last u, n, rest, hfits, hn, hrest =>
    ⟨rest, u.read hfits hn hrest.1, by simp, fun m _ => readLinks_end hrest⟩
  | .link u c o f, n, rest, hfits, hn, hrest => by
    rw [FormulaTree.tokens, FormulaTree.sides, Fits, each_append, each_cons,
      List.forall_mem_append] at hfits
    obtain ⟨⟨hu, -, hf⟩, hsu, hsf⟩ := hfits
    rw [FormulaTree.tokens, List.length_append, List.length_cons] at hn
    obtain ⟨ts, hfirst, hlen, hlinks⟩ := f.readOperands ⟨hf, hsf⟩ (n := n) (by omega) hrest
    refine ⟨o.val :: (f.tokens ++ rest), ?_, by simp [FormulaTree.tokens], fun m hm => ?_⟩
    · rw [FormulaTree.tokens, List.append_assoc]
      exact u.read ⟨hu, hsu⟩ (by omega) (endsSum_connective o _)
    · cases m with
      | zero => cases hm
      | succ m =>
        have hrec := hlinks m (by simp only [List.length_cons] at hm; omega)
        simp only [readLinks, o.2, connective?_kind, hfirst, hrec, bind, Except.bind]
        rfl

theorem UnaryTree.read : ∀ (u : UnaryTree) {n : Nat} {rest : List Token},
    Fits u.tokens u.sides → u.tokens.length ≤ n → EndsSum rest →
      readOperand n (u.tokens ++ rest) = .ok (u.formula, rest)
  | .not m u, n, rest, hfits, hn, hrest => by
    rw [UnaryTree.tokens, UnaryTree.sides, Fits, each_cons] at hfits
    cases n with
    | zero => cases hn
    | succ n =>
      have hrec := u.read ⟨hfits.1.2, hfits.2⟩ (Nat.le_of_succ_le_succ hn) hrest
      rw [UnaryTree.tokens, List.cons_append, readOperand, m.2]
      simp only [hrec, bind, Except.bind]
      rfl
  | .primary p, n, rest, hfits, hn, hrest => p.read hfits hn hrest

theorem PrimaryTree.read : ∀ (p : PrimaryTree) {n : Nat} {rest : List Token},
    Fits p.tokens p.sides → p.tokens.length ≤ n → EndsSum rest →
      readOperand n (p.tokens ++ rest) = .ok (p.formula, rest)
  | .tt t, n, rest, _, hn, _ => by
    cases n with
    | zero => cases hn
    | succ n =>
      rw [PrimaryTree.tokens, List.singleton_append, readOperand, t.2]
      rfl
  | .ff t, n, rest, _, hn, _ => by
    cases n with
    | zero => cases hn
    | succ n =>
      rw [PrimaryTree.tokens, List.singleton_append, readOperand, t.2]
      rfl
  | .group l f r, n, rest, hfits, hn, hrest => by
    rw [PrimaryTree.tokens, PrimaryTree.sides, Fits, each_cons, each_append] at hfits
    rw [PrimaryTree.tokens, List.length_cons, List.length_append] at hn
    cases n with
    | zero => cases hn
    | succ n =>
      obtain ⟨ts, hfirst, -, hlinks⟩ := f.readOperands ⟨hfits.1.2.1, hfits.2⟩ (n := n) (by omega)
        (endsFormula_leaf r rest (.inl rfl))
      have hchain := readChain_eq hfirst (hlinks _ (Nat.le_refl _))
      have hcloses := f.closesSum 0 (r.val :: rest)
      rw [PrimaryTree.tokens, List.cons_append, List.append_assoc, List.singleton_append,
        readOperand, l.2]
      simp only [hcloses, hchain, bind, Except.bind, leads_leaf]
      rfl
  | .atom a, n, rest, hfits, hn, hrest => by
    rw [PrimaryTree.sides, Fits, List.forall_mem_cons, List.forall_mem_singleton] at hfits
    obtain ⟨t, ts, hcons, ht⟩ := a.lhs.tokens_eq_cons
    have hatom := a.read hfits.1 hfits.2.1 hfits.2.2 hrest
    have htokens : a.tokens ++ rest = t :: (ts ++ (a.rel.val :: a.rhs.tokens ++ rest)) := by
      rw [AtomTree.tokens, hcons, List.append_assoc, List.cons_append]
    cases n with
    | zero =>
      rw [PrimaryTree.tokens, AtomTree.tokens, hcons] at hn
      cases hn
    | succ n =>
      rw [PrimaryTree.tokens, PrimaryTree.formula, ← hatom, htokens, readOperand]
      rcases ht with ht | ht | ht
      · rw [ht]
      · rw [ht]
      · simp only [ht, SumTree.closesSum_tail hcons ht, if_true]

end

/-! ## What is read has a derivation -/

theorem AtomTree.of_readAtom {ts rest : List Token} {f : Formula} (hts : Each .integer Digits ts)
    (h : readAtom ts = .ok (f, rest)) : ∃ a : AtomTree, ts = a.tokens ++ rest ∧ a.formula = f ∧
      Fits a.tokens [a.lhs, a.rhs] := by
  have hempty : ({} : TokenSum).constant ≤ Number.limit := Int.natCast_nonneg _
  obtain ⟨⟨l, ts₁⟩, hl, h⟩ := exists_of_bind_ok h
  obtain ⟨⟨op, ts₂⟩, hop, h⟩ := exists_of_bind_ok h
  obtain ⟨⟨r, ts₃⟩, hr, h⟩ := exists_of_bind_ok h
  cases h
  obtain ⟨dl, rfl, hlnum, hlbound, rfl⟩ := SumTree.of_termDue hts hempty hl
  cases ts₁ with
  | nil => exact absurd hop Formula.missing_ne_ok
  | cons t ts₁ =>
    rw [readRelation] at hop
    split at hop
    · next op' hrel =>
      cases hop
      obtain ⟨-, hts₁⟩ := each_cons.mp (each_append.mp hts).2
      obtain ⟨dr, rfl, hrnum, hrbound, rfl⟩ := SumTree.of_termDue hts₁ hempty hr
      refine ⟨⟨dl, op, ⟨t, kind_of_relation? hrel⟩, dr⟩, by simp [AtomTree.tokens], ?_, ?_, ?_⟩
      · simp [AtomTree.formula, SumTree.sum, TokenSum.extend]
      · rw [AtomTree.tokens, each_append, each_leaf (comparison_kind_ne op).1]
        exact ⟨hlnum, hrnum⟩
      · rw [List.forall_mem_cons, List.forall_mem_singleton]
        simpa [TokenSum.extend] using And.intro hlbound hrbound
    · exact absurd hop Formula.missing_ne_ok

/-- Whatever the reader takes off has a derivation of `unary`. -/
def Derives (operand : Formula.Reader Formula) : Prop :=
  ∀ ⦃ts : List Token⦄ ⦃f : Formula⦄ ⦃rest : List Token⦄, Each .integer Digits ts →
    operand ts = .ok (f, rest) →
    ∃ u : UnaryTree, ts = u.tokens ++ rest ∧ u.formula = f ∧ Fits u.tokens u.sides

/-- Links that are read behind a unary make it a formula. -/
theorem FormulaTree.of_readLinks {operand : Formula.Reader Formula} (ho : Derives operand)
    {n : Nat} {ts rest : List Token} {links : List (Connective × Formula)}
    (hts : Each .integer Digits ts) (h : readLinks operand n ts = .ok (links, rest))
    {u : UnaryTree} (hu : Fits u.tokens u.sides) :
    ∃ d : FormulaTree, u.tokens ++ ts = d.tokens ++ rest ∧ d.operands = (u.formula, links) ∧
      Fits d.tokens d.sides := by
  induction n generalizing ts links u with
  | zero =>
    cases h
    exact ⟨.last u, rfl, rfl, hu⟩
  | succ n ih =>
    unfold readLinks at h
    split at h
    · cases h
      exact ⟨.last u, rfl, rfl, hu⟩
    · next t ts =>
      split at h
      · cases h
        exact ⟨.last u, rfl, rfl, hu⟩
      · next c hc =>
        obtain ⟨⟨g, ts₁⟩, hg, h⟩ := exists_of_bind_ok h
        obtain ⟨⟨links', ts₂⟩, hlinks, h⟩ := exists_of_bind_ok h
        cases h
        obtain ⟨v, rfl, rfl, hv⟩ := ho (each_cons.mp hts).2 hg
        obtain ⟨d, htokens, hoperands, hd⟩ :=
          ih (each_append.mp (each_cons.mp hts).2).2 hlinks hv
        refine ⟨.link u c ⟨t, kind_of_connective? hc⟩ d, ?_, ?_, ?_, ?_⟩
        · rw [FormulaTree.tokens, htokens, List.append_assoc, List.cons_append]
        · rw [FormulaTree.operands, hoperands]
        · rw [FormulaTree.tokens, each_append, each_leaf (connective_kind_ne c).1]
          exact ⟨hu.1, hd.1⟩
        · rw [FormulaTree.sides, List.forall_mem_append]
          exact ⟨hu.2, hd.2⟩

/-- **What is read as a formula has a derivation.** -/
theorem FormulaTree.of_readChain {operand : Formula.Reader Formula} (ho : Derives operand)
    {ts rest : List Token} {f : Formula} (hts : Each .integer Digits ts)
    (h : readChain operand ts = .ok (f, rest)) :
    ∃ d : FormulaTree, ts = d.tokens ++ rest ∧ d.formula = f ∧ Fits d.tokens d.sides := by
  obtain ⟨⟨g, ts₁⟩, hg, h⟩ := exists_of_bind_ok h
  obtain ⟨⟨links, ts₂⟩, hlinks, h⟩ := exists_of_bind_ok h
  cases h
  obtain ⟨u, rfl, rfl, hu⟩ := ho hts hg
  obtain ⟨d, htokens, hoperands, hd⟩ :=
    FormulaTree.of_readLinks ho (each_append.mp hts).2 hlinks hu
  refine ⟨d, htokens, ?_, hd⟩
  rw [FormulaTree.formula, hoperands, chain_eq_joinRuns]

theorem derives_readOperand (n : Nat) : Derives (readOperand n) := by
  induction n with
  | zero =>
    intro ts f rest hts h
    exact absurd h Formula.errorAt_ne_ok
  | succ n ih =>
    intro ts f rest hts h
    have hatom : readAtom ts = .ok (f, rest) → ∃ u : UnaryTree, ts = u.tokens ++ rest ∧
        u.formula = f ∧ Fits u.tokens u.sides := by
      intro h
      obtain ⟨a, hts', hf, ha⟩ := AtomTree.of_readAtom hts h
      exact ⟨.primary (.atom a), hts', hf, ha⟩
    unfold readOperand at h
    split at h
    · exact absurd h Formula.errorAt_ne_ok
    · next t ts =>
      have hts' := (each_cons.mp hts).2
      split at h
      · next ht =>
        obtain ⟨⟨g, ts₁⟩, hg, h⟩ := exists_of_bind_ok h
        cases h
        obtain ⟨u, rfl, rfl, hu⟩ := ih hts' hg
        refine ⟨.not ⟨t, ht⟩ u, rfl, rfl, ?_, hu.2⟩
        rw [UnaryTree.tokens, each_leaf (by decide)]
        exact hu.1
      · next ht =>
        cases h
        refine ⟨.primary (.tt ⟨t, ht⟩), rfl, rfl, ?_, by simp [UnaryTree.sides, PrimaryTree.sides]⟩
        rw [UnaryTree.tokens, PrimaryTree.tokens, each_leaf (by decide)]
        exact each_nil
      · next ht =>
        cases h
        refine ⟨.primary (.ff ⟨t, ht⟩), rfl, rfl, ?_, by simp [UnaryTree.sides, PrimaryTree.sides]⟩
        rw [UnaryTree.tokens, PrimaryTree.tokens, each_leaf (by decide)]
        exact each_nil
      · exact hatom h
      · exact hatom h
      · next ht =>
        split at h
        · exact hatom h
        · obtain ⟨⟨g, ts₁⟩, hg, h⟩ := exists_of_bind_ok h
          dsimp only at h
          obtain ⟨d, rfl, rfl, hd⟩ := FormulaTree.of_readChain ih hts' hg
          cases ts₁ with
          | nil => exact absurd h Formula.missing_ne_ok
          | cons r ts₁ =>
            split at h
            · next hr =>
              cases h
              have hr : r.kind = .rparen := of_decide_eq_true hr
              refine ⟨.primary (.group ⟨t, ht⟩ d ⟨r, hr⟩), ?_, rfl, ?_, hd.2⟩
              · simp [UnaryTree.tokens, PrimaryTree.tokens]
              · rw [UnaryTree.tokens, PrimaryTree.tokens, each_leaf (by decide), each_append,
                  each_leaf (by decide)]
                exact ⟨hd.1, each_nil⟩
            · exact absurd h Formula.missing_ne_ok
      · exact absurd h Formula.errorAt_ne_ok

/-! ## Whole texts -/

/-- What a derivation spells is read, if its numbers can be read. -/
theorem FormulaTree.Spells.ofTokens {d : FormulaTree} {ts : List Token} (h : d.Spells ts)
    (hfits : Fits ts d.sides) : Formula.ofTokens ts = .ok d.formula := by
  obtain ⟨e, rfl⟩ := h
  have hends : EndsFormula [e.val] := endsFormula_leaf e [] (.inr rfl)
  obtain ⟨us, hfirst, -, hlinks⟩ := d.readOperands (n := (d.tokens ++ [e.val]).length)
    ⟨(each_append.mp hfits.1).1, hfits.2⟩ (by simp) hends
  have hread := readChain_eq hfirst (hlinks _ (Nat.le_refl _))
  simp only [Formula.ofTokens, readFormula, hread, bind, Except.bind, e.2]
  rfl

theorem digits_of_stream {ts : List Token} (h : Token.Stream ts) : Each .integer Digits ts := by
  obtain ⟨us, e, rfl, he, hus⟩ := h
  rw [each_append, each_cons, he]
  exact ⟨fun t ht => (hus t ht).2.1, fun h => absurd h (by decide), each_nil⟩

/-- What is read from a stream has a derivation. -/
theorem FormulaTree.of_ofTokens {ts : List Token} {f : Formula} (hts : Token.Stream ts)
    (h : Formula.ofTokens ts = .ok f) :
    ∃ d : FormulaTree, d.Spells ts ∧ Fits ts d.sides ∧ d.formula = f := by
  have hnum := digits_of_stream hts
  obtain ⟨us, e, rfl, he, hus⟩ := hts
  obtain ⟨⟨g, rest⟩, hg, h⟩ := exists_of_bind_ok h
  obtain ⟨d, htokens, rfl, hd⟩ := FormulaTree.of_readChain (derives_readOperand _) hnum hg
  -- the reader stops at an end token, and there is only the one
  have hrest : ∃ e' : Leaf .eof, ∃ rest', rest = e'.val :: rest' ∧ d.formula = f := by
    cases rest with
    | nil =>
      have hmem : e ∈ d.tokens := by
        rw [List.append_nil] at htokens
        exact htokens ▸ List.mem_append_right us (List.mem_singleton.mpr rfl)
      exact (d.endless e hmem he).elim
    | cons t rest =>
      dsimp only at h
      split at h
      · next ht =>
        cases h
        exact ⟨⟨t, ht⟩, rest, rfl, rfl⟩
      · cases h
      · cases h
  obtain ⟨e', rest', rfl, rfl⟩ := hrest
  have hlast : rest' = [] := by
    rcases List.eq_nil_or_concat rest' with hnil | ⟨init, x, rfl⟩
    · exact hnil
    · rw [List.concat_eq_append, ← List.cons_append, ← List.append_assoc] at htokens
      have hmem : e'.val ∈ us := by
        rw [(List.append_inj' htokens rfl).1]
        simp
      exact absurd e'.2 (hus e'.val hmem).1
  subst hlast
  refine ⟨d, ⟨e', htokens⟩, ⟨?_, hd.2⟩, rfl⟩
  rw [htokens, each_append, each_leaf (by decide)]
  exact ⟨hd.1, each_nil⟩

/-- **The reader accepts exactly the grammar.** The tokens of a text have at most one derivation.
They are read as a formula if and only if they have one whose integers, and whose constants on
either side of a comparison, are within the limit; the formula is the one that it denotes. -/
theorem ofTokens_ok_iff {s : String} {ts : List Token} (hscan : Token.scan s = .ok ts) :
    (∀ d d' : FormulaTree, d.Spells ts → d'.Spells ts → d = d') ∧
    ∀ f : Formula, Formula.ofTokens ts = .ok f ↔
      ∃ d : FormulaTree, d.Spells ts ∧ (∀ t ∈ ts, t.kind = .integer → t.value ≤ Number.limit) ∧
        (∀ side ∈ d.sides, side.constant ≤ Number.limit) ∧ f = d.formula := by
  have hstream := Token.stream_of_scan hscan
  refine ⟨fun d d' hd hd' => hd.unique hd', fun f => ⟨fun h => ?_, ?_⟩⟩
  · obtain ⟨d, hd, hfits, rfl⟩ := FormulaTree.of_ofTokens hstream h
    exact ⟨d, hd, fun t ht hint => (hfits.1 t ht hint).2, hfits.2, rfl⟩
  · rintro ⟨d, hd, hsmall, hsides, rfl⟩
    have hdigits := digits_of_stream hstream
    exact hd.ofTokens ⟨fun t ht hint => ⟨hdigits t ht hint, hsmall t ht hint⟩, hsides⟩

/-- The tokens of a conjunction, a negation and a comparison in a row. -/
def rowTokens : List Token :=
  [⟨.tt, "T", 1⟩, ⟨.and, "/\\", 3⟩, ⟨.minus, "-", 6⟩, ⟨.ff, "F", 7⟩, ⟨.or, "\\/", 9⟩,
    ⟨.integer, "2", 12⟩, ⟨.star, "*", 13⟩, ⟨.identifier, "p", 14⟩, ⟨.eq, "=", 16⟩,
    ⟨.integer, "1", 18⟩, ⟨.eof, "", 19⟩]

/-- The conjunction closes where the connective changes, and is the first of two operands. -/
theorem rowTokens_derivation : Token.scan "T /\\ -F \\/ 2*p = 1" = .ok rowTokens ∧
    ∃ d : FormulaTree, d.Spells rowTokens ∧ d.formula =
      .junction .or [.junction .and [.tt, .not .ff], .atom ⟨[⟨"p", 2⟩], 0⟩ .eq ⟨[], 1⟩] := by
  have hscan : Token.scan "T /\\ -F \\/ 2*p = 1" = .ok rowTokens := by decide +kernel
  obtain ⟨d, hd, -, -, hf⟩ := ((ofTokens_ok_iff hscan).2 _).mp rfl
  exact ⟨hscan, d, hd, hf.symm⟩

end Grammar

end PetriReach
