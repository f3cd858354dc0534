import PetriReach.Proofs.Formula.Derivations
import PetriReach.Proofs.Formula.Outlook

/-!
# Beginnings of sentences

A list of tokens is viable if it can be completed to a sentence with its end token. The outlook
behind the tokens of a viable list tells what may follow.

* `SumOpen`, `FormulaOpen`: what can stand before a sum or a formula, parentheses open.
* `Lays`: what can stand before the position that an outlook describes.
* `Lays.next`: one more token keeps it.
* `stop_eq_none_iff`: the tokens that pass are the sentences.
* `viable_iff_of_stop`: the viable beginnings are those before the first token that does not pass.
-/

namespace PetriReach.Grammar

open Outlook

/-- The tokens begin a sentence and its end token. -/
def Viable (ts : List Token) : Prop :=
  ∃ (more : List Token) (d : FormulaTree), d.Spells (ts ++ more)

/-! ## Joining derivations -/

/-- The derivation of two sums with a plus between them. -/
def SumTree.add : SumTree → Leaf .plus → SumTree → SumTree
  | .last t, p, e => .plus t p e
  | .plus t q d, p, e => .plus t q (d.add p e)

theorem SumTree.tokens_add : ∀ (d : SumTree) (p : Leaf .plus) (e : SumTree),
    (d.add p e).tokens = d.tokens ++ p.val :: e.tokens
  | .last _, _, _ => rfl
  | .plus t q d, p, e => by
    rw [SumTree.add, SumTree.tokens, SumTree.tokens, d.tokens_add, List.append_assoc,
      List.cons_append]

/-- The derivation of two formulas with a connective between them. -/
def FormulaTree.join {c : Connective} : FormulaTree → Leaf c.kind → FormulaTree → FormulaTree
  | .last v, o, e => .link v c o e
  | .link v c' o' d, o, e => .link v c' o' (d.join o e)

theorem FormulaTree.tokens_join {c : Connective} : ∀ (d : FormulaTree) (o : Leaf c.kind)
    (e : FormulaTree), (d.join o e).tokens = d.tokens ++ o.val :: e.tokens
  | .last _, _, _ => rfl
  | .link v c' o' d, o, e => by
    rw [FormulaTree.join, FormulaTree.tokens, FormulaTree.tokens, d.tokens_join, List.append_assoc,
      List.cons_append]

/-- The derivation of a formula with a minus before it. The minus belongs to the first operand. -/
def FormulaTree.negate (m : Leaf .minus) : FormulaTree → FormulaTree
  | .last v => .last (.not m v)
  | .link v c o d => .link (.not m v) c o d

theorem FormulaTree.tokens_negate (m : Leaf .minus) (d : FormulaTree) :
    (d.negate m).tokens = m.val :: d.tokens := by
  cases d <;> rfl

/-- A primary as a formula. -/
def PrimaryTree.alone (p : PrimaryTree) : FormulaTree :=
  .last (.primary p)

/-! ## Open sums and formulas -/

/-- What can stand before a sum, inside `s` parentheses of a sum around it. -/
inductive SumOpen : Nat → List Token → Prop
  | start : SumOpen 0 []
  | plus {s : Nat} {out : List Token} (h : SumOpen s out) (d : SumTree) (p : Leaf .plus) :
    SumOpen s (out ++ d.tokens ++ [p.val])
  | group {s : Nat} {out : List Token} (h : SumOpen s out) (l : Leaf .lparen) :
    SumOpen (s + 1) (out ++ [l.val])

/-- What can stand before a formula, inside `f` parentheses of a formula around it. -/
inductive FormulaOpen : Nat → List Token → Prop
  | start : FormulaOpen 0 []
  | not {f : Nat} {out : List Token} (h : FormulaOpen f out) (m : Leaf .minus) :
    FormulaOpen f (out ++ [m.val])
  | link {f : Nat} {out : List Token} (h : FormulaOpen f out) (d : FormulaTree) {c : Connective}
    (o : Leaf c.kind) : FormulaOpen f (out ++ d.tokens ++ [o.val])
  | group {f : Nat} {out : List Token} (h : FormulaOpen f out) (l : Leaf .lparen) :
    FormulaOpen (f + 1) (out ++ [l.val])

/-- Where no parenthesis is open, a sum makes a whole one. -/
theorem SumOpen.whole {out : List Token} (h : SumOpen 0 out) (d : SumTree) :
    ∃ e : SumTree, e.tokens = out ++ d.tokens := by
  generalize hs : 0 = s at h
  induction h generalizing d with
  | start => exact ⟨d, rfl⟩
  | plus h d' p ih =>
    obtain ⟨e, he⟩ := ih (d'.add p d) hs
    exact ⟨e, by rw [he, SumTree.tokens_add]; simp⟩
  | group h l ih => cases hs

/-- A closing parenthesis ends the innermost group, which is a term of what stands around it. -/
theorem SumOpen.close {s : Nat} {out : List Token} (h : SumOpen (s + 1) out) (d : SumTree)
    (r : Leaf .rparen) :
    ∃ (out' : List Token) (e : SumTree), SumOpen s out' ∧
      out ++ d.tokens ++ [r.val] = out' ++ e.tokens := by
  generalize hs : s + 1 = s' at h
  induction h generalizing d with
  | start => cases hs
  | plus h d' p ih =>
    obtain ⟨out', e, hout', he⟩ := ih (d'.add p d) hs
    exact ⟨out', e, hout', by rw [← he, SumTree.tokens_add]; simp⟩
  | group h l ih =>
    cases hs
    exact ⟨_, .last (.group l d r), h, by simp [SumTree.tokens, TermTree.tokens]⟩

/-- Where no parenthesis is open, a formula makes a whole one. -/
theorem FormulaOpen.whole {out : List Token} (h : FormulaOpen 0 out) (d : FormulaTree) :
    ∃ e : FormulaTree, e.tokens = out ++ d.tokens := by
  generalize hf : 0 = f at h
  induction h generalizing d with
  | start => exact ⟨d, rfl⟩
  | not h m ih =>
    obtain ⟨e, he⟩ := ih (d.negate m) hf
    exact ⟨e, by rw [he, FormulaTree.tokens_negate]; simp⟩
  | link h d' o ih =>
    obtain ⟨e, he⟩ := ih (d'.join o d) hf
    exact ⟨e, by rw [he, FormulaTree.tokens_join]; simp⟩
  | group h l ih => cases hf

/-- A closing parenthesis ends the innermost group, which is an operand of what stands around it. -/
theorem FormulaOpen.close {f : Nat} {out : List Token} (h : FormulaOpen (f + 1) out)
    (d : FormulaTree) (r : Leaf .rparen) :
    ∃ (out' : List Token) (e : FormulaTree), FormulaOpen f out' ∧
      out ++ d.tokens ++ [r.val] = out' ++ e.tokens := by
  generalize hf : f + 1 = f' at h
  induction h generalizing d with
  | start => cases hf
  | not h m ih =>
    obtain ⟨out', e, hout', he⟩ := ih (d.negate m) hf
    exact ⟨out', e, hout', by rw [← he, FormulaTree.tokens_negate]; simp⟩
  | link h d' o ih =>
    obtain ⟨out', e, hout', he⟩ := ih (d'.join o d) hf
    exact ⟨out', e, hout', by rw [← he, FormulaTree.tokens_join]; simp⟩
  | group h l ih =>
    cases hf
    refine ⟨_, (PrimaryTree.group l d r).alone, h, ?_⟩
    simp [PrimaryTree.alone, FormulaTree.tokens, UnaryTree.tokens, PrimaryTree.tokens]

/-- What can stand before an operand: `u` parentheses last that may be those of sums or those of
formulas, inside `f` of formulas. -/
def Undecided (f : Nat) : Nat → List Token → Prop
  | 0, out => FormulaOpen f out
  | u + 1, out => ∃ (out' : List Token) (l : Leaf .lparen),
    Undecided f u out' ∧ out = out' ++ [l.val]

theorem Undecided.formulaOpen {f u : Nat} {out : List Token} (h : Undecided f u out) :
    FormulaOpen (f + u) out := by
  induction u generalizing out with
  | zero => exact h
  | succ u ih =>
    obtain ⟨out', l, hout', rfl⟩ := h
    exact (ih hout').group l

/-! ## What an outlook stands behind -/

/-- What can stand before a side. -/
def SideDue : Side → List Token → Prop
  | .left f u, out => Undecided f u out
  | .right g, out => ∃ (out' : List Token) (d : SumTree) (op : Comparison) (rel : Leaf op.kind),
    FormulaOpen g out' ∧ out = out' ++ d.tokens ++ [rel.val]

/-- What can stand before a sum inside a side. -/
def SumDue (σ : Side) (s : Nat) (ts : List Token) : Prop :=
  ∃ out mid : List Token, SideDue σ out ∧ SumOpen s mid ∧ ts = out ++ mid

/-- What can stand before the position that an outlook describes. -/
inductive Lays : Outlook → List Token → Prop
  | operand {f u : Nat} {ts : List Token} (h : Undecided f u ts) : Lays (.operand f u) ts
  | term {σ : Side} {s : Nat} {ts : List Token} (h : SumDue σ s ts) : Lays (.term σ s) ts
  | factor {σ : Side} {s : Nat} {ts : List Token} (h : SumDue σ s ts) (n : Leaf .integer) :
    Lays (.factor σ s) (ts ++ [n.val])
  | place {σ : Side} {s : Nat} {ts : List Token} (h : SumDue σ s ts) (n : Leaf .integer)
    (star : Leaf .star) : Lays (.place σ s) (ts ++ [n.val, star.val])
  | behindTerm {σ : Side} {s : Nat} {ts : List Token} (h : SumDue σ s ts) (d : SumTree) :
    Lays (.behindTerm σ s) (ts ++ d.tokens)
  | behindOperand {g : Nat} {ts : List Token} (h : FormulaOpen g ts) (d : FormulaTree) :
    Lays (.behindOperand g) (ts ++ d.tokens)
  | ended {ts : List Token} {d : FormulaTree} (h : d.Spells ts) : Lays .ended ts

section Lays

variable {q q' : Outlook} {σ : Side} {f g s u : Nat} {t : Token} {ts more : List Token}

theorem SumDue.behindTerm (h : SumDue σ s ts) (t : TermTree) :
    Lays (.behindTerm σ s) (ts ++ t.tokens) :=
  .behindTerm h (.last t)

theorem Undecided.sumDue (h : Undecided f u ts) : SumDue (.left f u) 0 ts :=
  ⟨ts, [], h, .start, (List.append_nil ts).symm⟩

theorem Undecided.behindOperand (h : Undecided f u ts) (p : PrimaryTree) :
    Lays (.behindOperand (f + u)) (ts ++ p.tokens) :=
  .behindOperand h.formulaOpen p.alone

theorem Lays.leave (h : Lays (.behindOperand g) ts) (hq : Outlook.leave g t.kind = some q) :
    Lays q (ts ++ [t]) := by
  cases h with
  | behindOperand h d =>
    unfold Outlook.leave at hq
    split at hq
    · next ht =>
      cases hq
      exact .operand (h.link d (c := .and) ⟨t, ht⟩)
    · next ht =>
      cases hq
      exact .operand (h.link d (c := .or) ⟨t, ht⟩)
    · next g ht =>
      cases hq
      obtain ⟨out, e, hout, he⟩ := h.close d ⟨t, ht⟩
      rw [he]
      exact .behindOperand hout e
    · next ht =>
      cases hq
      obtain ⟨e, he⟩ := h.whole d
      exact .ended ⟨⟨t, ht⟩, by rw [he]⟩
    · cases hq

theorem Lays.behind (h : Lays (.behindTerm σ s) ts) (hq : Outlook.behind σ s t.kind = some q) :
    Lays q (ts ++ [t]) := by
  cases h with
  | behindTerm h d =>
    obtain ⟨out, mid, hout, hmid, rfl⟩ := h
    unfold Outlook.behind at hq
    split at hq
    · next ht =>
      cases hq
      exact .term ⟨out, _, hout, hmid.plus d ⟨t, ht⟩, by simp⟩
    · next s ht =>
      cases hq
      obtain ⟨mid', e, hmid', he⟩ := hmid.close d ⟨t, ht⟩
      have hts : out ++ mid ++ d.tokens ++ [t] = out ++ mid' ++ e.tokens := by
        rw [List.append_assoc out mid', ← he]
        simp
      rw [hts]
      exact .behindTerm ⟨out, mid', hout, hmid', rfl⟩ e
    · next f u ht =>
      -- the last parenthesis that was left open turns out to be that of a sum
      cases hq
      obtain ⟨out', l, hout', rfl⟩ := hout
      obtain ⟨e, he⟩ := hmid.whole d
      have hts : out' ++ [l.val] ++ mid ++ d.tokens ++ [t] =
          out' ++ (TermTree.group l e ⟨t, ht⟩).tokens := by
        rw [TermTree.tokens, he]
        simp
      rw [hts]
      exact hout'.sumDue.behindTerm _
    · next f u _ =>
      -- all that were left open turn out to be those of formulas
      obtain ⟨op, hop, rfl⟩ := Option.map_eq_some_iff.mp hq
      obtain ⟨e, he⟩ := hmid.whole d
      refine .term ⟨_, [], ⟨out, e, op, ⟨t, kind_of_relation? hop⟩, ?_, rfl⟩, .start, ?_⟩
      · exact Undecided.formulaOpen hout
      · rw [he]
        simp
    · next g _ =>
      obtain ⟨out', l, op, rel, hout', rfl⟩ := hout
      obtain ⟨r, hr⟩ := hmid.whole d
      have hts : out' ++ l.tokens ++ [rel.val] ++ mid ++ d.tokens =
          out' ++ (PrimaryTree.atom ⟨l, op, rel, r⟩).alone.tokens := by
        simp [PrimaryTree.alone, FormulaTree.tokens, UnaryTree.tokens, PrimaryTree.tokens,
          AtomTree.tokens, hr]
      rw [hts]
      exact (Lays.behindOperand hout' _).leave hq
    · cases hq

/-- **One more token keeps what an outlook stands behind.** -/
theorem Lays.next (h : Lays q ts) (hq : q.next t.kind = some q') : Lays q' (ts ++ [t]) := by
  unfold Outlook.next at hq
  split at hq
  · next f u ht =>
    cases hq
    cases h with
    | operand h => exact .operand (h.formulaOpen.not ⟨t, ht⟩)
  · next f u ht =>
    cases hq
    cases h with
    | operand h => exact h.behindOperand (.tt ⟨t, ht⟩)
  · next f u ht =>
    cases hq
    cases h with
    | operand h => exact h.behindOperand (.ff ⟨t, ht⟩)
  · next f u ht =>
    cases hq
    cases h with
    | operand h => exact .operand ⟨ts, ⟨t, ht⟩, h, rfl⟩
  · next f u ht =>
    cases hq
    cases h with
    | operand h => exact .factor h.sumDue ⟨t, ht⟩
  · next f u ht =>
    cases hq
    cases h with
    | operand h => exact h.sumDue.behindTerm (.place ⟨t, ht⟩)
  · next σ s ht =>
    cases hq
    cases h with
    | term h =>
      obtain ⟨out, mid, hout, hmid, rfl⟩ := h
      exact .term ⟨out, _, hout, hmid.group ⟨t, ht⟩, List.append_assoc _ _ _⟩
  · next σ s ht =>
    cases hq
    cases h with
    | term h => exact .factor h ⟨t, ht⟩
  · next σ s ht =>
    cases hq
    cases h with
    | term h => exact h.behindTerm (.place ⟨t, ht⟩)
  · next σ s ht =>
    cases hq
    cases h with
    | factor h n =>
      rw [List.append_assoc]
      exact .place h n ⟨t, ht⟩
  · next σ s _ =>
    cases h with
    | factor h n => exact (h.behindTerm (.literal n)).behind hq
  · next σ s ht =>
    cases hq
    cases h with
    | place h n star =>
      rw [List.append_assoc]
      exact h.behindTerm (.multiple n star ⟨t, ht⟩)
  · exact h.behind hq
  · exact h.leave hq
  · cases hq

/-- What passes from an outlook on completes a sentence. -/
theorem Lays.spells (h : Lays q ts) (hstop : q.stop more = none) :
    ∃ d : FormulaTree, d.Spells (ts ++ more) := by
  induction more generalizing q ts with
  | nil =>
    rw [Outlook.stop, ite_eq_left_iff] at hstop
    obtain rfl : q = .ended := by
      by_contra hq
      cases hstop hq
    cases h with
    | ended h => exact ⟨_, by rwa [List.append_nil]⟩
  | cons t more ih =>
    cases hq : q.next t.kind with
    | none =>
      rw [stop_cons_of_none hq] at hstop
      cases hstop
    | some q' =>
      rw [stop_cons hq] at hstop
      obtain ⟨d, hd⟩ := ih (h.next hq) hstop
      exact ⟨d, by rwa [List.append_assoc] at hd⟩

end Lays

/-- **The tokens that pass are the sentences.** -/
theorem stop_eq_none_iff {ts : List Token} :
    (operand 0 0).stop ts = none ↔ ∃ d : FormulaTree, d.Spells ts := by
  refine ⟨fun h => ?_, fun ⟨d, hd⟩ => hd.stop⟩
  exact Lays.spells (.operand (u := 0) .start) h

/-! ## Completions -/

/-- Some tokens pass from the outlook on. -/
def Completable (q : Outlook) : Prop :=
  ∃ more : List Token, q.stop more = none

theorem Completable.of_next {q q' : Outlook} {k : Token.Kind} (h : Completable q')
    (hq : q.next k = some q') : Completable q := by
  obtain ⟨more, hmore⟩ := h
  exact ⟨⟨k, "", 0⟩ :: more, by rw [stop_cons hq, hmore]⟩

theorem completable_behindOperand (g : Nat) : Completable (behindOperand g) := by
  induction g with
  | zero => exact .of_next (k := .eof) ⟨[], rfl⟩ rfl
  | succ g ih => exact ih.of_next (k := .rparen) rfl

theorem completable_operand (f u : Nat) : Completable (operand f u) :=
  (completable_behindOperand (f + u)).of_next (k := .tt) rfl

theorem completable_behindTerm (σ : Side) (s : Nat) : Completable (behindTerm σ s) := by
  have hright : ∀ g, Completable (behindTerm (.right g) 0) := fun g =>
    (completable_operand g 0).of_next (k := .and) rfl
  induction s with
  | zero =>
    cases σ with
    | left f u =>
      have hterm : Completable (term (.right (f + u)) 0) :=
        (hright (f + u)).of_next (k := .identifier) rfl
      exact hterm.of_next (k := .eq) (next_relation f u .eq)
    | right g => exact hright g
  | succ s ih => exact ih.of_next (k := .rparen) rfl

/-- **Every outlook has a completion.** -/
theorem completable (q : Outlook) : Completable q := by
  cases q with
  | operand f u => exact completable_operand f u
  | term σ s => exact (completable_behindTerm σ s).of_next (k := .identifier) rfl
  | factor σ s =>
    have hterm : Completable (term σ s) :=
      (completable_behindTerm σ s).of_next (k := .identifier) rfl
    exact hterm.of_next (k := .plus) rfl
  | place σ s => exact (completable_behindTerm σ s).of_next (k := .identifier) rfl
  | behindTerm σ s => exact completable_behindTerm σ s
  | behindOperand g => exact completable_behindOperand g
  | ended => exact ⟨[], rfl⟩

/-! ## Viable beginnings -/

theorem Viable.of_isPrefix {ts us : List Token} (h : Viable ts) (hus : us <+: ts) : Viable us := by
  obtain ⟨vs, rfl⟩ := hus
  obtain ⟨more, d, hd⟩ := h
  exact ⟨vs ++ more, d, by rwa [List.append_assoc] at hd⟩

/-- Before the stop all tokens pass, to an outlook that the next one has no place in. -/
theorem exists_of_stop {q : Outlook} {ts post : List Token} {t : Token}
    (h : q.stop ts = some (t :: post)) :
    ∃ (pre : List Token) (q' : Outlook), ts = pre ++ t :: post ∧ q'.next t.kind = none ∧
      ∀ more, q.stop (pre ++ more) = q'.stop more := by
  induction ts generalizing q with
  | nil =>
    rw [Outlook.stop] at h
    split at h <;> cases h
  | cons v ts ih =>
    cases hq : q.next v.kind with
    | none =>
      rw [stop_cons_of_none hq] at h
      cases h
      exact ⟨[], q, rfl, hq, fun more => rfl⟩
    | some q₁ =>
      rw [stop_cons hq] at h
      obtain ⟨pre, q', rfl, hq', hpre⟩ := ih h
      refine ⟨v :: pre, q', rfl, hq', fun more => ?_⟩
      rw [List.cons_append, stop_cons hq, hpre]

/-- **Exactly the beginnings before the stop are viable.** -/
theorem viable_iff_of_stop {ts post : List Token} {t : Token}
    (h : (operand 0 0).stop ts = some (t :: post)) :
    ∃ pre : List Token, ts = pre ++ t :: post ∧ ∀ us, us <+: ts → (Viable us ↔ us <+: pre) := by
  obtain ⟨pre, q, rfl, hq, hpre⟩ := exists_of_stop h
  have hviable : Viable pre := by
    obtain ⟨more, hmore⟩ := completable q
    exact ⟨more, stop_eq_none_iff.mp ((hpre more).trans hmore)⟩
  have hdead : ¬ Viable (pre ++ [t]) := by
    rintro ⟨more, d, hd⟩
    have hnone := hd.stop
    rw [List.append_assoc, hpre, List.singleton_append, stop_cons_of_none hq] at hnone
    cases hnone
  refine ⟨pre, rfl, fun us hus => ⟨fun h => ?_, hviable.of_isPrefix⟩⟩
  by_contra hlong
  have hpre : pre ++ [t] <+: pre ++ t :: post := ⟨post, by simp⟩
  refine hdead (h.of_isPrefix (List.prefix_of_prefix_length_le hpre hus ?_))
  by_contra hlen
  refine hlong (List.prefix_of_prefix_length_le hus (List.prefix_append pre _) ?_)
  rw [List.length_append, List.length_singleton] at hlen
  omega

end PetriReach.Grammar
