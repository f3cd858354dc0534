import PetriReach.Proofs.Formula.Grammar

/-!
# Unambiguity

A list of tokens has at most one derivation. What stands behind an opening parenthesis tells whether
it opens a sum or a formula.

* `SumTree.closesSum`, `FormulaTree.closesSum`: the look-ahead is right in either case.
* `SumTree.unique`, `FormulaTree.unique`: two derivations that spell the beginning of one list are
  the same, up to what may follow.
-/

namespace PetriReach.Grammar

open PetriReach.Formula (leads)

/-! ## What may follow -/

/-- A sum may end here. -/
def EndsSum (ts : List Token) : Prop :=
  leads .plus ts = false ∧ leads .star ts = false

/-- A formula may end here. -/
def EndsFormula (ts : List Token) : Prop :=
  EndsSum ts ∧ ∀ c : Connective, leads c.kind ts = false

theorem leads_leaf {k : Token.Kind} (a : Leaf k) (j : Token.Kind) (ts : List Token) :
    leads j (a.val :: ts) = decide (k = j) := by
  rw [leads, a.2]

theorem endsSum_leaf {k : Token.Kind} (a : Leaf k) (ts : List Token) (hplus : k ≠ .plus)
    (hstar : k ≠ .star) : EndsSum (a.val :: ts) := by
  simp [EndsSum, leads_leaf, hplus, hstar]

theorem endsSum_rparen (r : Leaf .rparen) (ts : List Token) : EndsSum (r.val :: ts) :=
  endsSum_leaf r ts (by decide) (by decide)

theorem endsSum_rel {op : Comparison} (a : Leaf op.kind) (ts : List Token) :
    EndsSum (a.val :: ts) :=
  endsSum_leaf a ts (by cases op <;> decide) (by cases op <;> decide)

theorem endsSum_connective {c : Connective} (a : Leaf c.kind) (ts : List Token) :
    EndsSum (a.val :: ts) :=
  endsSum_leaf a ts (by cases c <;> decide) (by cases c <;> decide)

theorem endsFormula_leaf {k : Token.Kind} (a : Leaf k) (ts : List Token)
    (hk : k = .rparen ∨ k = .eof) : EndsFormula (a.val :: ts) := by
  refine ⟨endsSum_leaf a ts ?_ ?_, fun c => ?_⟩
  · rcases hk with rfl | rfl <;> decide
  · rcases hk with rfl | rfl <;> decide
  · rw [leads_leaf]
    rcases hk with rfl | rfl <;> cases c <;> rfl

/-! ## First tokens -/

/-- The first token of a sum. -/
theorem SumTree.tokens_eq_cons (s : SumTree) : ∃ t ts, s.tokens = t :: ts ∧
    (t.kind = .integer ∨ t.kind = .identifier ∨ t.kind = .lparen) := by
  have hterm : ∀ u : TermTree, ∃ t ts, u.tokens = t :: ts ∧
      (t.kind = .integer ∨ t.kind = .identifier ∨ t.kind = .lparen) := by
    intro u
    cases u with
    | literal n => exact ⟨n.val, [], rfl, .inl n.2⟩
    | multiple n star p => exact ⟨n.val, _, rfl, .inl n.2⟩
    | place p => exact ⟨p.val, [], rfl, .inr (.inl p.2)⟩
    | group l s r => exact ⟨l.val, _, rfl, .inr (.inr l.2)⟩
  cases s with
  | last u => exact hterm u
  | plus u p s =>
    obtain ⟨t, ts, hu, ht⟩ := hterm u
    exact ⟨t, _, by rw [SumTree.tokens, hu]; rfl, ht⟩

/-! ## The look-ahead -/

mutual

/-- A sum inside parentheses is passed over. -/
theorem SumTree.closesSum : ∀ (s : SumTree) (depth : Nat) (rest : List Token),
    Formula.closesSum (depth + 1) (s.tokens ++ rest) = Formula.closesSum (depth + 1) rest
  | .last t, depth, rest => t.closesSum depth rest
  | .plus t p s, depth, rest => by
    rw [SumTree.tokens, List.append_assoc, t.closesSum, List.cons_append, Formula.closesSum, p.2]
    exact s.closesSum depth rest

theorem TermTree.closesSum : ∀ (t : TermTree) (depth : Nat) (rest : List Token),
    Formula.closesSum (depth + 1) (t.tokens ++ rest) = Formula.closesSum (depth + 1) rest
  | .literal n, depth, rest => by
    rw [TermTree.tokens, List.singleton_append, Formula.closesSum, n.2]
  | .multiple n star p, depth, rest => by
    simp only [TermTree.tokens, List.cons_append, List.nil_append, Formula.closesSum, n.2, star.2,
      p.2]
  | .place p, depth, rest => by
    rw [TermTree.tokens, List.singleton_append, Formula.closesSum, p.2]
  | .group l s r, depth, rest => by
    rw [TermTree.tokens, List.cons_append, List.append_assoc, Formula.closesSum, l.2]
    show Formula.closesSum (depth + 1 + 1) _ = _
    rw [s.closesSum, List.singleton_append, Formula.closesSum, r.2]
    simp

end

/-- Behind the parenthesis at the head of a sum the look-ahead finds its partner. -/
theorem SumTree.closesSum_tail {s : SumTree} {t : Token} {ts : List Token}
    (h : s.tokens = t :: ts) (ht : t.kind = .lparen) (rest : List Token) :
    Formula.closesSum 1 (ts ++ rest) = true := by
  have hterm : ∀ {u : TermTree} {us more : List Token}, u.tokens ++ more = t :: us →
      Formula.closesSum 1 (us ++ rest) = true := by
    intro u us more hu
    cases u with
    | literal n =>
      rw [← (List.cons.inj hu).1, n.2] at ht
      cases ht
    | multiple n star p =>
      rw [← (List.cons.inj hu).1, n.2] at ht
      cases ht
    | place p =>
      rw [← (List.cons.inj hu).1, p.2] at ht
      cases ht
    | group l s r =>
      rw [← (List.cons.inj hu).2]
      show Formula.closesSum 1 (((s.tokens ++ [r.val]) ++ more) ++ rest) = true
      rw [List.append_assoc, List.append_assoc, s.closesSum 0, List.singleton_append,
        Formula.closesSum, r.2]
      simp
  cases s with
  | last u => exact hterm (by rw [List.append_nil]; exact h)
  | plus u p s => exact hterm h

mutual

/-- Inside a formula the look-ahead meets a token that no sum holds. -/
theorem FormulaTree.closesSum : ∀ (f : FormulaTree) (depth : Nat) (rest : List Token),
    Formula.closesSum (depth + 1) (f.tokens ++ rest) = false
  | .last u, depth, rest => u.closesSum depth rest
  | .link u c o f, depth, rest => by
    rw [FormulaTree.tokens, List.append_assoc]
    exact u.closesSum depth _

theorem UnaryTree.closesSum : ∀ (u : UnaryTree) (depth : Nat) (rest : List Token),
    Formula.closesSum (depth + 1) (u.tokens ++ rest) = false
  | .not m u, depth, rest => by
    rw [UnaryTree.tokens, List.cons_append, Formula.closesSum, m.2]
  | .primary p, depth, rest => p.closesSum depth rest

theorem PrimaryTree.closesSum : ∀ (p : PrimaryTree) (depth : Nat) (rest : List Token),
    Formula.closesSum (depth + 1) (p.tokens ++ rest) = false
  | .tt t, depth, rest => by
    rw [PrimaryTree.tokens, List.singleton_append, Formula.closesSum, t.2]
  | .ff t, depth, rest => by
    rw [PrimaryTree.tokens, List.singleton_append, Formula.closesSum, t.2]
  | .group l f r, depth, rest => by
    rw [PrimaryTree.tokens, List.cons_append, List.append_assoc, Formula.closesSum, l.2]
    exact f.closesSum (depth + 1) _
  | .atom a, depth, rest => by
    rw [PrimaryTree.tokens, AtomTree.tokens, List.append_assoc, a.lhs.closesSum,
      List.cons_append, Formula.closesSum, a.rel.2]
    cases a.op <;> rfl

end

/-! ## Uniqueness -/

theorem ne_of_kind {j k : Token.Kind} {a : Leaf j} {b : Leaf k} {ts us : List Token} (h : j ≠ k) :
    a.val :: ts ≠ b.val :: us :=
  fun heq => h (kind_eq_of_val_eq (List.cons.inj heq).1)

theorem leaf_cons_inj {k : Token.Kind} {a b : Leaf k} {ts us : List Token}
    (h : a.val :: ts = b.val :: us) : a = b ∧ ts = us :=
  ⟨Subtype.ext (List.cons.inj h).1, (List.cons.inj h).2⟩

mutual

/-- Two sums at the beginning of one list are the same. -/
theorem SumTree.unique : ∀ (s s' : SumTree) {ts ts' : List Token},
    s.tokens ++ ts = s'.tokens ++ ts' → EndsSum ts → EndsSum ts' → s = s' ∧ ts = ts'
  | .last t, .last t', ts, ts', h, hts, hts' => by
    obtain ⟨rfl, rfl⟩ := t.unique t' h hts.2 hts'.2
    exact ⟨rfl, rfl⟩
  | .last t, .plus t' p' s', ts, ts', h, hts, hts' => by
    rw [SumTree.tokens, SumTree.tokens, List.append_assoc] at h
    obtain ⟨-, rfl⟩ := t.unique t' h hts.2 (by simp [leads_leaf])
    exact absurd hts.1 (by simp [leads_leaf])
  | .plus t p s, .last t', ts, ts', h, hts, hts' => by
    rw [SumTree.tokens, SumTree.tokens, List.append_assoc] at h
    obtain ⟨-, rfl⟩ := t.unique t' h (by simp [leads_leaf]) hts'.2
    exact absurd hts'.1 (by simp [leads_leaf])
  | .plus t p s, .plus t' p' s', ts, ts', h, hts, hts' => by
    rw [SumTree.tokens, SumTree.tokens, List.append_assoc, List.append_assoc] at h
    obtain ⟨rfl, htail⟩ := t.unique t' h (by simp [leads_leaf]) (by simp [leads_leaf])
    obtain ⟨rfl, hrest⟩ := leaf_cons_inj htail
    obtain ⟨rfl, rfl⟩ := s.unique s' hrest hts hts'
    exact ⟨rfl, rfl⟩

theorem TermTree.unique : ∀ (t t' : TermTree) {ts ts' : List Token},
    t.tokens ++ ts = t'.tokens ++ ts' → leads .star ts = false → leads .star ts' = false →
      t = t' ∧ ts = ts'
  | .literal n, .literal n', ts, ts', h, _, _ => by
    obtain ⟨rfl, rfl⟩ := leaf_cons_inj h
    exact ⟨rfl, rfl⟩
  | .literal n, .multiple n' star' p', ts, ts', h, hts, _ => by
    obtain rfl := (leaf_cons_inj h).2
    exact absurd hts (by simp [leads_leaf])
  | .multiple n star p, .literal n', ts, ts', h, _, hts' => by
    obtain rfl := (leaf_cons_inj h).2
    exact absurd hts' (by simp [leads_leaf])
  | .multiple n star p, .multiple n' star' p', ts, ts', h, _, _ => by
    obtain ⟨rfl, hstar⟩ := leaf_cons_inj h
    obtain ⟨rfl, hplace⟩ := leaf_cons_inj hstar
    obtain ⟨rfl, rfl⟩ := leaf_cons_inj hplace
    exact ⟨rfl, rfl⟩
  | .place p, .place p', ts, ts', h, _, _ => by
    obtain ⟨rfl, rfl⟩ := leaf_cons_inj h
    exact ⟨rfl, rfl⟩
  | .group l s r, .group l' s' r', ts, ts', h, _, _ => by
    simp only [TermTree.tokens, List.cons_append, List.append_assoc, List.nil_append] at h
    obtain ⟨rfl, hinner⟩ := leaf_cons_inj h
    obtain ⟨rfl, hclose⟩ := s.unique s' hinner (endsSum_rparen r _) (endsSum_rparen r' _)
    obtain ⟨rfl, rfl⟩ := leaf_cons_inj hclose
    exact ⟨rfl, rfl⟩
  | .literal _, .place _, _, _, h, _, _ => absurd h (ne_of_kind (by decide))
  | .literal _, .group _ _ _, _, _, h, _, _ => absurd h (ne_of_kind (by decide))
  | .multiple _ _ _, .place _, _, _, h, _, _ => absurd h (ne_of_kind (by decide))
  | .multiple _ _ _, .group _ _ _, _, _, h, _, _ => absurd h (ne_of_kind (by decide))
  | .place _, .literal _, _, _, h, _, _ => absurd h (ne_of_kind (by decide))
  | .place _, .multiple _ _ _, _, _, h, _, _ => absurd h (ne_of_kind (by decide))
  | .place _, .group _ _ _, _, _, h, _, _ => absurd h (ne_of_kind (by decide))
  | .group _ _ _, .literal _, _, _, h, _, _ => absurd h (ne_of_kind (by decide))
  | .group _ _ _, .multiple _ _ _, _, _, h, _, _ => absurd h (ne_of_kind (by decide))
  | .group _ _ _, .place _, _, _, h, _, _ => absurd h (ne_of_kind (by decide))

end

theorem AtomTree.unique {a a' : AtomTree} {ts ts' : List Token}
    (h : a.tokens ++ ts = a'.tokens ++ ts') (hts : EndsSum ts) (hts' : EndsSum ts') :
    a = a' ∧ ts = ts' := by
  obtain ⟨l, op, rel, r⟩ := a
  obtain ⟨l', op', rel', r'⟩ := a'
  simp only [AtomTree.tokens, List.append_assoc, List.cons_append] at h
  obtain ⟨rfl, hrel⟩ := l.unique l' h (endsSum_rel rel _) (endsSum_rel rel' _)
  obtain rfl := comparison_kind_inj (kind_eq_of_val_eq (List.cons.inj hrel).1)
  obtain ⟨rfl, hrhs⟩ := leaf_cons_inj hrel
  obtain ⟨rfl, rfl⟩ := r.unique r' hrhs hts hts'
  exact ⟨rfl, rfl⟩

/-- An atom does not begin with a token of another class. -/
theorem AtomTree.ne_leaf {a : AtomTree} {k : Token.Kind} {b : Leaf k} {ts us : List Token}
    (hk : k ≠ .integer ∧ k ≠ .identifier ∧ k ≠ .lparen) : a.tokens ++ ts ≠ b.val :: us := by
  obtain ⟨t, ts', hcons, ht⟩ := a.lhs.tokens_eq_cons
  rw [AtomTree.tokens, hcons]
  intro h
  rw [(List.cons.inj h).1, b.2] at ht
  rcases ht with ht | ht | ht
  · exact hk.1 ht
  · exact hk.2.1 ht
  · exact hk.2.2 ht

/-- An atom does not begin with a formula in parentheses. -/
theorem AtomTree.ne_group {a : AtomTree} {l : Leaf .lparen} {f : FormulaTree}
    {ts us : List Token} : a.tokens ++ ts ≠ l.val :: (f.tokens ++ us) := by
  obtain ⟨t, ts', hcons, -⟩ := a.lhs.tokens_eq_cons
  rw [AtomTree.tokens, hcons, List.append_assoc, List.cons_append]
  intro h
  obtain ⟨rfl, htail⟩ := List.cons.inj h
  -- the look-ahead behind the parenthesis would give both answers
  have hsum := SumTree.closesSum_tail hcons l.2 (a.rel.val :: a.rhs.tokens ++ ts)
  have hformula := f.closesSum 0 us
  rw [← htail, hsum] at hformula
  cases hformula

/-- A primary does not begin with a minus. -/
theorem PrimaryTree.ne_minus {p : PrimaryTree} {m : Leaf .minus} {ts us : List Token} :
    p.tokens ++ ts ≠ m.val :: us := by
  cases p with
  | tt t => exact ne_of_kind (by decide)
  | ff t => exact ne_of_kind (by decide)
  | group l f r => exact ne_of_kind (by decide)
  | atom a => exact AtomTree.ne_leaf (by decide)

mutual

/-- Two formulas at the beginning of one list are the same. -/
theorem FormulaTree.unique : ∀ (f f' : FormulaTree) {ts ts' : List Token},
    f.tokens ++ ts = f'.tokens ++ ts' → EndsFormula ts → EndsFormula ts' → f = f' ∧ ts = ts'
  | .last u, .last u', ts, ts', h, hts, hts' => by
    obtain ⟨rfl, rfl⟩ := u.unique u' h hts.1 hts'.1
    exact ⟨rfl, rfl⟩
  | .last u, .link u' c' o' f', ts, ts', h, hts, hts' => by
    rw [FormulaTree.tokens, FormulaTree.tokens, List.append_assoc] at h
    obtain ⟨-, rfl⟩ := u.unique u' h hts.1 (endsSum_connective o' _)
    exact absurd (hts.2 c') (by simp [leads_leaf])
  | .link u c o f, .last u', ts, ts', h, hts, hts' => by
    rw [FormulaTree.tokens, FormulaTree.tokens, List.append_assoc] at h
    obtain ⟨-, rfl⟩ := u.unique u' h (endsSum_connective o _) hts'.1
    exact absurd (hts'.2 c) (by simp [leads_leaf])
  | .link u c o f, .link u' c' o' f', ts, ts', h, hts, hts' => by
    rw [FormulaTree.tokens, FormulaTree.tokens, List.append_assoc, List.append_assoc] at h
    obtain ⟨rfl, hlink⟩ := u.unique u' h (endsSum_connective o _) (endsSum_connective o' _)
    obtain rfl := connective_kind_inj (kind_eq_of_val_eq (List.cons.inj hlink).1)
    obtain ⟨rfl, hrest⟩ := leaf_cons_inj hlink
    obtain ⟨rfl, rfl⟩ := f.unique f' hrest hts hts'
    exact ⟨rfl, rfl⟩

theorem UnaryTree.unique : ∀ (u u' : UnaryTree) {ts ts' : List Token},
    u.tokens ++ ts = u'.tokens ++ ts' → EndsSum ts → EndsSum ts' → u = u' ∧ ts = ts'
  | .not m u, .not m' u', ts, ts', h, hts, hts' => by
    obtain ⟨rfl, hrest⟩ := leaf_cons_inj h
    obtain ⟨rfl, rfl⟩ := u.unique u' hrest hts hts'
    exact ⟨rfl, rfl⟩
  | .not _ _, .primary _, _, _, h, _, _ => absurd h.symm PrimaryTree.ne_minus
  | .primary _, .not _ _, _, _, h, _, _ => absurd h PrimaryTree.ne_minus
  | .primary p, .primary p', ts, ts', h, hts, hts' => by
    obtain ⟨rfl, rfl⟩ := p.unique p' h hts hts'
    exact ⟨rfl, rfl⟩

theorem PrimaryTree.unique : ∀ (p p' : PrimaryTree) {ts ts' : List Token},
    p.tokens ++ ts = p'.tokens ++ ts' → EndsSum ts → EndsSum ts' → p = p' ∧ ts = ts'
  | .tt t, .tt t', ts, ts', h, _, _ => by
    obtain ⟨rfl, rfl⟩ := leaf_cons_inj h
    exact ⟨rfl, rfl⟩
  | .ff t, .ff t', ts, ts', h, _, _ => by
    obtain ⟨rfl, rfl⟩ := leaf_cons_inj h
    exact ⟨rfl, rfl⟩
  | .group l f r, .group l' f' r', ts, ts', h, _, _ => by
    simp only [PrimaryTree.tokens, List.cons_append, List.append_assoc, List.nil_append] at h
    obtain ⟨rfl, hinner⟩ := leaf_cons_inj h
    obtain ⟨rfl, hclose⟩ :=
      f.unique f' hinner (endsFormula_leaf r _ (.inl rfl)) (endsFormula_leaf r' _ (.inl rfl))
    obtain ⟨rfl, rfl⟩ := leaf_cons_inj hclose
    exact ⟨rfl, rfl⟩
  | .atom a, .atom a', ts, ts', h, hts, hts' => by
    obtain ⟨rfl, rfl⟩ := AtomTree.unique h hts hts'
    exact ⟨rfl, rfl⟩
  | .group l f r, .atom a, ts, ts', h, _, _ => by
    rw [PrimaryTree.tokens, List.cons_append, List.append_assoc] at h
    exact absurd h.symm AtomTree.ne_group
  | .atom a, .group l f r, ts, ts', h, _, _ => by
    simp only [PrimaryTree.tokens, List.cons_append, List.append_assoc] at h
    exact absurd h AtomTree.ne_group
  | .tt _, .ff _, _, _, h, _, _ => absurd h (ne_of_kind (by decide))
  | .tt _, .group _ _ _, _, _, h, _, _ => absurd h (ne_of_kind (by decide))
  | .tt _, .atom _, _, _, h, _, _ => absurd h.symm (AtomTree.ne_leaf (by decide))
  | .ff _, .tt _, _, _, h, _, _ => absurd h (ne_of_kind (by decide))
  | .ff _, .group _ _ _, _, _, h, _, _ => absurd h (ne_of_kind (by decide))
  | .ff _, .atom _, _, _, h, _, _ => absurd h.symm (AtomTree.ne_leaf (by decide))
  | .group _ _ _, .tt _, _, _, h, _, _ => absurd h (ne_of_kind (by decide))
  | .group _ _ _, .ff _, _, _, h, _, _ => absurd h (ne_of_kind (by decide))
  | .atom _, .tt _, _, _, h, _, _ => absurd h (AtomTree.ne_leaf (by decide))
  | .atom _, .ff _, _, _, h, _, _ => absurd h (AtomTree.ne_leaf (by decide))

end

/-- **A list of tokens has at most one derivation.** -/
theorem FormulaTree.Spells.unique {d d' : FormulaTree} {ts : List Token} (h : d.Spells ts)
    (h' : d'.Spells ts) : d = d' := by
  obtain ⟨e, rfl⟩ := h
  obtain ⟨e', heq⟩ := h'
  exact (d.unique d' heq (endsFormula_leaf e _ (.inr rfl)) (endsFormula_leaf e' _ (.inr rfl))).1

end PetriReach.Grammar
