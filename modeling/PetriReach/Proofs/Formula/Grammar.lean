import Mathlib.Data.List.SplitBy
import Mathlib.Tactic.Common
import PetriReach.Formula.Parser

/-!
# The grammar of formulas

Derivation trees of the grammar

```text
formula ::= unary ( ( '/\' | '\/' ) unary )*
unary   ::= '-' unary | primary
primary ::= 'T' | 'F' | '(' formula ')' | atom
atom    ::= sum relation sum
sum     ::= term ( '+' term )*
term    ::= INTEGER | INTEGER '*' NAME | NAME | '(' sum ')'
```

with tokens for leaves.

* `FormulaTree.Spells`: the tokens that a derivation spells.
* `FormulaTree.formula`: the formula that it denotes.
* `FormulaTree.sides`: the sides of its comparisons.
-/

namespace PetriReach

/-- The class of the token that stands for a comparison. -/
def Comparison.kind : Comparison → Token.Kind
  | eq => .eq
  | le => .le
  | ge => .ge
  | lt => .lt
  | gt => .gt
  | ne => .ne

/-- The class of the token that stands for a connective. -/
def Connective.kind : Connective → Token.Kind
  | and => .and
  | or => .or

/-- The number that the text of a token denotes. -/
def Token.value (t : Token) : Nat :=
  Nat.ofDigitChars 10 t.text.toList 0

/-- The token is a digit string. -/
def Token.Digits (t : Token) : Prop :=
  Text.isNumeral t.text.toList = true

/-- The token is a digit string for a number within the limit. -/
def Token.Readable (t : Token) : Prop :=
  t.Digits ∧ t.value ≤ Number.limit

namespace Grammar

/-! ## Derivations -/

/-- A token of one class. -/
abbrev Leaf (k : Token.Kind) := {t : Token // t.kind = k}

mutual

/-- Derivations of `sum`. -/
inductive SumTree where
  | last (t : TermTree)
  | plus (t : TermTree) (p : Leaf .plus) (s : SumTree)

/-- Derivations of `term`. -/
inductive TermTree where
  | literal (n : Leaf .integer)
  | multiple (n : Leaf .integer) (star : Leaf .star) (p : Leaf .identifier)
  | place (p : Leaf .identifier)
  | group (l : Leaf .lparen) (s : SumTree) (r : Leaf .rparen)

end

/-- Derivations of `atom`. -/
structure AtomTree where
  lhs : SumTree
  op : Comparison
  rel : Leaf op.kind
  rhs : SumTree

mutual

/-- Derivations of `formula`. -/
inductive FormulaTree where
  | last (u : UnaryTree)
  | link (u : UnaryTree) (c : Connective) (o : Leaf c.kind) (f : FormulaTree)

/-- Derivations of `unary`. -/
inductive UnaryTree where
  | not (m : Leaf .minus) (u : UnaryTree)
  | primary (p : PrimaryTree)

/-- Derivations of `primary`. -/
inductive PrimaryTree where
  | tt (t : Leaf .tt)
  | ff (t : Leaf .ff)
  | group (l : Leaf .lparen) (f : FormulaTree) (r : Leaf .rparen)
  | atom (a : AtomTree)

end

/-! ## Spelling -/

mutual

/-- The tokens of a sum. -/
def SumTree.tokens : SumTree → List Token
  | .last t => t.tokens
  | .plus t p s => t.tokens ++ p.val :: s.tokens

/-- The tokens of a term. -/
def TermTree.tokens : TermTree → List Token
  | .literal n => [n.val]
  | .multiple n star p => [n.val, star.val, p.val]
  | .place p => [p.val]
  | .group l s r => l.val :: (s.tokens ++ [r.val])

end

/-- The tokens of an atom. -/
def AtomTree.tokens (a : AtomTree) : List Token :=
  a.lhs.tokens ++ a.rel.val :: a.rhs.tokens

mutual

/-- The tokens of a formula. -/
def FormulaTree.tokens : FormulaTree → List Token
  | .last u => u.tokens
  | .link u _ o f => u.tokens ++ o.val :: f.tokens

/-- The tokens of a unary. -/
def UnaryTree.tokens : UnaryTree → List Token
  | .not m u => m.val :: u.tokens
  | .primary p => p.tokens

/-- The tokens of a primary. -/
def PrimaryTree.tokens : PrimaryTree → List Token
  | .tt t => [t.val]
  | .ff t => [t.val]
  | .group l f r => l.val :: (f.tokens ++ [r.val])
  | .atom a => a.tokens

end

/-- The tree spells the tokens, and the end token follows. -/
def FormulaTree.Spells (d : FormulaTree) (ts : List Token) : Prop :=
  ∃ e : Leaf .eof, ts = d.tokens ++ [e.val]

/-! ## Meaning -/

mutual

/-- The multiples of places in a sum, in the order of the text. -/
def SumTree.multiples : SumTree → List Multiple
  | .last t => t.multiples
  | .plus t _ s => t.multiples ++ s.multiples

/-- The multiples of places in a term, in the order of the text. -/
def TermTree.multiples : TermTree → List Multiple
  | .literal _ => []
  | .multiple n _ p => [⟨p.val.text, n.val.value⟩]
  | .place p => [⟨p.val.text, 1⟩]
  | .group _ s _ => s.multiples

end

mutual

/-- The total of the integers in a sum that multiply no place. -/
def SumTree.constant : SumTree → Nat
  | .last t => t.constant
  | .plus t _ s => t.constant + s.constant

/-- The total of the integers in a term that multiply no place. -/
def TermTree.constant : TermTree → Nat
  | .literal n => n.val.value
  | .multiple _ _ _ => 0
  | .place _ => 0
  | .group _ s _ => s.constant

end

/-- The sum that a derivation denotes. -/
def SumTree.sum (s : SumTree) : TokenSum :=
  { terms := s.multiples, constant := s.constant }

/-- The comparison that a derivation denotes. -/
def AtomTree.formula (a : AtomTree) : Formula :=
  .atom a.lhs.sum a.op a.rhs.sum

/-- One junction of a formula with the operands of a run behind it. -/
def joinRun (f : Formula) : List (Connective × Formula) → Formula
  | [] => f
  | (c, g) :: run => .junction c (f :: g :: run.map Prod.snd)

/-- Cuts the operands behind a first one into maximal runs of one connective, and joins run after
run: what is there so far is the first operand of the next junction. -/
def joinRuns (f : Formula) (links : List (Connective × Formula)) : Formula :=
  (links.splitBy fun a b => a.1 = b.1).foldl joinRun f

mutual

/-- The first operand of a formula, and those behind it with their connectives. -/
def FormulaTree.operands : FormulaTree → Formula × List (Connective × Formula)
  | .last u => (u.formula, [])
  | .link u c _ f => (u.formula, (c, f.operands.1) :: f.operands.2)

/-- The formula that a derivation of `unary` denotes. -/
def UnaryTree.formula : UnaryTree → Formula
  | .not _ u => .not u.formula
  | .primary p => p.formula

/-- The formula that a derivation of `primary` denotes. -/
def PrimaryTree.formula : PrimaryTree → Formula
  | .tt _ => .tt
  | .ff _ => .ff
  | .group _ f _ => joinRuns f.operands.1 f.operands.2
  | .atom a => a.formula

end

/-- The formula that a derivation denotes. -/
def FormulaTree.formula (f : FormulaTree) : Formula :=
  joinRuns f.operands.1 f.operands.2

mutual

/-- The sides of the comparisons in a formula. -/
def FormulaTree.sides : FormulaTree → List SumTree
  | .last u => u.sides
  | .link u _ _ f => u.sides ++ f.sides

/-- The sides of the comparisons in a unary. -/
def UnaryTree.sides : UnaryTree → List SumTree
  | .not _ u => u.sides
  | .primary p => p.sides

/-- The sides of the comparisons in a primary. -/
def PrimaryTree.sides : PrimaryTree → List SumTree
  | .tt _ => []
  | .ff _ => []
  | .group _ f _ => f.sides
  | .atom a => [a.lhs, a.rhs]

end

/-! ## Leaves -/

theorem kind_eq_of_val_eq {j k : Token.Kind} {a : Leaf j} {b : Leaf k} (h : a.val = b.val) :
    j = k :=
  a.2.symm.trans ((congrArg Token.kind h).trans b.2)

theorem comparison_kind_inj {op op' : Comparison} (h : op.kind = op'.kind) : op = op' := by
  cases op <;> cases op' <;> first | rfl | cases h

theorem connective_kind_inj {c c' : Connective} (h : c.kind = c'.kind) : c = c' := by
  cases c <;> cases c' <;> first | rfl | cases h

theorem comparison_kind_ne (op : Comparison) : op.kind ≠ .integer ∧ op.kind ≠ .eof := by
  cases op <;> decide

theorem connective_kind_ne (c : Connective) : c.kind ≠ .integer ∧ c.kind ≠ .eof := by
  cases c <;> decide

/-- The tokens of class `k` have the property `Q`. -/
def Each (k : Token.Kind) (Q : Token → Prop) (ts : List Token) : Prop :=
  ∀ t ∈ ts, t.kind = k → Q t

section Each

variable {j k : Token.Kind} {Q : Token → Prop} {t : Token} {ts us : List Token}

@[simp] theorem each_nil : Each k Q [] := by
  simp [Each]

theorem each_cons : Each k Q (t :: ts) ↔ (t.kind = k → Q t) ∧ Each k Q ts :=
  List.forall_mem_cons

theorem each_append : Each k Q (ts ++ us) ↔ Each k Q ts ∧ Each k Q us :=
  List.forall_mem_append

/-- A token of another class makes no difference. -/
theorem each_leaf {a : Leaf j} (hjk : j ≠ k) : Each k Q (a.val :: ts) ↔ Each k Q ts := by
  rw [each_cons, a.2]
  exact and_iff_right fun h => absurd h hjk

end Each

mutual

theorem SumTree.endless : ∀ s : SumTree, Each .eof (fun _ => False) s.tokens
  | .last t => t.endless
  | .plus t p s => by
    rw [SumTree.tokens, each_append, each_leaf (by decide)]
    exact ⟨t.endless, s.endless⟩

theorem TermTree.endless : ∀ t : TermTree, Each .eof (fun _ => False) t.tokens
  | .literal n => (each_leaf (by decide)).mpr each_nil
  | .multiple n star p => by
    rw [TermTree.tokens, each_leaf (by decide), each_leaf (by decide),
      each_leaf (by decide)]
    exact each_nil
  | .place p => (each_leaf (by decide)).mpr each_nil
  | .group l s r => by
    rw [TermTree.tokens, each_leaf (by decide), each_append, each_leaf (by decide)]
    exact ⟨s.endless, each_nil⟩

end

mutual

/-- A derivation spells no end token. -/
theorem FormulaTree.endless : ∀ f : FormulaTree, Each .eof (fun _ => False) f.tokens
  | .last u => u.endless
  | .link u c o f => by
    rw [FormulaTree.tokens, each_append, each_leaf (connective_kind_ne c).2]
    exact ⟨u.endless, f.endless⟩

theorem UnaryTree.endless : ∀ u : UnaryTree, Each .eof (fun _ => False) u.tokens
  | .not m u => by
    rw [UnaryTree.tokens, each_leaf (by decide)]
    exact u.endless
  | .primary p => p.endless

theorem PrimaryTree.endless : ∀ p : PrimaryTree, Each .eof (fun _ => False) p.tokens
  | .tt t => (each_leaf (by decide)).mpr each_nil
  | .ff t => (each_leaf (by decide)).mpr each_nil
  | .group l f r => by
    rw [PrimaryTree.tokens, each_leaf (by decide), each_append, each_leaf (by decide)]
    exact ⟨f.endless, each_nil⟩
  | .atom a => by
    rw [PrimaryTree.tokens, AtomTree.tokens, each_append,
      each_leaf (comparison_kind_ne a.op).2]
    exact ⟨a.lhs.endless, a.rhs.endless⟩

end

end Grammar

end PetriReach
