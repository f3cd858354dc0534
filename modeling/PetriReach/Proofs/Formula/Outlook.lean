import PetriReach.Proofs.Formula.Unambiguous

/-!
# What may come next

The beginning of a sentence leaves open what follows it. Its outlook tells which tokens may come
next. A parenthesis at the head of an operand may be that of a sum or that of a formula, and the
outlook leaves this open until a token decides it.

* `Outlook.next`: the outlook behind one more token.
* `Outlook.stop`: the first token that may not stand where it does.
* `SumTree.stop`, `FormulaTree.stop`: a derivation is passed over.
-/

namespace PetriReach

open Token (Kind)

/-- The class of the next token. Behind all tokens stands the end. -/
def ahead : List Token → Kind
  | [] => .eof
  | t :: _ => t.kind

/-- A side of a comparison. The left one stands behind `u` parentheses that may turn out to be
those of sums or those of formulas, inside `f` of formulas; the right one stands inside `g` of
formulas. -/
inductive Side where
  | left (f u : Nat)
  | right (g : Nat)
  deriving DecidableEq, Repr

/-- What may follow the beginning of a sentence. Parentheses opened inside a side are counted by
`s`. -/
inductive Outlook where
  | operand (f u : Nat)
  | term (σ : Side) (s : Nat)
  | factor (σ : Side) (s : Nat)
  | place (σ : Side) (s : Nat)
  | behindTerm (σ : Side) (s : Nat)
  | behindOperand (g : Nat)
  | ended
  deriving DecidableEq, Repr

namespace Outlook

/-- What an operand inside `g` parentheses may be followed by. -/
def leave : Nat → Kind → Option Outlook
  | g, .and => some (.operand g 0)
  | g, .or => some (.operand g 0)
  | g + 1, .rparen => some (.behindOperand g)
  | 0, .eof => some .ended
  | _, _ => none

/-- What a term may be followed by. A comparison on the left decides that all open parentheses are
those of formulas. -/
def behind : Side → Nat → Kind → Option Outlook
  | σ, s, .plus => some (.term σ s)
  | σ, s + 1, .rparen => some (.behindTerm σ s)
  | .left f (u + 1), 0, .rparen => some (.behindTerm (.left f u) 0)
  | .left f u, 0, k => (Formula.relation? k).map fun _ => .term (.right (f + u)) 0
  | .right g, 0, k => leave g k
  | _, _, _ => none

/-- The outlook behind one more token, if that may stand here. -/
def next : Outlook → Kind → Option Outlook
  | .operand f u, .minus => some (.operand (f + u) 0)
  | .operand f u, .tt => some (.behindOperand (f + u))
  | .operand f u, .ff => some (.behindOperand (f + u))
  | .operand f u, .lparen => some (.operand f (u + 1))
  | .operand f u, .integer => some (.factor (.left f u) 0)
  | .operand f u, .identifier => some (.behindTerm (.left f u) 0)
  | .term σ s, .lparen => some (.term σ (s + 1))
  | .term σ s, .integer => some (.factor σ s)
  | .term σ s, .identifier => some (.behindTerm σ s)
  | .factor σ s, .star => some (.place σ s)
  | .factor σ s, k => behind σ s k
  | .place σ s, .identifier => some (.behindTerm σ s)
  | .behindTerm σ s, k => behind σ s k
  | .behindOperand g, k => leave g k
  | _, _ => none

/-- The tokens from the first one on that may not stand where it does, if the tokens do not complete
a sentence. -/
def stop : Outlook → List Token → Option (List Token)
  | q, [] => if q = .ended then none else some []
  | q, t :: ts =>
    match q.next t.kind with
    | none => some (t :: ts)
    | some q => q.stop ts

variable {q q' : Outlook} {σ : Side} {f g s u : Nat} {t : Token} {ts : List Token}

theorem stop_cons (h : q.next t.kind = some q') : q.stop (t :: ts) = q'.stop ts := by
  rw [stop, h]

theorem stop_cons_of_none (h : q.next t.kind = none) : q.stop (t :: ts) = some (t :: ts) := by
  rw [stop, h]

/-- Where no star follows, an integer is a term. -/
theorem stop_factor (h : ahead ts ≠ .star) :
    (factor σ s).stop ts = (behindTerm σ s).stop ts := by
  cases ts with
  | nil => rfl
  | cons t ts =>
    have hnext : (factor σ s).next t.kind = (behindTerm σ s).next t.kind := by
      unfold next
      split <;> simp_all [ahead]
    rw [stop, stop, hnext]

/-- Where no plus follows, the right side ends the operand. -/
theorem stop_right (h : ahead ts ≠ .plus) :
    (behindTerm (.right g) 0).stop ts = (behindOperand g).stop ts := by
  cases ts with
  | nil => rfl
  | cons t ts =>
    have hnext : (behindTerm (.right g) 0).next t.kind = (behindOperand g).next t.kind := by
      show behind (.right g) 0 t.kind = leave g t.kind
      unfold behind
      split <;> simp_all [ahead]
    rw [stop, stop, hnext]

end Outlook

namespace Grammar

open Formula (leads)
open Outlook

theorem ahead_leaf {k : Kind} (a : Leaf k) (ts : List Token) : ahead (a.val :: ts) = k :=
  a.2

/-- A leaf is passed over if its class may come next. -/
theorem stop_leaf {k : Kind} {q q' : Outlook} (h : q.next k = some q') (a : Leaf k)
    (ts : List Token) : q.stop (a.val :: ts) = q'.stop ts :=
  stop_cons (by rw [a.2, h])

theorem ahead_ne_star {ts : List Token} (h : leads .star ts = false) : ahead ts ≠ .star := by
  cases ts with
  | nil => exact (by decide)
  | cons t ts => simpa [ahead, leads] using h

theorem ahead_ne_plus {ts : List Token} (h : leads .plus ts = false) : ahead ts ≠ .plus := by
  cases ts with
  | nil => exact (by decide)
  | cons t ts => simpa [ahead, leads] using h

/-! ## Sums -/

mutual

/-- A sum is passed over where a term may stand. -/
theorem SumTree.stop : ∀ (d : SumTree) {σ : Side} {s : Nat} {rest : List Token},
    ahead rest ≠ .star → (term σ s).stop (d.tokens ++ rest) = (behindTerm σ s).stop rest
  | .last t, _, _, _, hrest => t.stop hrest
  | .plus t p d, _, _, rest, hrest => by
    rw [SumTree.tokens, List.append_assoc, t.stop (by rw [List.cons_append, ahead_leaf]; decide),
      List.cons_append, stop_leaf rfl, d.stop hrest]

theorem TermTree.stop : ∀ (t : TermTree) {σ : Side} {s : Nat} {rest : List Token},
    ahead rest ≠ .star → (term σ s).stop (t.tokens ++ rest) = (behindTerm σ s).stop rest
  | .literal n, _, _, rest, hrest => by
    rw [TermTree.tokens, List.singleton_append, stop_leaf rfl, stop_factor hrest]
  | .multiple n star p, _, _, rest, _ => by
    simp only [TermTree.tokens, List.cons_append, List.nil_append]
    rw [stop_leaf rfl, stop_leaf rfl, stop_leaf rfl]
  | .place p, _, _, rest, _ => by
    rw [TermTree.tokens, List.singleton_append, stop_leaf rfl]
  | .group l d r, _, _, rest, _ => by
    simp only [TermTree.tokens, List.cons_append, List.append_assoc, List.nil_append]
    rw [stop_leaf rfl, d.stop (by rw [ahead_leaf]; decide), stop_leaf rfl]

end

mutual

/-- At the head of an operand a sum is passed over as well, and its parentheses are left open
until they close. -/
theorem SumTree.stop_first : ∀ (d : SumTree) {f u : Nat} {rest : List Token},
    ahead rest ≠ .star →
      (operand f u).stop (d.tokens ++ rest) = (behindTerm (.left f u) 0).stop rest
  | .last t, _, _, _, hrest => t.stop_first hrest
  | .plus t p d, _, _, rest, hrest => by
    rw [SumTree.tokens, List.append_assoc,
      t.stop_first (by rw [List.cons_append, ahead_leaf]; decide), List.cons_append,
      stop_leaf rfl, d.stop hrest]

theorem TermTree.stop_first : ∀ (t : TermTree) {f u : Nat} {rest : List Token},
    ahead rest ≠ .star →
      (operand f u).stop (t.tokens ++ rest) = (behindTerm (.left f u) 0).stop rest
  | .literal n, _, _, rest, hrest => by
    rw [TermTree.tokens, List.singleton_append, stop_leaf rfl, stop_factor hrest]
  | .multiple n star p, _, _, rest, _ => by
    simp only [TermTree.tokens, List.cons_append, List.nil_append]
    rw [stop_leaf rfl, stop_leaf rfl, stop_leaf rfl]
  | .place p, _, _, rest, _ => by
    rw [TermTree.tokens, List.singleton_append, stop_leaf rfl]
  | .group l d r, _, _, rest, _ => by
    simp only [TermTree.tokens, List.cons_append, List.append_assoc, List.nil_append]
    rw [stop_leaf rfl, d.stop_first (by rw [ahead_leaf]; decide), stop_leaf rfl]

end

/-! ## Formulas -/

theorem next_relation (f u : Nat) (op : Comparison) :
    (behindTerm (.left f u) 0).next op.kind = some (term (.right (f + u)) 0) := by
  cases op <;> rfl

theorem next_connective (g : Nat) (c : Connective) :
    (behindOperand g).next c.kind = some (operand g 0) := by
  cases c <;> rfl

theorem AtomTree.stop (a : AtomTree) {f u : Nat} {rest : List Token} (hrest : EndsSum rest) :
    (operand f u).stop (a.tokens ++ rest) = (behindOperand (f + u)).stop rest := by
  have hrel : ahead (a.rel.val :: (a.rhs.tokens ++ rest)) ≠ .star :=
    ahead_ne_star (endsSum_rel a.rel _).2
  rw [AtomTree.tokens, List.append_assoc, List.cons_append, a.lhs.stop_first hrel,
    stop_leaf (next_relation f u a.op), a.rhs.stop (ahead_ne_star hrest.2),
    stop_right (ahead_ne_plus hrest.1)]

mutual

/-- A formula is passed over where an operand may stand. It decides that the parentheses before it
are those of formulas. -/
theorem FormulaTree.stop : ∀ (d : FormulaTree) {f u : Nat} {rest : List Token}, EndsSum rest →
    (operand f u).stop (d.tokens ++ rest) = (behindOperand (f + u)).stop rest
  | .last v, _, _, _, hrest => v.stop hrest
  | .link v c o d, _, _, rest, hrest => by
    rw [FormulaTree.tokens, List.append_assoc, List.cons_append,
      v.stop (endsSum_connective o _), stop_leaf (next_connective _ c), d.stop hrest]
    rfl

theorem UnaryTree.stop : ∀ (v : UnaryTree) {f u : Nat} {rest : List Token}, EndsSum rest →
    (operand f u).stop (v.tokens ++ rest) = (behindOperand (f + u)).stop rest
  | .not m v, _, _, rest, hrest => by
    rw [UnaryTree.tokens, List.cons_append, stop_leaf rfl, v.stop hrest]
    rfl
  | .primary p, _, _, _, hrest => p.stop hrest

theorem PrimaryTree.stop : ∀ (p : PrimaryTree) {f u : Nat} {rest : List Token}, EndsSum rest →
    (operand f u).stop (p.tokens ++ rest) = (behindOperand (f + u)).stop rest
  | .tt t, _, _, rest, _ => by
    rw [PrimaryTree.tokens, List.singleton_append, stop_leaf rfl]
  | .ff t, _, _, rest, _ => by
    rw [PrimaryTree.tokens, List.singleton_append, stop_leaf rfl]
  | .group l d r, f, u, rest, _ => by
    simp only [PrimaryTree.tokens, List.cons_append, List.append_assoc, List.nil_append]
    rw [stop_leaf rfl, d.stop (endsSum_rparen r rest)]
    exact stop_leaf rfl r rest
  | .atom a, _, _, _, hrest => a.stop hrest

end

/-- **In a sentence every token may stand where it does.** -/
theorem FormulaTree.Spells.stop {d : FormulaTree} {ts : List Token} (h : d.Spells ts) :
    (operand 0 0).stop ts = none := by
  obtain ⟨e, rfl⟩ := h
  rw [d.stop (endsFormula_leaf e [] (.inr rfl)).1, stop_leaf rfl]
  rfl

end Grammar

end PetriReach
