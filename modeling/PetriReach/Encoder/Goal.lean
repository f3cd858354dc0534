import PetriReach.Encoder.Basic

/-!
# Goals

The goal as a term over the variables of a step. In the boolean encoding a sum of places says that
one of them is marked, and a constant is a truth value.
-/

namespace PetriReach

open Smt (Command Script Term Fold)

/-- The operator of a comparison. -/
def Comparison.op : Comparison → Smt.Op
  | eq => .eq
  | le => .le
  | ge => .ge
  | lt => .lt
  | gt => .gt
  | ne => .distinct

/-- The fold of a connective. -/
def Connective.fold : Connective → Fold
  | and => .and
  | or => .or

namespace Encoder

/-- A multiple of the tokens of a place. -/
def lowerMultiple (k : Option Int) (m : Multiple) : Except EncodingError Term := do
  let v ← var m.place k
  return if m.factor = 1 then v else .binary .mul v (.num m.factor)

/-- A sum, in tokens. -/
def lowerSumInt (k : Option Int) (s : TokenSum) : Except EncodingError Term := do
  let terms ← s.terms.mapM (lowerMultiple k)
  let constant := if s.constant = 0 ∧ s.terms ≠ [] then [] else [.num s.constant]
  return Fold.sum.term (terms ++ constant)

/-- A sum, in marks. -/
def lowerSumBool (k : Option Int) (s : TokenSum) : Except EncodingError Term :=
  if s.terms = [] then .ok (.bool (s.constant ≠ 0))
  else do return Fold.or.term (← s.terms.mapM fun m => var m.place k)

/-- A sum. -/
def lowerSum (encoding : Encoding) (k : Option Int) (s : TokenSum) : Except EncodingError Term :=
  match encoding with
  | .integer => lowerSumInt k s
  | .boolean => lowerSumBool k s

mutual

/-- A formula. -/
def lowerFormula (encoding : Encoding) (k : Option Int) : Formula → Except EncodingError Term
  | .tt => .ok (.bool true)
  | .ff => .ok (.bool false)
  | .not f => do return (← lowerFormula encoding k f).not
  | .junction c fs => do return c.fold.term (← lowerFormulas encoding k fs)
  | .atom l op r => do
    return .binary op.op (← lowerSum encoding k l) (← lowerSum encoding k r)

/-- Formulas, from left to right. -/
def lowerFormulas (encoding : Encoding) (k : Option Int) :
    List Formula → Except EncodingError (List Term)
  | [] => .ok []
  | f :: fs => do return (← lowerFormula encoding k f) :: (← lowerFormulas encoding k fs)

end

/-- The goal at a step, or its negation. -/
def goalTerm (e : Encoder) (k : Option Int) (negate : Bool) : Except EncodingError Term := do
  let t ← match e.goal with
    | none => .error .noGoal
    | some (.formula f) => lowerFormula e.encoding k f
    | some (.sum s) => lowerSum e.encoding k s
  return if negate then t.not else t

/-- The assertion that the goal holds at a step. -/
def assertGoal (e : Encoder) (k : Option Int) : Except EncodingError Script := do
  return [.assert (← e.goalTerm k false)]

/-- The assertion that the goal does not hold at a step. -/
def refuteGoal (e : Encoder) (k : Option Int) : Except EncodingError Script := do
  return [.assert (← e.goalTerm k true)]

end Encoder

end PetriReach
