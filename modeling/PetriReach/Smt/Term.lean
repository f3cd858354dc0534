import PetriReach.Smt.Symbol

/-!
# Terms

Boolean and integer terms, and their text. Conjunctions, disjunctions and sums of no operand are
their neutral element, those of one operand are that operand.
-/

namespace PetriReach.Smt

/-- The operators. -/
inductive Op where
  | not | and | or
  | eq | distinct | le | lt | ge | gt
  | add | sub | mul
  deriving DecidableEq, Repr

/-- The terms. -/
inductive Term where
  | sym (s : Symbol)
  | num (n : Int)
  | bool (b : Bool)
  | app (op : Op) (args : List Term)
  deriving Repr

/-- The operators that take any number of operands. -/
inductive Fold where
  | and | or | sum
  deriving DecidableEq, Repr

namespace Op

/-- The written form. -/
def text : Op → String
  | not => "not"
  | and => "and"
  | or => "or"
  | eq => "="
  | distinct => "distinct"
  | le => "<="
  | lt => "<"
  | ge => ">="
  | gt => ">"
  | add => "+"
  | sub => "-"
  | mul => "*"

/-- The text of an application to written operands. -/
def apply (op : Op) (operands : List String) : String :=
  "(" ++ " ".intercalate (op.text :: operands) ++ ")"

end Op

namespace Term

mutual

/-- The text of a term. -/
def render : Term → String
  | .sym s => s.render
  | .num n => toString n
  | .bool b => if b then "true" else "false"
  | .app op ts => op.apply (renderAll ts)

/-- The texts of terms. -/
def renderAll : List Term → List String
  | [] => []
  | t :: ts => t.render :: renderAll ts

end

end Term

namespace Fold

/-- The operator. -/
def op : Fold → Op
  | and => .and
  | or => .or
  | sum => .add

/-- The value without operands. -/
def neutral : Fold → Term
  | and => .bool true
  | or => .bool false
  | sum => .num 0

/-- The fold of terms. -/
def term (f : Fold) : List Term → Term
  | [] => f.neutral
  | [t] => t
  | ts => .app f.op ts

/-- The fold of written terms. -/
def text (f : Fold) : List String → String
  | [] => f.neutral.render
  | [t] => t
  | ts => f.op.apply ts

end Fold

namespace Term

/-- The negation. -/
def not (t : Term) : Term := .app .not [t]

/-- The application to two operands. -/
def binary (op : Op) (a b : Term) : Term := .app op [a, b]

end Term

end PetriReach.Smt
