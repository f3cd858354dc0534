/-!
# Formulas

A formula compares sums of token counts and combines the comparisons. Conjunctions and
disjunctions take any number of operands. The names in a formula are a finite set, kept as an
increasing list.
-/

namespace PetriReach

namespace Names

/-- Adds a name at its place in the order, once. -/
def insert (a : String) : List String → List String
  | [] => [a]
  | b :: bs => if a < b then a :: b :: bs else if a = b then b :: bs else b :: insert a bs

/-- The names of a list, increasing and without repetition. -/
def ofList (as : List String) : List String :=
  as.foldr insert []

end Names

/-- The six ways to compare two sums. -/
inductive Comparison where
  | eq | le | ge | lt | gt | ne
  deriving DecidableEq, Repr

/-- The two ways to combine formulas. -/
inductive Connective where
  | and | or
  deriving DecidableEq, Repr

/-- A multiple of the tokens in a place. -/
structure Multiple where
  place : String
  factor : Int
  deriving DecidableEq, Repr

/-- Multiples of places, in the order written, plus a constant. Without multiples it is a plain
integer. -/
structure TokenSum where
  terms : List Multiple := []
  constant : Int := 0
  deriving DecidableEq, Repr

/-- The formulas. -/
inductive Formula where
  | tt
  | ff
  | not (f : Formula)
  | junction (c : Connective) (operands : List Formula)
  | atom (lhs : TokenSum) (op : Comparison) (rhs : TokenSum)
  deriving Repr

/-- What has a value at a marking: a formula is true or false, a sum is an integer. -/
inductive Expr where
  | formula (f : Formula)
  | sum (s : TokenSum)
  deriving Repr

namespace TokenSum

/-- The names in a sum, in order. -/
def mentions (s : TokenSum) : List String :=
  s.terms.map (·.place)

/-- The sum with one more multiple. -/
def addMultiple (s : TokenSum) (place : String) (factor : Int) : TokenSum :=
  { s with terms := s.terms ++ [⟨place, factor⟩] }

/-- The sum with more in its constant. -/
def addConstant (s : TokenSum) (n : Int) : TokenSum :=
  { s with constant := s.constant + n }

end TokenSum

mutual

/-- The names in a formula, in order. -/
def Formula.mentions : Formula → List String
  | .tt => []
  | .ff => []
  | .not f => f.mentions
  | .junction _ fs => Formula.allMentions fs
  | .atom l _ r => l.mentions ++ r.mentions

/-- The names in a list of formulas, in order. -/
def Formula.allMentions : List Formula → List String
  | [] => []
  | f :: fs => f.mentions ++ Formula.allMentions fs

end

/-- The places of a formula, sorted. -/
def Formula.places (f : Formula) : List String :=
  Names.ofList f.mentions

/-- The places of an expression, sorted. -/
def Expr.places : Expr → List String
  | .formula f => f.places
  | .sum s => Names.ofList s.mentions

end PetriReach
