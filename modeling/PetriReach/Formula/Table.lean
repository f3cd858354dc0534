import PetriReach.Formula.Basic

/-!
# Node tables

Expressions stored as numbered nodes, each node once. Equal expressions get equal numbers; a node
refers to its parts by numbers smaller than its own. Numbers 0 and 1 are truth and falsehood. An
index beside the nodes tells which of them are there.

Requests change the table as they go: one that fails leaves it as it is at that time.
-/

namespace PetriReach

/-- An integer expression: a constant, or multiples of places plus a constant. -/
inductive SumNode where
  | literal (n : Int)
  | count (terms : List Multiple) (constant : Int)
  deriving DecidableEq, Repr

/-- An expression whose parts are numbers of other nodes. -/
inductive Node where
  | tt
  | ff
  | not (child : Nat)
  | junction (c : Connective) (children : List Nat)
  | atom (lhs : Nat) (op : Comparison) (rhs : Nat)
  | sum (s : SumNode)
  deriving DecidableEq, Repr

/-- The nodes in order of their numbers, and the numbers of the nodes. -/
structure Table where
  nodes : List Node := [.tt, .ff]
  index : List (Node × Nat) := [(.ff, 1), (.tt, 0)]
  deriving Repr

/-- Why a node cannot be made or found. -/
inductive Table.Error where
  | invalid (id : Nat)
  | noOperand (c : Connective)
  | negatesSum
  | joinsSum (c : Connective)
  | comparesFormula
  deriving DecidableEq, Repr

/-- A request for a node. -/
inductive Table.Make where
  | tt
  | ff
  | not (child : Nat)
  | junction (c : Connective) (children : List Nat)
  | atom (lhs : Nat) (op : Comparison) (rhs : Nat)
  | constant (n : Int)
  | count (terms : List Multiple) (constant : Int)
  deriving Repr

namespace SumNode

/-- The multiples in order; a constant has none. -/
def terms : SumNode → List Multiple
  | literal _ => []
  | count ms _ => ms

/-- The constant. -/
def constant : SumNode → Int
  | literal n => n
  | count _ n => n

/-- A sum without multiples is stored as a constant. -/
def ofSum (s : TokenSum) : SumNode :=
  if s.terms.isEmpty then literal s.constant else count s.terms s.constant

/-- The sum that is stored. -/
def toSum (s : SumNode) : TokenSum :=
  ⟨s.terms, s.constant⟩

end SumNode

/-- Formulas, as opposed to sums. -/
def Node.isFormula : Node → Bool
  | .sum _ => false
  | _ => true

/-- The numbers that a node refers to. -/
def Node.children : Node → List Nat
  | .not c => [c]
  | .junction _ cs => cs
  | .atom l _ r => [l, r]
  | _ => []

/-- The number that stands for no node. -/
def Table.noNode : Nat := 4294967295

/-- The name of a connective. -/
def Connective.name : Connective → String
  | and => "and"
  | or => "or"

/-- The wording of an error. -/
def Table.Error.message : Table.Error → String
  | invalid id => "FormulaFactory::node: invalid id " ++ toString id
  | noOperand c => "make_" ++ c.name ++ ": no operand"
  | negatesSum => "make_not: operand is not a boolean expression"
  | joinsSum c => "make_" ++ c.name ++ ": operand is not a boolean expression"
  | comparesFormula => "make_atom: operands must be integer expressions"

namespace Table

/-- How many nodes there are. -/
def size (t : Table) : Nat :=
  t.nodes.length

/-- The node with a number. -/
def node (t : Table) (id : Nat) : Except Error Node :=
  match t.nodes[id]? with
  | some n => .ok n
  | none => .error (.invalid id)

/-- The table with one more node. -/
def push (t : Table) (n : Node) : Table :=
  { nodes := t.nodes ++ [n], index := (n, t.size) :: t.index }

/-- The number of a node, which is added if it is new. -/
def intern (t : Table) (n : Node) : Nat × Table :=
  match t.index.lookup n with
  | some id => (id, t)
  | none => (t.size, t.push n)

/-- Work on a table. It ends in a value or in an error, and leaves a table in either case. -/
abbrev Work (α : Type) := ExceptT Error (StateM Table) α

/-- The number of a node, which is added if it is new. -/
def enter (n : Node) : Work Nat :=
  modifyGet (·.intern n)

/-- The node with a number. -/
def fetch (id : Nat) : Work Node := do
  let t ← get
  ofExcept (t.node id)

/-- Tests that all numbers are those of formulas, or of sums if `sort` is false, from left to
right. -/
def require (sort : Bool) (otherwise : Error) : List Nat → Work Unit
  | [] => pure ()
  | id :: ids => do
    let n ← fetch id
    if n.isFormula = sort then require sort otherwise ids else throw otherwise

/-- Meets a request. A junction of one operand is that operand. -/
def request : Make → Work Nat
  | .tt => enter .tt
  | .ff => enter .ff
  | .not c => do
    require true .negatesSum [c]
    enter (.not c)
  | .junction c [] => throw (.noOperand c)
  | .junction c [a] => do
    require true (.joinsSum c) [a]
    return a
  | .junction c cs => do
    require true (.joinsSum c) cs
    enter (.junction c cs)
  | .atom l op r => do
    require false .comparesFormula [l, r]
    enter (.atom l op r)
  | .constant n => enter (.sum (.literal n))
  | .count ms n => enter (.sum (.ofSum ⟨ms, n⟩))

/-- What becomes of a request, and the table after it. -/
def serve (t : Table) (m : Make) : Except Error Nat × Table :=
  (request m).run.run t

/-- The number that a request is met with, and the table after it. -/
def make (t : Table) (m : Make) : Except Error (Nat × Table) :=
  match t.serve m with
  | (.ok id, t') => .ok (id, t')
  | (.error e, _) => .error e

/-- Adds a sum. -/
def insertSum (t : Table) (s : TokenSum) : Nat × Table :=
  t.intern (.sum (.ofSum s))

mutual

/-- Adds a formula, its parts first. -/
def insert (t : Table) : Formula → Nat × Table
  | .tt => t.intern .tt
  | .ff => t.intern .ff
  | .not f =>
    let (c, t) := t.insert f
    t.intern (.not c)
  | .junction c fs =>
    let (cs, t) := t.insertAll fs
    t.intern (.junction c cs)
  | .atom l op r =>
    let (a, t) := t.insertSum l
    let (b, t) := t.insertSum r
    t.intern (.atom a op b)

/-- Adds formulas from left to right. -/
def insertAll (t : Table) : List Formula → List Nat × Table
  | [] => ([], t)
  | f :: fs =>
    let (c, t) := t.insert f
    let (cs, t) := t.insertAll fs
    (c :: cs, t)

end

/-- The formula among the known expressions with a number. -/
def formulaAt? (known : List (Option Expr)) (id : Nat) : Option Formula :=
  match known[id]? with
  | some (some (.formula f)) => some f
  | _ => none

/-- The sum among the known expressions with a number. -/
def sumAt? (known : List (Option Expr)) (id : Nat) : Option TokenSum :=
  match known[id]? with
  | some (some (.sum s)) => some s
  | _ => none

/-- The expression of a node whose parts are known. -/
def unfoldNode (known : List (Option Expr)) : Node → Option Expr
  | .tt => some (.formula .tt)
  | .ff => some (.formula .ff)
  | .not c => (formulaAt? known c).map fun f => .formula (.not f)
  | .junction c cs => (cs.mapM (formulaAt? known)).map fun fs => .formula (.junction c fs)
  | .atom l op r =>
    match sumAt? known l, sumAt? known r with
    | some a, some b => some (.formula (.atom a op b))
    | _, _ => none
  | .sum s => some (.sum s.toSum)

/-- The expressions of nodes, each made of the ones before it. -/
def unfoldAll (ns : List Node) : List (Option Expr) :=
  ns.foldl (fun known n => known ++ [unfoldNode known n]) []

/-- The expressions of all nodes. -/
def exprs (t : Table) : List (Option Expr) :=
  unfoldAll t.nodes

/-- The expression with a number. -/
def expr (t : Table) (id : Nat) : Except Error Expr :=
  match t.exprs[id]? with
  | some (some e) => .ok e
  | _ => .error (.invalid id)

end Table

end PetriReach
