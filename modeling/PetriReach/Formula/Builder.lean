import PetriReach.Formula.Parser
import PetriReach.Formula.Table

/-!
# Reading formulas into a table

The same texts, read into a node table. A node is asked for as soon as its parts are there, so the
numbers follow the order of the text: a side of a comparison has its number before the relation is
looked at, and a run of one connective is a node before the next connective is passed.
-/

namespace PetriReach.Formula

/-- Why a formula cannot be stored: it cannot be read, or a node cannot be made. -/
inductive StoreError where
  | unread (e : SyntaxError)
  | refused (e : Table.Error)
  deriving DecidableEq, Repr

/-- Takes a value off the front of a token list, and works on a table meanwhile. -/
abbrev Builder (α : Type) := StateT (List Token) (StateT Table (Except StoreError)) α

/-- Reads without a look at the table. -/
def take {α : Type} (read : Reader α) : Builder α := fun ts t =>
  match read ts with
  | .error e => .error (.unread e)
  | .ok r => .ok (r, t)

/-- Asks for a node. -/
def ask (m : Table.Make) : Builder Nat := fun ts t =>
  match t.serve m with
  | (.error e, _) => .error (.refused e)
  | (.ok id, t) => .ok ((id, ts), t)

/-- A whole sum. -/
def buildSum : Builder Nat := do
  let s ← take readSum
  ask (.count s.terms s.constant)

/-- A comparison of two sums. -/
def buildAtom : Builder Nat := do
  let lhs ← buildSum
  let op ← take readRelation
  let rhs ← buildSum
  ask (.atom lhs op rhs)

/-- Ends a run: the operand `a`, or the junction of it and the operands behind it. -/
def endRun (a : Nat) : Option (Connective × List Nat) → Builder Nat
  | none => return a
  | some (c, ids) => ask (.junction c (a :: ids))

/-- The run that the connective `c` belongs to: the one so far, or one that begins with what the run
so far comes to. -/
def runOf (c : Connective) (a : Nat) : Option (Connective × List Nat) → Builder (Nat × List Nat)
  | none => return (a, [])
  | some (d, ids) =>
    if c = d then return (a, ids)
    else do
      let a ← ask (.junction d (a :: ids))
      return (a, [])

/-- The connective at the front of a token list. -/
def connectiveAhead? : List Token → Option Connective
  | [] => none
  | t :: _ => connective? t.kind

/-- Reads on behind an operand; `a` and `run` are the run so far. Each connective takes a token, so
the number of tokens is enough for `n`. -/
def buildLinks (operand : Builder Nat) :
    Nat → Nat → Option (Connective × List Nat) → Builder Nat
  | 0, a, run => endRun a run
  | n + 1, a, run => do
    match connectiveAhead? (← get) with
    | none => endRun a run
    | some c =>
      let (a, ids) ← runOf c a run
      modify List.tail
      let b ← operand
      buildLinks operand n a (some (c, ids ++ [b]))

/-- A formula whose operands are read by `operand`. -/
def buildChain (operand : Builder Nat) : Builder Nat := do
  let a ← operand
  let ts ← get
  buildLinks operand ts.length a none

/-- The parenthesis that closes a formula. -/
def closing : Reader Unit := fun ts =>
  if leads .rparen ts then .ok ((), ts.tail) else missing .unclosedGroup ts

/-- No operand begins here. -/
def noOperand {α : Type} : Reader α := fun ts =>
  errorAt ts .unexpectedEnd fun t => .unexpectedToken t.text

/-- An operand, with at most `n` nested negations and parentheses. -/
def buildOperand : Nat → Builder Nat
  | 0 => take noOperand
  | n + 1 => do
    match ← get with
    | [] => take noOperand
    | t :: rest =>
      match t.kind with
      | .minus => do
        set rest
        let a ← buildOperand n
        ask (.not a)
      | .tt => do
        set rest
        ask .tt
      | .ff => do
        set rest
        ask .ff
      | .identifier | .integer => buildAtom
      | .lparen =>
        if closesSum 1 rest then buildAtom
        else do
          set rest
          let a ← buildChain (buildOperand n)
          take closing
          return a
      | _ => take noOperand

/-- The end of a formula. -/
def ending : Reader Unit
  | [] => .ok ((), [])
  | t :: ts =>
    match t.kind with
    | .eof => .ok ((), t :: ts)
    | .rparen => .error ⟨.unbalanced, t.column⟩
    | _ => .error ⟨.trailing t.text, t.column⟩

/-- The formula that a token list holds, up to its end token. -/
def buildFormula : Builder Nat := do
  let ts ← get
  let root ← buildChain (buildOperand ts.length)
  take ending
  return root

/-- The number of the formula that a text holds, in a table of its own. -/
def store (s : String) : Except StoreError (Nat × Table) :=
  match Token.scan s with
  | .error e => .error (.unread e)
  | .ok ts => (buildFormula ts {}).map fun r => (r.1.1, r.2)

end PetriReach.Formula
