import PetriReach.Formula.Printer
import PetriReach.Formula.Table
import PetriReach.Net.Basic
import PetriReach.Smt.Command

/-!
# Encoders

A net and a goal, to be written as solver scripts. The integer encoding has a variable for the
tokens of each place; the boolean one has a variable that says whether a place is marked, and takes
only nets and goals for which that is enough.
-/

namespace PetriReach

/-- What the variables of a place say. -/
inductive Encoding where
  | integer | boolean
  deriving DecidableEq, Repr

/-- A net, a goal and an encoding. Without a goal, only what concerns the net can be written. -/
structure Encoder where
  net : Net
  goal : Option Expr
  encoding : Encoding
  deriving Repr

/-- Why something cannot be written. -/
inductive EncodingError where
  | unwritable (e : Smt.Unwritable)
  | unknownPlace (place : String)
  | overfullPlace (place : String) (tokens : Int)
  | weightedArc (transition place : String)
  | unsupportedComparison (op : Comparison)
  | unsupportedConstant (n : Int)
  | constantInSum
  | unsupportedFactor (place : String)
  | needsIntegers
  | noGoal
  deriving DecidableEq, Repr

/-- The name of an encoding. -/
def Encoding.name : Encoding → String
  | integer => "int"
  | boolean => "bool"

/-- The encoding with a given name. -/
def Encoding.ofName? : String → Option Encoding
  | "int" => some .integer
  | "bool" => some .boolean
  | _ => none

/-- The wording of an error. -/
def EncodingError.wording : EncodingError → String
  | unwritable e => e.wording
  | unknownPlace p => "formula references unknown place '" ++ p ++ "'"
  | overfullPlace p n =>
    "boolean encoding: place '" ++ p ++ "' is not safe (initial marking " ++ toString n ++ ")"
  | weightedArc t p =>
    "boolean encoding: transition '" ++ t ++ "' has a weighted arc on '" ++ p ++ "'"
  | unsupportedComparison op =>
    "boolean encoding: operator '" ++ op.text ++ "' is not supported"
  | unsupportedConstant n => "boolean encoding: constant " ++ toString n ++ " is not 0 or 1"
  | constantInSum => "boolean encoding: constants in place sums are not supported"
  | unsupportedFactor p => "boolean encoding: multiplier on '" ++ p ++ "' is not supported"
  | needsIntegers => "the state equation requires the integer encoding"
  | noGoal => (Table.Error.invalid Table.noNode).message

/-- The message of an error. -/
def EncodingError.message (e : EncodingError) : String :=
  Text.beforeNul e.wording

/-- The first error of a list of tests. -/
def firstError {α : Type} (test : α → Option EncodingError) (as : List α) :
    Except EncodingError Unit :=
  match as.findSome? test with
  | some e => .error e
  | none => .ok ()

namespace Encoder

/-- Tests that the net has every place of the goal. -/
def checkPlaces (net : Net) (goal : Option Expr) : Except EncodingError Unit :=
  firstError (fun p => if net.hasPlace p then none else some (.unknownPlace p))
    ((goal.map Expr.places).getD [])

/-- Tests that no place holds more than one token at the beginning and that no arc moves more than
one. -/
def checkNet (net : Net) : Except EncodingError Unit := do
  firstError (fun p => if p.tokens > 1 then some (.overfullPlace p.id p.tokens) else none)
    net.places
  firstError (fun t => (t.pre ++ t.post).findSome? fun a =>
    if a.2 = 1 then none else some (.weightedArc t.id a.1)) net.transitions

/-- Tests that a sum is 0, 1 or a plain sum of places. -/
def checkSum (s : TokenSum) : Except EncodingError Unit :=
  if s.terms = [] then
    if s.constant = 0 ∨ s.constant = 1 then .ok () else .error (.unsupportedConstant s.constant)
  else if s.constant ≠ 0 then .error .constantInSum
  else
    firstError (fun m => if m.factor = 1 then none else some (.unsupportedFactor m.place)) s.terms

mutual

/-- Tests that a formula only tests such sums for equality, from left to right. -/
def checkFormula : Formula → Except EncodingError Unit
  | .tt => .ok ()
  | .ff => .ok ()
  | .not f => checkFormula f
  | .junction _ fs => checkFormulas fs
  | .atom l op r =>
    if op = .eq ∨ op = .ne then do checkSum l; checkSum r
    else .error (.unsupportedComparison op)

/-- Tests formulas from left to right. -/
def checkFormulas : List Formula → Except EncodingError Unit
  | [] => .ok ()
  | f :: fs => do checkFormula f; checkFormulas fs

end

/-- Tests a goal for the boolean encoding. -/
def checkGoal : Option Expr → Except EncodingError Unit
  | none => .error .noGoal
  | some (.formula f) => checkFormula f
  | some (.sum s) => checkSum s

/-- The encoder of a goal, if the goal fits the net and both fit the encoding. -/
def make (net : Net) (goal : Option Expr) (encoding : Encoding) :
    Except EncodingError Encoder := do
  checkPlaces net goal
  if encoding = .boolean then
    checkNet net
    checkGoal goal
  return ⟨net, goal, encoding⟩

/-- The symbol of a name, at a step or without one. -/
def symbol (id : String) (k : Option Int) : Except EncodingError Smt.Symbol :=
  (Smt.Symbol.make id k).mapError .unwritable

/-- The symbol that counts the firings of a transition. -/
def firingCount (id : String) : Except EncodingError Smt.Symbol :=
  (Smt.Symbol.firingCount id).mapError .unwritable

/-- The variable of a name, as a term. -/
def var (id : String) (k : Option Int) : Except EncodingError Smt.Term :=
  (symbol id k).map .sym

end Encoder

end PetriReach
