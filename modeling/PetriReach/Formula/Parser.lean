import PetriReach.Formula.Basic
import PetriReach.Formula.Error
import PetriReach.Token.Scan

/-!
# Reading formulas

```text
formula ::= operand ( ( '/\' | '\/' ) operand )*
operand ::= '-' operand | 'T' | 'F' | '(' formula ')' | atom
atom    ::= sum relation sum
sum     ::= term ( '+' term )*
term    ::= INTEGER | INTEGER '*' NAME | NAME | '(' sum ')'
```

The two connectives have one rank. A run of one connective is one junction; a change of connective
makes the run so far the first operand of the next. A parenthesis opens a sum if nothing but names,
integers, `+`, `*` and parentheses stands between it and its partner. A token list that lacks the
end token is read as if one stood there, at column 1. Every reader returns a value and the tokens
behind it, or an error.
-/

namespace PetriReach.Formula

/-- Takes a value off the front of a token list. -/
abbrev Reader (α : Type) := List Token → Except SyntaxError (α × List Token)

/-- The error at the next token; `ending` is its cause where the tokens are used up. -/
def errorAt {α : Type} (ts : List Token) (ending : SyntaxError.Cause)
    (other : Token → SyntaxError.Cause) : Except SyntaxError (α × List Token) :=
  match ts with
  | [] => .error ⟨ending, 1⟩
  | t :: _ => .error ⟨if t.kind = .eof then ending else other t, t.column⟩

/-- The error that something is missing at the next token. -/
def missing {α : Type} (cause : Found → SyntaxError.Cause) : Reader α :=
  fun ts => errorAt ts (cause .nothing) fun t => cause (.word t.text)

/-- Whether the next token is of class `k`. -/
def leads (k : Token.Kind) : List Token → Bool
  | [] => false
  | t :: _ => t.kind = k

/-- Adds an integer to the constant of a sum, within the limit; `t` is its token. -/
def addLiteral (s : TokenSum) (n : Nat) (t : Token) : Except SyntaxError TokenSum :=
  if s.constant ≤ (Number.limit : Int) - n then .ok (s.addConstant n)
  else .error ⟨.constantRange, t.column⟩

mutual

/-- Reads on in a sum where a term is due, inside `depth` parentheses; `s` is the sum so far. -/
def termDue (depth : Nat) (s : TokenSum) : Reader TokenSum
  | [] => .error ⟨.malformedEnd, 1⟩
  | t :: ts =>
    match t.kind with
    | .lparen => termDue (depth + 1) s ts
    | .identifier => termDone depth (s.addMultiple t.text 1) ts
    | .integer =>
      match Number.read t.text.toList with
      | none => .error ⟨.integerRange t.text, t.column⟩
      | some n =>
        if leads .star ts then starDue depth s n ts
        else
          match addLiteral s n t with
          | .error e => .error e
          | .ok s => termDone depth s ts
    | .eof => .error ⟨.malformedEnd, t.column⟩
    | _ => .error ⟨.malformedToken t.text, t.column⟩

/-- Reads on behind the factor `n`, at the star. -/
def starDue (depth : Nat) (s : TokenSum) (n : Nat) : Reader TokenSum
  | _ :: p :: ts =>
    if p.kind = .identifier then termDone depth (s.addMultiple p.text n) ts
    else missing .missingPlace (p :: ts)
  | _ => missing .missingPlace []

/-- Reads on behind a term: a plus asks for another, a parenthesis ends the innermost sum. -/
def termDone (depth : Nat) (s : TokenSum) : Reader TokenSum
  | [] => if depth = 0 then .ok (s, []) else missing .unclosedSum []
  | t :: ts =>
    if t.kind = .plus then termDue depth s ts
    else if depth = 0 then .ok (s, t :: ts)
    else if t.kind = .rparen then termDone (depth - 1) s ts
    else missing .unclosedSum (t :: ts)

end

/-- A whole sum. -/
def readSum : Reader TokenSum :=
  termDue 0 {}

/-- The comparison that a token stands for. -/
def relation? (k : Token.Kind) : Option Comparison :=
  match k with
  | .le => some .le
  | .lt => some .lt
  | .ge => some .ge
  | .gt => some .gt
  | .eq => some .eq
  | .ne => some .ne
  | _ => none

/-- The comparison at the next token. -/
def readRelation : Reader Comparison
  | [] => missing .missingRelation []
  | t :: rest =>
    match relation? t.kind with
    | some op => .ok (op, rest)
    | none => missing .missingRelation (t :: rest)

/-- A comparison of two sums. -/
def readAtom : Reader Formula := fun ts => do
  let (lhs, ts) ← readSum ts
  let (op, ts) ← readRelation ts
  let (rhs, ts) ← readSum ts
  return (.atom lhs op rhs, ts)

/-- Whether the innermost of `depth` open parentheses, and all around it, close before a token that
no sum holds. -/
def closesSum : Nat → List Token → Bool
  | _, [] => false
  | depth, t :: ts =>
    match t.kind with
    | .lparen => closesSum (depth + 1) ts
    | .rparen => depth ≤ 1 || closesSum (depth - 1) ts
    | .identifier | .integer | .plus | .star => closesSum depth ts
    | _ => false

/-- The connective that a token stands for. -/
def connective? (k : Token.Kind) : Option Connective :=
  match k with
  | .and => some .and
  | .or => some .or
  | _ => none

/-- The connectives at one level with their right operands, as read by `operand`. Each takes a
token, so the number of tokens is enough for `n`. -/
def readLinks (operand : Reader Formula) :
    Nat → Reader (List (Connective × Formula))
  | 0, ts => .ok ([], ts)
  | n + 1, ts =>
    match ts with
    | [] => .ok ([], [])
    | t :: rest =>
      match connective? t.kind with
      | none => .ok ([], ts)
      | some c => do
        let (f, rest) ← operand rest
        let (links, rest) ← readLinks operand n rest
        return ((c, f) :: links, rest)

/-- The junction of the run so far: `f`, or `f` and the operands behind it. -/
def closeRun (f : Formula) : Option (Connective × List Formula) → Formula
  | none => f
  | some (c, fs) => .junction c (f :: fs)

/-- Combines operands from left to right. A run of one connective is one junction, and a change of
connective makes it the first operand of the next run. -/
def chainFrom (f : Formula) (run : Option (Connective × List Formula)) :
    List (Connective × Formula) → Formula
  | [] => closeRun f run
  | (c, g) :: links =>
    match run with
    | none => chainFrom f (some (c, [g])) links
    | some (d, fs) =>
      if c = d then chainFrom f (some (d, fs ++ [g])) links
      else chainFrom (closeRun f run) (some (c, [g])) links

/-- Combines a first operand with those that follow it. -/
def chain (f : Formula) (links : List (Connective × Formula)) : Formula :=
  chainFrom f none links

/-- A formula whose operands are read by `operand`. -/
def readChain (operand : Reader Formula) : Reader Formula := fun ts => do
  let (f, ts) ← operand ts
  let (links, ts) ← readLinks operand ts.length ts
  return (chain f links, ts)

/-- An operand, with at most `n` nested negations and parentheses. Each of them takes a token, so
the number of tokens is enough for `n`. -/
def readOperand : Nat → Reader Formula
  | 0, ts => errorAt ts .unexpectedEnd fun t => .unexpectedToken t.text
  | n + 1, ts =>
    match ts with
    | [] => errorAt [] .unexpectedEnd fun t => .unexpectedToken t.text
    | t :: rest =>
      match t.kind with
      | .minus => do
        let (f, rest) ← readOperand n rest
        return (.not f, rest)
      | .tt => .ok (.tt, rest)
      | .ff => .ok (.ff, rest)
      | .identifier | .integer => readAtom ts
      | .lparen =>
        if closesSum 1 rest then readAtom ts
        else do
          let (f, rest) ← readChain (readOperand n) rest
          if leads .rparen rest then return (f, rest.tail)
          else missing .unclosedGroup rest
      | _ => errorAt ts .unexpectedEnd fun t => .unexpectedToken t.text

/-- A formula at the head of a token list. -/
def readFormula : Reader Formula :=
  fun ts => readChain (readOperand ts.length) ts

/-- The formula that a token list holds, up to its end token. -/
def ofTokens (ts : List Token) : Except SyntaxError Formula := do
  let (f, rest) ← readFormula ts
  match rest with
  | [] => return f
  | t :: _ =>
    match t.kind with
    | .eof => return f
    | .rparen => .error ⟨.unbalanced, t.column⟩
    | _ => .error ⟨.trailing t.text, t.column⟩

/-- The formula that a text holds. -/
def parse (s : String) : Except SyntaxError Formula := do
  ofTokens (← Token.scan s)

/-- The formula that a stored text holds; edges of the text do not count. -/
def parseStored (s : String) : Except SyntaxError Formula :=
  parse (Text.trim s)

end PetriReach.Formula
