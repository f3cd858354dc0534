import PetriReach.Text
import PetriReach.Token

/-!
# Errors in formulas

What can be wrong with the text of a formula, at which column, and how it is said.
-/

namespace PetriReach

/-- What stands where something else was due. -/
inductive Found where
  | nothing
  | word (text : String)
  deriving DecidableEq, Repr

/-- The causes of a syntax error. -/
inductive SyntaxError.Cause where
  | unterminatedLabel
  | emptyLabel
  | unexpectedCharacter (c : Char)
  | unbalanced
  | trailing (text : String)
  | unexpectedEnd
  | unexpectedToken (text : String)
  | unclosedGroup (found : Found)
  | unclosedSum (found : Found)
  | missingPlace (found : Found)
  | missingRelation (found : Found)
  | malformedEnd
  | malformedToken (text : String)
  | integerRange (text : String)
  | constantRange
  deriving DecidableEq, Repr

/-- A cause with the column it is reported at. -/
structure SyntaxError where
  cause : SyntaxError.Cause
  column : Nat
  deriving DecidableEq, Repr

namespace Found

/-- The wording of what was found. -/
def describe : Found → String
  | nothing => "end of input"
  | word text => "'" ++ text ++ "'"

end Found

namespace SyntaxError

/-- The wording of a missing token of class `k`. -/
def expected (k : Token.Kind) (context : String) (found : Found) : String :=
  "expected '" ++ k.name ++ "' " ++ context ++ ", got " ++ found.describe

/-- The wording of a cause. -/
def Cause.describe : Cause → String
  | unterminatedLabel => "unterminated '\x7b'"
  | emptyLabel => "empty label '\x7b\x7d'"
  | unexpectedCharacter c => "unexpected character '" ++ String.singleton c ++ "'"
  | unbalanced => "unbalanced parentheses"
  | trailing text => "unexpected token '" ++ text ++ "' after formula"
  | unexpectedEnd => "unexpected end of input"
  | unexpectedToken text => "unexpected token '" ++ text ++ "'"
  | unclosedGroup found =>
    expected .rparen "to close parenthesis (unbalanced parentheses)" found
  | unclosedSum found => expected .rparen "to close sum" found
  | missingPlace found => expected .identifier "after '*'" found
  | missingRelation found =>
    "malformed atom: expected relational operator, got " ++ found.describe
  | malformedEnd => "malformed atom: unexpected end of input"
  | malformedToken text => "malformed atom: unexpected token '" ++ text ++ "'"
  | integerRange text => "integer '" ++ text ++ "' out of range"
  | constantRange => "integer constant out of range"

/-- The whole message. -/
def message (e : SyntaxError) : String :=
  Text.beforeNul ("ERROR: " ++ e.cause.describe ++ " at column " ++ toString e.column)

end SyntaxError

end PetriReach
