import PetriReach.Formula.Basic
import PetriReach.Token.Scan

/-!
# Printing formulas

Connectives are always in parentheses; a name that would not be read back as one word is written
in braces; a factor 1 and a constant 0 beside a place are left out.
-/

namespace PetriReach

/-- The operator of a comparison. -/
def Comparison.text : Comparison → String
  | eq => "="
  | le => "<="
  | ge => ">="
  | lt => "<"
  | gt => ">"
  | ne => "!="

/-- All comparisons. -/
def Comparison.all : List Comparison :=
  [eq, le, ge, lt, gt, ne]

/-- The comparison with a given operator. -/
def Comparison.ofText? (s : String) : Option Comparison :=
  all.find? (·.text = s)

/-- The operator of a connective. -/
def Connective.text : Connective → String
  | and => "/\\"
  | or => "\\/"

/-- A place name as it stands in a formula. -/
def placeText (name : String) : String :=
  if Token.isPlain name then name else "\x7b" ++ name ++ "\x7d"

/-- One multiple. -/
def Multiple.render (m : Multiple) : String :=
  if m.factor = 1 then placeText m.place else toString m.factor ++ "*" ++ placeText m.place

/-- The summands of a sum. -/
def TokenSum.summands (s : TokenSum) : List String :=
  s.terms.map Multiple.render
    ++ if s.terms = [] ∨ s.constant ≠ 0 then [toString s.constant] else []

/-- The text of a sum. -/
def TokenSum.render (s : TokenSum) : String :=
  " + ".intercalate s.summands

/-- Whether a formula is printed in parentheses of its own. -/
def Formula.isJunction : Formula → Bool
  | .junction _ _ => true
  | _ => false

mutual

/-- The text of a formula. -/
def Formula.render : Formula → String
  | .tt => "T"
  | .ff => "F"
  | .not f => if f.isJunction then "-" ++ f.render else "-(" ++ f.render ++ ")"
  | .junction c fs => "(" ++ (" " ++ c.text ++ " ").intercalate (Formula.renderAll fs) ++ ")"
  | .atom l op r => l.render ++ " " ++ op.text ++ " " ++ r.render

/-- The texts of a list of formulas. -/
def Formula.renderAll : List Formula → List String
  | [] => []
  | f :: fs => f.render :: Formula.renderAll fs

end

/-- The text of an expression. -/
def Expr.render : Expr → String
  | .formula f => f.render
  | .sum s => s.render

end PetriReach
