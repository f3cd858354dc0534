import PetriReach.Text

/-!
# Quantities

Token counts and weights in the text of a net: digits, with an optional suffix for a power of a
thousand.
-/

namespace PetriReach.Quantity

/-- Why a text is no quantity. -/
inductive Error where
  | malformed (text : String)
  | outOfRange (text : String)
  deriving DecidableEq, Repr

/-- The wording of an error. -/
def Error.wording : Error → String
  | malformed text => "incorrect integer value '" ++ text ++ "'"
  | outOfRange text => "integer value out of range: " ++ text

/-- The message of an error. -/
def Error.message (e : Error) : String :=
  Text.beforeNul e.wording

/-- What a suffix multiplies by. -/
def multiplier? : Char → Option Nat
  | 'K' => some 1000
  | 'M' => some 1000000
  | 'G' => some 1000000000
  | 'T' => some 1000000000000
  | 'P' => some 1000000000000000
  | 'E' => some 1000000000000000000
  | _ => none

/-- The value of digits within the limit. -/
def ofDigits (cs : List Char) : Except Error Nat :=
  match Number.read cs with
  | some n => .ok n
  | none => .error (.outOfRange (String.ofList cs))

/-- The value of a text. -/
def parse (s : String) : Except Error Nat :=
  let cs := s.toList
  if Text.isNumeral cs then ofDigits cs
  else
    match cs.getLast?.bind multiplier? with
    | none => .error (.malformed s)
    | some m =>
      if Text.isNumeral cs.dropLast then
        match ofDigits cs.dropLast with
        | .error e => .error e
        | .ok n => if n ≤ Number.limit / m then .ok (n * m) else .error (.outOfRange s)
      else .error (.malformed s)

end PetriReach.Quantity
