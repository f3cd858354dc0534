import PetriReach.Net.Basic
import PetriReach.Net.Quantity
import PetriReach.Text

/-!
# Declarations

One line of the text of a net.

```text
net NAME
pl NAME [: LABEL] [TOKENS]
tr NAME [: LABEL] ARC* -> ARC*
```

An arc is a place with an optional `*` and weight. A label is one word, or words in braces. Lines
of another kind declare nothing. The characters `#` and `,` are read as dots.
-/

namespace PetriReach

/-- What a line declares. -/
inductive Declaration where
  | net (id : String)
  | place (id : String) (tokens : Nat)
  | transition (id : String) (inputs outputs : List (String × Nat))
  deriving DecidableEq, Repr

/-- Why a line cannot be read. -/
inductive Declaration.Error where
  | missingTransition
  | missingPlace
  | missingLabel
  | unterminatedLabel
  | missingArrow (transition : String)
  | namelessArc (arc : String)
  | weightlessArc (arc : String)
  | quantity (e : Quantity.Error)
  deriving DecidableEq, Repr

/-- The wording of an error. -/
def Declaration.Error.wording : Declaration.Error → String
  | missingTransition => "missing transition identifier"
  | missingPlace => "missing place identifier"
  | missingLabel => "missing label after ':'"
  | unterminatedLabel => "unterminated label"
  | missingArrow id => "missing '->' in transition " ++ id
  | namelessArc arc => "missing place in arc '" ++ arc ++ "'"
  | weightlessArc arc => "arc weight must be positive in '" ++ arc ++ "'"
  | quantity e => e.wording

namespace Declaration

/-- The line with `#` and `,` as dots. -/
def normalize (line : String) : String :=
  String.ofList (line.toList.map fun c => if c = '#' ∨ c = ',' then '.' else c)

/-- What follows the first field that ends in a closing brace. -/
def closeLabel : List String → Except Error (List String)
  | [] => .error .unterminatedLabel
  | w :: ws => if w.toList.getLast? = some '}' then .ok ws else closeLabel ws

/-- The fields without the label at their head. -/
def skipLabel : List String → Except Error (List String)
  | ":" :: [] => .error .missingLabel
  | ":" :: w :: ws => if w.toList.head? = some '{' then closeLabel (w :: ws) else .ok ws
  | ws => .ok ws

/-- An arc: a place, and a weight behind the first star. -/
def readArc (arc : String) : Except Error (String × Nat) :=
  let cs := arc.toList
  let place := String.ofList (cs.takeWhile (· ≠ '*'))
  let weight : Except Error Nat :=
    match cs.dropWhile (· ≠ '*') with
    | [] => .ok 1
    | _ :: digits => (Quantity.parse (String.ofList digits)).mapError .quantity
  match weight with
  | .error e => .error e
  | .ok w =>
    if place = "" then .error (.namelessArc arc)
    else if w = 0 then .error (.weightlessArc arc)
    else .ok (place, w)

/-- A transition, from the fields behind the keyword. -/
def readTransition : List String → Except Error Declaration
  | [] => .error .missingTransition
  | id :: ws => do
    let ws ← skipLabel ws
    let inputs := ws.takeWhile (· ≠ "->")
    if inputs.length = ws.length then .error (.missingArrow id)
    else
      let outputs := ws.drop (inputs.length + 1)
      return .transition id (← inputs.mapM readArc) (← outputs.mapM readArc)

/-- A place, from the fields behind the keyword. Parentheses in the number of tokens do not
count. -/
def readPlace : List String → Except Error Declaration
  | [] => .error .missingPlace
  | id :: ws => do
    match ← skipLabel ws with
    | [] => return .place id 0
    | w :: _ =>
      let digits := String.ofList (w.toList.filter fun c => c ≠ '(' ∧ c ≠ ')')
      return .place id (← (Quantity.parse digits).mapError .quantity)

/-- What a line declares, if anything. -/
def parse (line : String) : Except Error (Option Declaration) :=
  match Text.fields (normalize line) with
  | "net" :: id :: _ => .ok (some (.net id))
  | "tr" :: ws => (readTransition ws).map some
  | "pl" :: ws => (readPlace ws).map some
  | _ => .ok none

end Declaration

namespace Net

/-- Sets the arcs on one side of a transition, one by one, with their places. -/
def addArcs (n : Net) (id : String) (side : ArcSide) (arcs : List (String × Nat)) : Net :=
  arcs.foldl (fun n a => (n.addPlace a.1).modifyTransition id (·.setArc side a.1 a.2)
    (Transition.id_setArc side a.1 a.2)) n

/-- The net with one more declaration. -/
def declare (n : Net) : Declaration → Net
  | .net id => { n with id }
  | .place id tokens => n.setTokens id tokens
  | .transition id inputs outputs =>
    ((n.addTransition id).addArcs id .input inputs).addArcs id .output outputs

end Net

end PetriReach
