import PetriReach.Encoder.Frame

/-!
# The state equation

Over the number of firings of each transition, the tokens of a place are those at the beginning,
plus those produced, less those consumed.
-/

namespace PetriReach.Encoder

open Smt (Command Script Term Fold)

/-- The variables that count firings. -/
def declareTransitions (e : Encoder) : Except EncodingError Script := do
  let parts ← e.net.transitions.mapM fun t => do
    return declareVar (← firingCount t.id) .int
  return parts.flatten

/-- The tokens that the firings of a transition move, `w` each time. -/
def moved (w : Nat) (count : Term) : Term :=
  if w = 1 then count else .binary .mul (.num w) count

/-- What the given transitions move at a place. -/
def movedAt (p : String) (counts : List (Transition × Term)) : List Term :=
  counts.map fun (t, c) => moved (t.delta p).natAbs c

/-- The equation of a place. -/
def placeEquation (net : Net) (p : Place) : Except EncodingError Command := do
  let counts ← (net.transitions.filter (·.delta p.id ≠ 0)).mapM fun t => do
    return (t, Term.sym (← firingCount t.id))
  let produced := movedAt p.id (counts.filter fun (t, _) => t.delta p.id > 0)
  let consumed := movedAt p.id (counts.filter fun (t, _) => t.delta p.id < 0)
  let gained := Fold.sum.term (.num p.tokens :: produced)
  let total := if consumed.isEmpty then gained else .binary .sub gained (Fold.sum.term consumed)
  return .assert (.binary .eq (← var p.id none) total)

/-- The equations of all places. -/
def stateEquation (e : Encoder) : Except EncodingError Script :=
  match e.encoding with
  | .boolean => .error .needsIntegers
  | .integer => e.net.places.mapM (placeEquation e.net)

end PetriReach.Encoder
