import PetriReach.Encoder.Basic

/-!
# Frames

The variables of one step, the tokens at the beginning, and the relation between the variables of
two steps that a firing joins.
-/

namespace PetriReach.Encoder

open Smt (Command Script Term Fold)

/-- A variable with its sort; an integer variable is not negative. -/
def declareVar (s : Smt.Symbol) (sort : Smt.VarSort) : Script :=
  match sort with
  | .bool => [.declare s .bool]
  | .int => [.declare s .int, .assert (.binary .ge (.sym s) (.num 0))]

/-- The sort of the variables of places. -/
def placeSort (e : Encoder) : Smt.VarSort :=
  match e.encoding with
  | .integer => .int
  | .boolean => .bool

/-- The variables of all places at a step. -/
def declarePlaces (e : Encoder) (k : Option Int) : Except EncodingError Script := do
  let parts ← e.net.places.mapM fun p => do
    return declareVar (← symbol p.id k) e.placeSort
  return parts.flatten

/-- The tokens of a place at the beginning. -/
def initialTokens (encoding : Encoding) (p : Place) (v : Term) : Term :=
  match encoding with
  | .integer => .binary .eq v (.num p.tokens)
  | .boolean => if p.tokens > 0 then v else v.not

/-- The marking at the beginning, stated of a step. -/
def initialMarking (e : Encoder) (k : Option Int) : Except EncodingError Script :=
  e.net.places.mapM fun p => do
    return .assert (initialTokens e.encoding p (← var p.id k))

/-- What a firing does to the tokens of a place: `d` more than before. -/
def changeBy (before after : Term) (d : Int) : Term :=
  if d > 0 then .binary .eq after (.binary .add before (.num d))
  else if d < 0 then .binary .eq after (.binary .sub before (.num (-d)))
  else .binary .eq after before

/-- A transition fires from step `k` to step `k'`, in tokens. -/
def firingInt (net : Net) (t : Transition) (k k' : Int) : Except EncodingError Term := do
  let enabled ← t.pre.mapM fun a => do
    return .binary .ge (← var a.1 (some k)) (.num a.2)
  let effect ← net.places.mapM fun p => do
    return changeBy (← var p.id (some k)) (← var p.id (some k')) (t.delta p.id)
  return Fold.and.term (enabled ++ effect)

/-- A transition fires from step `k` to step `k'`, in marks. -/
def firingBool (net : Net) (t : Transition) (k k' : Int) : Except EncodingError Term := do
  let enabled ← t.pre.mapM fun a => var a.1 (some k)
  let effect ← net.places.mapM fun p => do
    let after ← var p.id (some k')
    if t.post.touches p.id then return after
    else if t.pre.touches p.id then return after.not
    else return .binary .eq after (← var p.id (some k))
  return Fold.and.term (enabled ++ effect)

/-- A transition fires from step `k` to step `k'`. -/
def firing (e : Encoder) (t : Transition) (k k' : Int) : Except EncodingError Term :=
  match e.encoding with
  | .integer => firingInt e.net t k k'
  | .boolean => firingBool e.net t k k'

/-- Some transition fires from step `k` to step `k'`. -/
def transitionRelation (e : Encoder) (k k' : Int) : Except EncodingError Script := do
  return [.assert (Fold.or.term (← e.net.transitions.mapM fun t => e.firing t k k'))]

end PetriReach.Encoder
