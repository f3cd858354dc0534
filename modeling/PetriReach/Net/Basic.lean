import PetriReach.Net.Index
import PetriReach.Text

/-!
# Nets

Places hold tokens; a transition takes tokens from its input places and puts tokens into its output
places. Places and transitions keep the order in which they were first mentioned, and each of the
two lists has an index by name.
-/

namespace PetriReach

/-- Weights by place, increasing by name. -/
abbrev Arcs := NameMap

/-- A place and the tokens it holds at the beginning. -/
structure Place where
  id : String
  tokens : Int := 0
  deriving DecidableEq, Repr

/-- A transition: the weights of its input and output arcs, and its places in the order of their
first arc. -/
structure Transition where
  id : String
  pre : Arcs := []
  post : Arcs := []
  connected : List String := []
  deriving DecidableEq, Repr

/-- The two sides of a transition. -/
inductive ArcSide where
  | input
  | output
  deriving DecidableEq, Repr

/-- A net. The indexes lead from a name to its position; unless they are given, they are made from
the lists. -/
structure Net where
  id : String := ""
  places : List Place := []
  transitions : List Transition := []
  placeIndex : NameMap := .positions 0 (places.map (·.id))
  transitionIndex : NameMap := .positions 0 (transitions.map (·.id))
  points_places : placeIndex.Points (places.map (·.id)) := by
    exact NameMap.points_positions _
  points_transitions : transitionIndex.Points (transitions.map (·.id)) := by
    exact NameMap.points_positions _
  deriving DecidableEq, Repr

/-- Why a look-up in a net fails. -/
inductive Net.Error where
  | unknownPlace (id : String)
  | unknownTransition (id : String)
  deriving DecidableEq, Repr

/-- The wording of a failed look-up. -/
def Net.Error.wording : Net.Error → String
  | unknownPlace id => "unknown place: " ++ id
  | unknownTransition id => "unknown transition: " ++ id

/-- The message of a failed look-up. -/
def Net.Error.message (e : Net.Error) : String :=
  Text.beforeNul e.wording

namespace Arcs

/-- The weight of the arc to `p`; 0 if there is none. -/
def weight (arcs : Arcs) (p : String) : Nat :=
  (arcs.lookup p).getD 0

/-- Whether there is an arc to `p`. -/
def touches (arcs : Arcs) (p : String) : Bool :=
  (arcs.lookup p).isSome

end Arcs

namespace Transition

/-- What one firing adds to a place. -/
def delta (t : Transition) (p : String) : Int :=
  (t.post.weight p : Int) - (t.pre.weight p : Int)

/-- Whether an arc joins the transition and the place. -/
def touches (t : Transition) (p : String) : Bool :=
  t.pre.touches p || t.post.touches p

/-- Counts a place among the connected ones, once. -/
def connect (t : Transition) (p : String) : Transition :=
  if p ∈ t.connected then t else { t with connected := t.connected ++ [p] }

/-- Sets an arc on one side. -/
def setArc (t : Transition) (side : ArcSide) (p : String) (w : Nat) : Transition :=
  match side with
  | .input => { t with pre := t.pre.set p w }.connect p
  | .output => { t with post := t.post.set p w }.connect p

theorem id_connect (t : Transition) (p : String) : (t.connect p).id = t.id := by
  unfold connect
  split <;> rfl

theorem id_setArc (side : ArcSide) (p : String) (w : Nat) (t : Transition) :
    (t.setArc side p w).id = t.id := by
  cases side with
  | input => exact id_connect _ p
  | output => exact id_connect _ p

end Transition

namespace Net

/-- Whether there is a place with this name. -/
def hasPlace (n : Net) (id : String) : Bool :=
  (n.placeIndex.lookup id).isSome

/-- Whether there is a transition with this name. -/
def hasTransition (n : Net) (id : String) : Bool :=
  (n.transitionIndex.lookup id).isSome

/-- The net with a place of this name; a new one is empty. -/
def addPlace (n : Net) (id : String) : Net :=
  if h : n.hasPlace id then n
  else { n with
    places := n.places ++ [{ id }]
    placeIndex := n.placeIndex.set id n.places.length
    points_places := n.points_places.push { id } h }

/-- The net with a transition of this name; a new one has no arcs. -/
def addTransition (n : Net) (id : String) : Net :=
  if h : n.hasTransition id then n
  else { n with
    transitions := n.transitions ++ [{ id }]
    transitionIndex := n.transitionIndex.set id n.transitions.length
    points_transitions := n.points_transitions.push { id } h }

/-- Changes one place, but not its name. -/
def modifyPlace (n : Net) (id : String) (f : Place → Place) (hf : ∀ p, (f p).id = p.id) : Net :=
  { n with
    places := n.placeIndex.update n.places id f
    points_places := n.points_places.update id hf }

/-- Changes one transition, but not its name. -/
def modifyTransition (n : Net) (id : String) (f : Transition → Transition)
    (hf : ∀ t, (f t).id = t.id) : Net :=
  { n with
    transitions := n.transitionIndex.update n.transitions id f
    points_transitions := n.points_transitions.update id hf }

/-- Puts tokens into a place at the beginning. -/
def setTokens (n : Net) (id : String) (tokens : Int) : Net :=
  (n.addPlace id).modifyPlace id (fun p => { p with tokens }) fun _ => rfl

/-- The place with a name. -/
def place (n : Net) (id : String) : Except Error Place :=
  match (n.placeIndex.lookup id).bind (n.places[·]?) with
  | some p => .ok p
  | none => .error (.unknownPlace id)

/-- The transition with a name. -/
def transition (n : Net) (id : String) : Except Error Transition :=
  match (n.transitionIndex.lookup id).bind (n.transitions[·]?) with
  | some t => .ok t
  | none => .error (.unknownTransition id)

end Net

end PetriReach
