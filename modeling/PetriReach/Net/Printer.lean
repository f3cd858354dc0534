import PetriReach.Net.Basic

/-!
# Printing nets

A place without tokens is printed only if no arc mentions it; a weight 1 is left out.
-/

namespace PetriReach

/-- One arc. -/
def arcText (arc : String × Nat) : String :=
  if arc.2 = 1 then arc.1 else arc.1 ++ "*" ++ toString arc.2

/-- Arcs, each behind a space. -/
def Arcs.render (arcs : Arcs) : String :=
  String.join (arcs.map fun a => " " ++ arcText a)

/-- The line of a transition. -/
def Transition.render (t : Transition) : String :=
  "tr " ++ t.id ++ t.pre.render ++ " ->" ++ t.post.render ++ "\n"

namespace Net

/-- Whether no arc mentions a place. -/
def isolated (n : Net) (p : Place) : Bool :=
  n.transitions.all (!·.touches p.id)

/-- The line of a place, if it has one. -/
def renderPlace (n : Net) (p : Place) : String :=
  if p.tokens ≠ 0 then "pl " ++ p.id ++ " (" ++ toString p.tokens ++ ")\n"
  else if n.isolated p then "pl " ++ p.id ++ "\n"
  else ""

/-- The text of a net. -/
def render (n : Net) : String :=
  "net " ++ n.id ++ "\n" ++ String.join (n.places.map n.renderPlace)
    ++ String.join (n.transitions.map Transition.render)

end Net

end PetriReach
