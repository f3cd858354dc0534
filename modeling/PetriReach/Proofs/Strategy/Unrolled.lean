import PetriReach.Proofs.Solver.Steps

/-!
# Sending an unrolling

What the scripts of an encoder that writes a system add to the meaning of what was sent.

* `Encoder.Reading.yields_first`, `Encoder.Reading.yields_next`: the variables of a step.
* `Encoder.Reading.yields_step`, `Encoder.Reading.yields_goal`: a step, and the goal at a step.
-/

namespace PetriReach.Encoder.Reading

open Smt Work

variable {e : Encoder} {σ : Type} {S : System σ} (R : e.Reading S) {rs : List String}
  {P : Int → Prop} {s : Stage} {past : List (Scopes × Answer)} {t : Scopes}

include R in
/-- Variables of a step that can be declared are declared. -/
theorem yields_declare (h : At rs P s past t) {k : Int} {t' : Scopes}
    (haccept : t.acceptAll ((e.symbols (some k)).flatMap (declareVar · e.placeSort)) = some t') :
    (send (e.declarePlaces (some k))).Yields s fun _ s' => At rs P s' past t' :=
  h.send (declarePlaces_eq R.writable _) haccept
    (fun _ _ hx => R.writable.readable R.wellFormed (mem_declareVars hx).1)
    not_checkSat_of_mem_declareVars

include R in
theorem yields_first (h : At rs P s past t) (ht : t.declared = []) :
    (send (e.declarePlaces (some 0))).Yields s fun _ s' =>
      At rs P s' past (t.extend (e.frame (some 0)) (e.bounds (some 0))) :=
  R.yields_declare h (R.acceptAll_first ht)

include R in
theorem yields_next (h : At rs P s past t) {k : Nat} (ht : t.declared = e.frames k) :
    (send (e.declarePlaces (some (k + 1)))).Yields s fun _ s' =>
      At rs P s' past (t.extend (e.frame (some (k + 1))) (e.bounds (some (k + 1)))) :=
  R.yields_declare h (R.acceptAll_next ht)

theorem yields_init (h : At rs P s past t) (ht : t.declared = e.frames 0) :
    (send (e.initialMarking (some 0))).Yields s fun _ s' =>
      At rs P s' past (t.extend [] R.initTerms) :=
  h.send R.initial_eq (R.acceptAll_init ht) (by simp) (by simp)

theorem yields_step (h : At rs P s past t) {k : Nat} (ht : t.declared = e.frames (k + 1)) :
    (send (e.transitionRelation k (k + 1))).Yields s fun _ s' =>
      At rs P s' past (t.extend [] [R.stepTerm k]) :=
  h.send (R.step_eq k) (R.acceptAll_step ht) (by simp) (by simp)

theorem yields_goal (h : At rs P s past t) {j k : Nat} (ht : t.declared = e.frames k)
    (hjk : j ≤ k) : (send (e.assertGoal (some (j : Int)))).Yields s fun _ s' =>
      At rs P s' past (t.extend [] [R.goalAt j]) :=
  h.send (R.goal_eq j) (R.acceptAll_goal ht hjk) (by simp) (by simp)

theorem yields_refute (h : At rs P s past t) {j k : Nat} (ht : t.declared = e.frames k)
    (hjk : j ≤ k) : (send (e.refuteGoal (some (j : Int)))).Yields s fun _ s' =>
      At rs P s' past (t.extend [] [(R.goalAt j).not]) :=
  h.send (R.refute_eq j) (R.acceptAll_refute ht hjk) (by simp) (by simp)

end PetriReach.Encoder.Reading
