import PetriReach.Proofs.Checker.Mirrors
import PetriReach.Race

/-!
# Races in a row

A race can be run again and again. What a run leaves behind, a bound in the cell, a decided cohort,
the witnesses of its checkers, labels that are used up, has no influence on the runs that follow.

* `Race.Call`, `Race.calls`: runs one after another, each with backends of its own.
* `Race.calls_independent`: each of them is as if it were the first.
-/

namespace PetriReach

theorem Cohort.finish_relabel (c : Cohort Nat) (registered : List Nat) (method : String)
    (verdict : Option Verdict) : ({ c with registered } : Cohort Nat).finish method verdict =
      { c.finish method verdict with registered } := by
  cases verdict with
  | none => rfl
  | some v =>
    unfold finish
    dsimp only
    split
    · rfl
    · split
      · rfl
      · split <;> rfl

theorem Arena.Alike.finish {a a' : Arena} (h : a.Alike a') (method : String)
    (verdict : Option Verdict) :
    Alike { a with cohort := a.cohort.finish method verdict }
      { a' with cohort := a'.cohort.finish method verdict } := by
  refine h.map (f := fun a => { a with cohort := a.cohort.finish method verdict }) ?_
  intro a registered started
  dsimp only [relabel]
  rw [Cohort.finish_relabel]

namespace Race

variable {r r' : Race} {s s' : State} {c c' : Checker}

/-! ## Races that are alike -/

/-- States that differ in labels and in the checkers that are done only. -/
structure State.Alike (s s' : State) : Prop where
  arena : s.arena.Alike s'.arena
  fault : s'.fault = s.fault

/-- Races that differ in witnesses only. -/
structure Alike (r r' : Race) : Prop where
  checkers : List.Forall₂ Checker.Alike r.checkers r'.checkers
  budget : r'.budget = r.budget

theorem Alike.refl (r : Race) : r.Alike r :=
  ⟨List.forall₂_same.mpr fun _ _ => rfl, rfl⟩

theorem State.Alike.step (hs : s.Alike s') (hc : c.Alike c') : (s.step c).Alike (s'.step c') := by
  obtain ⟨houtcome, harena⟩ := Checker.run_alike hc hs.arena
  unfold State.step
  dsimp only
  rw [houtcome, hc.method]
  cases (c.run s.arena).outcome with
  | ok verdict =>
    cases verdict with
    | none => exact ⟨harena.finish _ none, hs.fault⟩
    | some v => exact ⟨(harena.info _).finish _ (some v), hs.fault⟩
  | error fault =>
    have hwarn := harena.emit ("WARNING: " ++ ("[" ++ c.method.name ++ "] " ++ fault.message))
    have hcancel := hwarn.map (f := fun a => { a with cohort := a.cohort.cancel }) fun _ _ _ => rfl
    exact ⟨hcancel.finish _ none, by rw [hs.fault]⟩

theorem State.Alike.foldl {cs cs' : List Checker} (hcs : List.Forall₂ Checker.Alike cs cs')
    (hs : s.Alike s') : (cs.foldl State.step s).Alike (cs'.foldl State.step s') := by
  induction hcs generalizing s s' with
  | nil => exact hs
  | cons hc _ ih => exact ih (hs.step hc)

theorem State.done_step (s : State) (c : Checker) :
    (s.step c).done = s.done ++ [(c.run s.arena).checker] := by
  unfold State.step
  dsimp only
  split <;> rfl

theorem State.done_foldl (cs : List Checker) (s : State) :
    ∃ ds, (cs.foldl State.step s).done = s.done ++ ds ∧ List.Forall₂ Checker.Alike cs ds := by
  induction cs generalizing s with
  | nil => exact ⟨[], (List.append_nil _).symm, .nil⟩
  | cons c cs ih =>
    obtain ⟨ds, hdone, hds⟩ := ih (s.step c)
    refine ⟨(c.run s.arena).checker :: ds, ?_, .cons (c.alike_run _) hds⟩
    rw [List.foldl_cons, hdone, State.done_step, List.append_assoc]
    rfl

/-- A run leaves a race that is alike. -/
theorem alike_run (r : Race) (a : Arena) : r.Alike (r.run a).2.1 := by
  obtain ⟨ds, hdone, hds⟩ := State.done_foldl r.checkers { arena := r.prepare a }
  rw [List.nil_append] at hdone
  unfold run
  split
  · exact .refl r
  · dsimp only
    rw [hdone]
    split
    · exact ⟨hds, rfl⟩
    · exact ⟨hds, rfl⟩

/-! ## Calls -/

/-- What a run is given: the programs and the backends there are, whether diagnostics are wanted,
and what happens from outside. -/
structure Call where
  programs : List String := ["z3"]
  backends : List (Option Backend) := []
  verbose : Bool := false
  agenda : List (Nat × Event) := []
  meanwhile : List (List Event) := []
  deriving DecidableEq, Repr

/-- The surroundings of a run, where all else is left over. -/
def Call.arena (k : Call) (a : Arena) : Arena :=
  { a with
    log := []
    programs := k.programs
    backends := k.backends
    verbose := k.verbose
    agenda := k.agenda
    meanwhile := k.meanwhile }

/-- How a run ends if the race is in this state, and the diagnostics it writes. -/
def answer (r : Race) (a : Arena) (k : Call) : Except Fault Result × List String :=
  ((r.run (k.arena a)).1, (r.run (k.arena a)).2.2.log)

/-- How runs end that follow one another. Each finds the race and the surroundings as the one before
left them. -/
def calls (r : Race) (a : Arena) : List Call → List (Except Fault Result × List String)
  | [] => []
  | k :: ks => r.answer a k :: (r.run (k.arena a)).2.1.calls (r.run (k.arena a)).2.2 ks

/-- At the start of a run only labels are left over. -/
theorem Alike.prepare (h : r.Alike r') (k : Call) (a a' : Arena) :
    (r.prepare (k.arena a)).Alike (r'.prepare (k.arena a')) := by
  unfold Race.prepare
  dsimp only
  rw [h.budget, h.checkers.length_eq]
  split
  · refine Arena.labels.expire ?_
    rfl
  · rfl

/-- Races that are alike answer alike, whatever surrounds them. -/
theorem Alike.answer (h : r.Alike r') (k : Call) (a a' : Arena) :
    r'.answer a' k = r.answer a k := by
  have hstart : State.Alike { arena := r.prepare (k.arena a) }
      { arena := r'.prepare (k.arena a') } :=
    ⟨h.prepare k a a', rfl⟩
  have hend := hstart.foldl h.checkers
  have hempty : r'.checkers.isEmpty = r.checkers.isEmpty := by
    rw [Bool.eq_iff_iff, List.isEmpty_iff_length_eq_zero, List.isEmpty_iff_length_eq_zero,
      h.checkers.length_eq]
  unfold Race.answer Race.run
  rw [hempty]
  split
  · rfl
  · dsimp only
    rw [hend.fault]
    split
    · rw [hend.arena.log]
    · rw [hend.arena]
      rfl

/-- **Independence.** A race that is run several times answers each call as it would have answered
it at first, in any surroundings `a₀`. -/
theorem calls_independent (r : Race) (a a₀ : Arena) (ks : List Call) :
    r.calls a ks = ks.map (r.answer a₀) := by
  induction ks generalizing r a with
  | nil => rfl
  | cons k ks ih =>
    have hfirst : r.answer a k = r.answer a₀ k := (Alike.refl r).answer k a₀ a
    have hrest : ks.map ((r.run (k.arena a)).2.1.answer a₀) = ks.map (r.answer a₀) :=
      List.map_congr_left fun k' _ => (r.alike_run (k.arena a)).answer k' a₀ a₀
    rw [calls, ih, hfirst, hrest, List.map_cons]

end Race

end PetriReach
