import PetriReach.Proofs.Race.Encoding
import PetriReach.Proofs.Strategy.Waiting

/-!
# Faults in a race

A checker ends in an error if and only if its run raises one. That a conversation breaks off is no
error, and no checker waits for ever. The cohort knows what the checkers hand in.

* `Checker.Raises`: what comes up in a run.
* `Checker.outcome_eq_error_iff`: when a run ends in an error.
* `Checker.run_not_stuck`: no run waits for ever.
* `Race.reflects_step`: what one checker hands in is known to the cohort.
-/

namespace PetriReach

open Work Cohort

/-- A fault that is an error, and neither the end of a conversation nor a wait in vain. -/
def Fault.isError : Fault → Bool
  | .aborted _ => false
  | .stuck => false
  | .encoding _ => true
  | .unmatchedPop => true

theorem Fault.isError_iff {x : Fault} :
    x.isError = true ↔ (∀ reason, x ≠ .aborted reason) ∧ x ≠ .stuck := by
  cases x <;> simp [isError]

/-! ## Surroundings that are watched -/

namespace Arena

variable {a : Arena}

/-- A time budget is watched, or the cohort is called off. -/
def Watched (a : Arena) : Prop :=
  a.watchdog = .armed ∨ a.cohort.cancelled = true

theorem passage_watched : Passage fun a a' => a.Watched → a'.Watched where
  refl _ := id
  trans h h' := h' ∘ h
  emit a text h := by
    rw [emit_eq]
    exact h.imp_right fun hcancelled => by simp [hcancelled]
  elapse a h := by
    rw [elapse_eq]
    exact h.imp_right fun hcancelled => by simp [hcancelled]
  expire _ _ := .inr rfl
  enlist _ _ h := h
  withdraw _ _ h := h
  start _ _ _ h := h

theorem noResult_emit (a : Arena) (text : String) : a.cohort.NoResult (a.emit text).cohort := by
  rw [emit_eq]
  exact ⟨rfl, fun h => by simp [h]⟩

theorem passage_noResult : Passage fun a a' => a.cohort.NoResult a'.cohort where
  refl a := .refl a.cohort
  trans h h' := h.trans h'
  emit := noResult_emit
  elapse a := by
    rw [elapse_eq]
    exact ⟨rfl, fun h => by simp [h]⟩
  expire a :=
    (info_cases (p := fun a' => a.cohort.NoResult a'.cohort) (.refl _) a.noResult_emit _).trans
      ⟨rfl, fun _ => rfl⟩
  enlist a id := a.cohort.noResult_enlist id
  withdraw a id := a.cohort.noResult_withdraw id
  start a _ _ := .refl a.cohort

end Arena

/-! ## Runs -/

namespace Checker

variable {c : Checker} {a : Arena} {x : Fault}

/-- What comes up in a run: a solver does not start, or something stops the strategy. -/
inductive Raises (c : Checker) (a : Arena) : Fault → Prop
  | start {reason : Abort} {a' : Arena}
    (h : (a.info (c.label "RUNNING")).start c.config = (.error reason, a')) :
    Raises c a (.aborted reason)
  | prove {session : Session} {a' : Arena} {x : Fault}
    (h : (a.info (c.label "RUNNING")).start c.config = (.ok session, a'))
    (hx : (c.prove.start (c.enlist a' session)).1 = .error x) : Raises c a x

theorem leave_eq_error_iff (id : Nat) (r : Except Fault (Option Verdict)) (s : Stage) :
    (c.leave id r s).outcome = .error x ↔ r = .error x ∧ ∀ reason, x ≠ .aborted reason := by
  unfold leave
  dsimp only
  split
  · simp
  · next reason =>
    constructor
    · intro h
      cases h
    · rintro ⟨h, hother⟩
      exact absurd (Except.error.inj h).symm (hother reason)
  · next fault hother =>
    constructor
    · intro h
      cases h
      exact ⟨rfl, hother⟩
    · exact fun h => h.1

/-- **A run ends in what comes up in it**, unless that is the end of a conversation. -/
theorem outcome_eq_error_iff :
    (c.run a).outcome = .error x ↔ c.Raises a x ∧ ∀ reason, x ≠ .aborted reason := by
  cases hstart : (a.info (c.label "RUNNING")).start c.config with
  | mk result a' =>
    cases result with
    | error reason =>
      rw [run, hstart]
      constructor
      · intro h
        cases h
      · rintro ⟨hraises, hother⟩
        cases hraises with
        | start h => exact absurd rfl (hother _)
        | prove h _ =>
          rw [hstart] at h
          cases h
    | ok session =>
      rw [run_of_start hstart, leave_eq_error_iff]
      refine and_congr_left fun hother => ⟨.prove hstart, fun hraises => ?_⟩
      cases hraises with
      | start h => exact absurd rfl (hother _)
      | prove h hx =>
        rw [hstart] at h
        cases h
        exact hx

theorem enlist_awake (h : a.Watched) (c : Checker) (session : Session) :
    (c.enlist a session).Awake := by
  have hmem : session.id ∈ (a.cohort.enlist session.id).registered := by
    simp [Cohort.enlist]
  unfold enlist
  rcases h with harmed | hcancelled
  · exact Stage.Awake.settle (.inr ⟨harmed, hmem⟩)
  · refine .inl ?_
    have hkills : ((a.cohort.enlist session.id).cancelled &&
        (a.cohort.enlist session.id).registered.contains session.id) = true :=
      Bool.and_eq_true_iff.mpr ⟨hcancelled, List.contains_iff_mem.mpr hmem⟩
    unfold Stage.settle
    rw [if_pos hkills]
    exact session.killed_kill

theorem prove_not_stuck (c : Checker) {s : Stage} (h : s.Awake) :
    (c.prove.start s).1 ≠ .error .stuck := by
  unfold prove
  split
  · exact Strategy.lasts_stateEquation _ _ s h (Nat.lt_succ_self _)
  · exact Strategy.lasts_induction _ _ s h (Nat.lt_add_of_pos_right Nat.two_pos)
  · exact Strategy.lasts_bmc _ _ _ s h (Nat.lt_succ_self _)
  · exact Strategy.lasts_kInduction _ _ s h (Nat.lt_succ_self _)

/-- **No run waits for ever** if a time budget is watched. -/
theorem run_not_stuck (h : a.Watched) : (c.run a).outcome ≠ .error .stuck := by
  intro hstuck
  obtain ⟨hraises, -⟩ := outcome_eq_error_iff.mp hstuck
  cases hraises with
  | prove hstart hx =>
    have hinfo := Arena.passage_watched.info a (c.label "RUNNING") h
    have hwatched := Arena.passage_watched.start_snd _ c.config hinfo
    rw [hstart] at hwatched
    exact c.prove_not_stuck (enlist_awake hwatched c _) hx

end Checker

/-! ## Races -/

namespace Race

variable {s : State} {c : Checker} {n : Nat} {fs : Results}

theorem reflects_step (h : s.arena.cohort.Reflects n fs) :
    (s.step c).arena.cohort.Reflects n (fs ++ [(c.method.name, (c.run s.arena).verdict)]) := by
  obtain ⟨a, ha, heq⟩ := step_arena Arena.passage_noResult
    (fun _ => ⟨rfl, fun _ => rfl⟩) s c
  have hrun : s.arena.cohort.NoResult (c.run s.arena).arena.cohort :=
    Checker.run_passage Arena.passage_noResult fun _ a _ => .refl a.cohort
  rw [heq]
  exact (h.noResult (hrun.trans ha)).finish _ _

theorem reflects_prepare (r : Race) (a : Arena) :
    (r.prepare a).cohort.Reflects r.checkers.length [] := by
  have hexpired : ∀ b : Arena, b.cohort.Reflects r.checkers.length [] →
      b.expire.cohort.Reflects r.checkers.length [] :=
    fun b hb => hb.noResult (Arena.passage_noResult.expire b)
  unfold prepare
  dsimp only
  split
  · exact hexpired _ (reflects_new _)
  · exact reflects_new _

end Race

end PetriReach
