import PetriReach.Proofs.Checker.Answers
import PetriReach.Proofs.Solver.Delivery

/-!
# The depth of bounded model checking

Bounded model checking keeps the length of the witness that it found. Its work forgets the length
of an earlier run first, and keeps one only if a test was answered `sat`, whatever the process is
told and however the run ends. A run whose solver does not start does no work, though, and so does
not forget.

* `Strategy.SatAt`: the number of the test that was answered `sat`.
* `Strategy.leaves_bmc`: what the work leaves in any case.
* `Checker.DepthRight`: the depth after a run is right.
* `Checker.Stale`: the last run that did any work found a witness.
* `Checker.depthRight_iff`: after which runs the depth is right.
-/

namespace PetriReach

open Smt Work Stage

/-! ## The scripts of an unrolling -/

namespace Encoder

variable {e : Encoder} {cs : Script}

theorem states_declarePlaces {k : Option Int} (h : e.declarePlaces k = .ok cs) :
    ∀ c ∈ cs, c.States := by
  obtain ⟨parts, hparts, h⟩ := exists_of_bind_ok h
  cases h
  intro c hc
  obtain ⟨part, hpart, hc⟩ := List.mem_flatten.mp hc
  obtain ⟨p, -, hp⟩ := exists_of_mapM_ok hparts part hpart
  obtain ⟨x, -, hp⟩ := exists_of_bind_ok hp
  cases hp
  unfold declareVar at hc
  split at hc
  · rw [List.mem_singleton.mp hc]
    trivial
  · rcases List.mem_cons.mp hc with rfl | hc
    · trivial
    · rw [List.mem_singleton.mp hc]
      trivial

theorem states_initialMarking {k : Option Int} (h : e.initialMarking k = .ok cs) :
    ∀ c ∈ cs, c.States := by
  intro c hc
  obtain ⟨p, -, hp⟩ := exists_of_mapM_ok h c hc
  obtain ⟨x, -, hp⟩ := exists_of_bind_ok hp
  cases hp
  trivial

theorem states_transitionRelation {k k' : Int} (h : e.transitionRelation k k' = .ok cs) :
    ∀ c ∈ cs, c.States := by
  obtain ⟨ts, -, h⟩ := exists_of_bind_ok h
  cases h
  exact List.forall_mem_singleton.mpr trivial

theorem states_assertGoal {k : Option Int} (h : e.assertGoal k = .ok cs) :
    ∀ c ∈ cs, c.States := by
  obtain ⟨t, -, h⟩ := exists_of_bind_ok h
  cases h
  exact List.forall_mem_singleton.mpr trivial

end Encoder

/-! ## What the work leaves -/

namespace Strategy

variable {e : Encoder} {heedsBound : Bool} {ls : List String} {s : Stage}

/-- Test number `d` was the last that was put. It was answered `sat`, and all before it `unsat`,
each by the line of its number. -/
structure SatAt (ls sent : List String) (d : Nat) : Prop where
  tests : sent.count ask = d + 1
  sat : Delivers ls d .sat
  unsat : ∀ j < d, Delivers ls j .unsat

/-- The witness that is left when the work ends with this result, if the solver writes `ls`: the
number of the test that was answered `sat` if the goal was found, and else none. -/
structure Leaves (ls : List String) (r : Except Fault (Option Verdict)) (s : Stage) : Prop where
  found : r = .ok (some .reachable) → ∃ d, s.witness = some d ∧ SatAt ls s.sent d
  other : r ≠ .ok (some .reachable) → s.witness = none

theorem leaves_error (e : Fault) (s : Stage) (h : s.witness = none) : Leaves ls (.error e) s :=
  ⟨fun hfound => absurd hfound (by simp), fun _ => h⟩

theorem leaves_pure {v : Option Verdict} (hv : v ≠ some .reachable) (h : s.witness = none) :
    (pure v : Work (Option Verdict)).Ends s (Leaves ls) :=
  ⟨fun hfound => absurd (Except.ok.inj hfound) hv, fun _ => h⟩

/-- One round, where all tests before were without success. -/
theorem leaves_bmcNext {fuel k : Nat} {w : Answer} (h : Counted ls (k + 1) s)
    (hunsat : ∀ j < k, Delivers ls j .unsat) (hw : Delivers ls k w) (hdefinite : w ≠ .unknown)
    (hrec : ∀ s', Counted ls (k + 1) s' → (∀ j < k + 1, Delivers ls j .unsat) →
      (bmcFrom e heedsBound fuel (k + 1)).Ends s' (Leaves ls)) :
    (bmcNext e heedsBound fuel k w).Ends s (Leaves ls) := by
  cases w with
  | unknown => exact absurd rfl hdefinite
  | sat =>
    refine ends_after_quiet (quiet_info _) h leaves_error fun _ s₁ h₁ => ends_bind (does_modify ?_)
    exact ⟨fun _ => ⟨k, rfl, h₁.tests, hw, hunsat⟩, fun hother => absurd rfl hother⟩
  | unsat =>
    refine ends_bind (does_get ?_)
    split
    · refine ends_after_quiet (quiet_info _) h leaves_error fun _ s₁ h₁ => ?_
      exact leaves_pure (by decide) h₁.witness
    · refine ends_bind (does_get ?_)
      split
      · exact leaves_pure (by decide) h.witness
      · refine ends_after_quiet quiet_pop h leaves_error fun _ s₁ h₁ => ?_
        refine ends_after_quiet (quiet_send fun _ => Encoder.states_declarePlaces) h₁ leaves_error
          fun _ s₂ h₂ => ?_
        refine ends_after_quiet (quiet_send fun _ => Encoder.states_transitionRelation) h₂
          leaves_error fun _ s₃ h₃ => ?_
        refine ends_after_quiet quiet_push h₃ leaves_error fun _ s₄ h₄ => ?_
        refine ends_after_quiet (quiet_send fun _ => Encoder.states_assertGoal) h₄ leaves_error
          fun _ s₅ h₅ => hrec s₅ h₅ fun j hj => ?_
        rcases Nat.lt_or_eq_of_le (Nat.le_of_lt_succ hj) with hlt | rfl
        · exact hunsat j hlt
        · exact hw

theorem leaves_bmcFrom {fuel k : Nat} (h : Counted ls k s)
    (hunsat : ∀ j < k, Delivers ls j .unsat) :
    (bmcFrom e heedsBound fuel k).Ends s (Leaves ls) := by
  induction fuel generalizing k s with
  | zero => exact leaves_error _ s h.witness
  | succ fuel ih =>
    rw [bmcFrom_succ]
    refine ends_after_quiet (quiet_info _) h leaves_error fun _ s₁ h₁ => ?_
    refine (counted_checkSat h₁ true).bind (fun e s₂ h₂ => leaves_error e s₂ h₂.1) ?_
    rintro w s₂ ⟨-, hanswer⟩
    obtain ⟨h₂, hw, hdefinite⟩ := hanswer w rfl
    exact leaves_bmcNext h₂ hunsat hw (hdefinite rfl) fun s₃ h₃ hunsat' => ih h₃ hunsat'

/-- **What the work leaves in any case**: it forgets what was found before, and keeps the number of
the test that was answered `sat`. -/
theorem leaves_bmc {b : Backend} (h : s.session.process = .start b) :
    (bmc e heedsBound).Ends s (Leaves b.lines) := by
  refine ends_bind (does_modify ?_)
  have h₀ : Counted b.lines 0 { s with witness := none } := by
    refine ⟨?_, ?_, rfl⟩
    · rw [h]
      exact Process.delivered_start b
    · rw [Stage.sent, h]
      rfl
  refine ends_after_quiet (quiet_send fun _ => Encoder.states_declarePlaces) h₀ leaves_error
    fun _ s₁ h₁ => ?_
  refine ends_after_quiet (quiet_send fun _ => Encoder.states_initialMarking) h₁ leaves_error
    fun _ s₂ h₂ => ?_
  refine ends_after_quiet quiet_push h₂ leaves_error fun _ s₃ h₃ => ?_
  refine ends_after_quiet (quiet_send fun _ => Encoder.states_assertGoal) h₃ leaves_error
    fun _ s₄ h₄ => ?_
  refine ends_bind (does_get (leaves_bmcFrom h₄ fun j hj => ?_))
  omega

end Strategy

/-! ## Runs of a checker -/

namespace Checker

open Strategy

variable {c : Checker} {a : Arena} {as : List Arena} {b : Backend}

/-- The length of the witness that is kept, or -1. -/
def depth (c : Checker) : Int :=
  match c.witness with
  | some d => d
  | none => -1

/-- The depth after a run is right: the number of the test that was answered `sat` if the run found
the goal, and else -1. -/
def DepthRight (c : Checker) (a : Arena) : Prop :=
  ((c.run a).outcome = .ok (some .reachable) → ∃ (d : Nat) (b : Backend) (session : Session),
    (c.run a).checker.depth = d ∧ a.backend? c.config = some b ∧
      (c.run a).session = some session ∧ SatAt b.lines session.process.received d) ∧
  ((c.run a).outcome ≠ .ok (some .reachable) → (c.run a).checker.depth = -1)

/-- The checker after runs in these surroundings. -/
def after (c : Checker) (as : List Arena) : Checker :=
  as.foldl (fun c a => (c.run a).checker) c

/-- The last run that started a solver found the goal. -/
def Stale (c : Checker) (as : List Arena) : Prop :=
  ∃ before a later, as = before ++ a :: later ∧
    ((c.after before).run a).outcome = .ok (some .reachable) ∧
    ∀ a' ∈ later, a'.backend? c.config = none

theorem depth_eq_iff : c.depth = -1 ↔ c.witness = none := by
  unfold depth
  split
  · next d hd =>
    rw [hd]
    constructor
    · intro hneg
      omega
    · intro hnone
      cases hnone
  · next hnone => simp [hnone]

/-- A run without a solver changes nothing in the checker. -/
theorem run_of_backend_none (h : a.backend? c.config = none) :
    (c.run a).outcome = .ok none ∧ (c.run a).checker = c := by
  have hfst := Arena.start_info a (c.label "RUNNING") c.config
  cases hstart : (a.info (c.label "RUNNING")).start c.config with
  | mk r a' =>
    cases r with
    | error reason =>
      rw [run, hstart]
      exact ⟨rfl, rfl⟩
    | ok x =>
      rw [hstart] at hfst
      rw [Arena.backend?, ← hfst] at h
      cases h

/-- A run with a solver leaves what the work of its strategy leaves. -/
theorem leaves_run (hmethod : c.method = .bmc) (hb : a.backend? c.config = some b) :
    ∃ session, (c.run a).session = some session ∧
      ((c.run a).outcome = .ok (some .reachable) → ∃ d, (c.run a).checker.witness = some d ∧
        SatAt b.lines session.process.received d) ∧
      ((c.run a).outcome ≠ .ok (some .reachable) → (c.run a).checker.witness = none) := by
  have hfst := Arena.start_info a (c.label "RUNNING") c.config
  cases hstart : (a.info (c.label "RUNNING")).start c.config with
  | mk r a' =>
    rw [hstart] at hfst
    rw [Arena.backend?, ← hfst] at hb
    cases r with
    | error reason => cases hb
    | ok x =>
      obtain ⟨b', -, hx, -⟩ := Arena.start_ok hstart
      obtain rfl : b' = b := by
        rw [hx] at hb
        exact Option.some.inj hb
      have hprocess : (c.enlist a' x).session.process = .start b' := by
        rw [enlist_process, hx]
      have hprove : c.prove = bmc c.encoder c.heedsBound := by
        unfold prove
        rw [hmethod]
      have hleaves : c.prove.Ends (c.enlist a' x) (Leaves b'.lines) := by
        rw [hprove]
        exact leaves_bmc hprocess
      rw [run_of_start hstart, leave_session, leave_witness]
      refine ⟨_, rfl, fun hfound => ?_, fun hother => ?_⟩
      · exact hleaves.found ((leave_verdict ..).mp hfound)
      · exact hleaves.other fun hr => hother ((leave_verdict ..).mpr hr)

theorem depthRight_of_backend (hmethod : c.method = .bmc) (hb : a.backend? c.config = some b) :
    c.DepthRight a := by
  obtain ⟨session, hsession, hfound, hother⟩ := leaves_run hmethod hb
  refine ⟨fun hr => ?_, fun hr => depth_eq_iff.mpr (hother hr)⟩
  obtain ⟨d, hd, hsat⟩ := hfound hr
  refine ⟨d, b, session, ?_, hb, hsession, hsat⟩
  unfold depth
  rw [hd]

theorem after_concat (c : Checker) (as : List Arena) (a : Arena) :
    c.after (as ++ [a]) = ((c.after as).run a).checker := by
  rw [after, List.foldl_append]
  rfl

theorem run_kept (c : Checker) (a : Arena) :
    (c.run a).checker.method = c.method ∧ (c.run a).checker.config = c.config := by
  cases hstart : (a.info (c.label "RUNNING")).start c.config with
  | mk r a' =>
    cases r with
    | error reason =>
      rw [run, hstart]
      exact ⟨rfl, rfl⟩
    | ok x =>
      rw [run_of_start hstart]
      unfold leave
      dsimp only
      split <;> exact ⟨rfl, rfl⟩

/-- Runs do not change the strategy or how solvers are started. -/
theorem after_kept (c : Checker) (as : List Arena) :
    (c.after as).method = c.method ∧ (c.after as).config = c.config := by
  induction as using List.reverseRecOn with
  | nil => exact ⟨rfl, rfl⟩
  | append_singleton as a ih =>
    obtain ⟨hmethod, hconfig⟩ := (c.after as).run_kept a
    rw [after_concat]
    exact ⟨hmethod.trans ih.1, hconfig.trans ih.2⟩

theorem concat_eq_append_cons {α : Type} {as before later : List α} {a x : α}
    (h : as ++ [a] = before ++ x :: later) : (before = as ∧ x = a ∧ later = []) ∨
      ∃ later', later = later' ++ [a] ∧ as = before ++ x :: later' := by
  rcases List.eq_nil_or_concat later with rfl | ⟨later', y, rfl⟩
  · obtain ⟨hbefore, hx⟩ := List.append_inj' h rfl
    exact .inl ⟨hbefore.symm, (List.head_eq_of_cons_eq hx).symm, rfl⟩
  · rw [List.concat_eq_append, ← List.cons_append, ← List.append_assoc] at h
    obtain ⟨has, hy⟩ := List.append_inj' h rfl
    rw [List.head_eq_of_cons_eq hy, List.concat_eq_append]
    exact .inr ⟨later', rfl, has⟩

/-- After a run that started a solver, it depends on this run whether a witness is kept. -/
theorem stale_concat_of_some (hb : a.backend? c.config = some b) :
    c.Stale (as ++ [a]) ↔ ((c.after as).run a).outcome = .ok (some .reachable) := by
  constructor
  · rintro ⟨before, x, later, heq, hfound, hnone⟩
    rcases concat_eq_append_cons heq with ⟨rfl, rfl, -⟩ | ⟨later', rfl, -⟩
    · exact hfound
    · rw [hnone a (by simp)] at hb
      cases hb
  · intro hfound
    exact ⟨as, a, [], rfl, hfound, by simp⟩

/-- A run that started no solver does not matter. -/
theorem stale_concat_of_none (hb : a.backend? c.config = none) :
    c.Stale (as ++ [a]) ↔ c.Stale as := by
  constructor
  · rintro ⟨before, x, later, heq, hfound, hnone⟩
    rcases concat_eq_append_cons heq with ⟨rfl, rfl, -⟩ | ⟨later', rfl, has⟩
    · rw [← (c.after_kept before).2] at hb
      rw [(run_of_backend_none hb).1] at hfound
      cases hfound
    · exact ⟨before, x, later', has, hfound, fun y hy => hnone y (by simp [hy])⟩
  · rintro ⟨before, x, later, rfl, hfound, hnone⟩
    refine ⟨before, x, later ++ [a], by simp, hfound, fun y hy => ?_⟩
    rcases List.mem_append.mp hy with hy | hy
    · exact hnone y hy
    · rw [List.mem_singleton.mp hy]
      exact hb

/-- A witness is kept if and only if the last run that started a solver found it. -/
theorem witness_after (hmethod : c.method = .bmc) (hfresh : c.witness = none)
    (as : List Arena) : (c.after as).witness ≠ none ↔ c.Stale as := by
  induction as using List.reverseRecOn with
  | nil =>
    constructor
    · exact fun h => absurd hfresh h
    · rintro ⟨before, a, later, heq, -⟩
      simp at heq
  | append_singleton as a ih =>
    obtain ⟨hmethod', hconfig⟩ := c.after_kept as
    rw [after_concat]
    cases hb : a.backend? c.config with
    | none => rw [stale_concat_of_none hb, (run_of_backend_none (hconfig ▸ hb)).2, ih]
    | some b =>
      obtain ⟨session, -, hfound, hother⟩ := leaves_run (hmethod'.trans hmethod) (hconfig ▸ hb)
      rw [stale_concat_of_some hb]
      constructor
      · exact fun hkept => not_not.mp fun hr => hkept (hother hr)
      · intro hr
        obtain ⟨d, hd, -⟩ := hfound hr
        rw [hd]
        exact Option.some_ne_none d

/-- **The depth of bounded model checking after any runs.** The depth after one more run is right,
unless that run starts no solver and the last run that did found the goal. For a run without a
solver has no verdict, and leaves the depth as it was. -/
theorem depthRight_iff (hmethod : c.method = .bmc) (hfresh : c.witness = none) (as : List Arena)
    (a : Arena) :
    ((c.after as).DepthRight a ↔ ¬ (a.backend? c.config = none ∧ c.Stale as)) ∧
      (a.backend? c.config = none → ((c.after as).run a).outcome = .ok none ∧
        ((c.after as).run a).checker.depth = (c.after as).depth) := by
  obtain ⟨hmethod', hconfig⟩ := c.after_kept as
  cases hb : a.backend? c.config with
  | some b =>
    have hright := depthRight_of_backend (hmethod'.trans hmethod) (hconfig ▸ hb)
    exact ⟨iff_of_true hright (by simp), by simp⟩
  | none =>
    obtain ⟨houtcome, hchecker⟩ := run_of_backend_none (c := c.after as) (hconfig ▸ hb)
    refine ⟨?_, fun _ => ⟨houtcome, by rw [hchecker]⟩⟩
    rw [DepthRight, houtcome, hchecker, depth_eq_iff, ← witness_after hmethod hfresh as]
    simp

/-- An arena without a solver. -/
def deserted : Arena where
  cohort := { workers := 1 }
  backends := [none]

/-- The second test finds the goal, and the depth is 1. It is still 1 after a run that starts no
solver, and it is forgotten by one whose solver gives no answer. -/
theorem depthRight_deserted :
    ((counterChecker .bmc 0 true).run (answering ["unsat", "sat"])).outcome =
        .ok (some .reachable) ∧
      (counterChecker .bmc 0 true).DepthRight (answering ["unsat", "sat"]) ∧
      ¬ ((counterChecker .bmc 0 true).after [answering ["unsat", "sat"]]).DepthRight deserted ∧
      ((counterChecker .bmc 0 true).after [answering ["unsat", "sat"]]).DepthRight
        (answering []) := by
  have hfound : ((counterChecker .bmc 0 true).run (answering ["unsat", "sat"])).outcome =
      .ok (some .reachable) := by decide +kernel
  have hstale : (counterChecker .bmc 0 true).Stale [answering ["unsat", "sat"]] :=
    ⟨[], _, [], rfl, hfound, by simp⟩
  refine ⟨hfound, ?_, ?_, ?_⟩
  · exact (depthRight_iff rfl rfl [] _).1.mpr fun h => absurd h.1 (by decide)
  · exact fun h => (depthRight_iff rfl rfl _ _).1.mp h ⟨rfl, hstale⟩
  · exact (depthRight_iff rfl rfl _ _).1.mpr fun h => absurd h.1 (by decide)

end Checker

end PetriReach
