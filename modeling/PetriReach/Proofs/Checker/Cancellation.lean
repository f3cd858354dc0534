import PetriReach.Proofs.Checker.Surroundings
import PetriReach.Proofs.Solver.Twins

/-!
# Cancellation

A cancellation can take the verdict of a run away, but never change it: whenever it breaks in, the
run has the verdict that it has without, or none. In any case the run ends with its solver killed
and withdrawn.

* `Strategy.agree_bmc` and its like: the work of a strategy on twin stages.
* `Checker.run_of_milder`: a run with some of its cancellations left out.
-/

namespace PetriReach

open Work

namespace Strategy

variable {fuel : Nat} {s₀ s : Stage} {e : Encoder}

/-- A poll for cancellation: the one that sees it has no verdict, and else neither sees it. -/
theorem agree_poll (h : Twin fuel s₀ s) {w : Work (Option Verdict)}
    (hw : Agree (w.start s₀) (w.start s)) :
    Agree ((if s₀.cohort.cancelled = true then pure none else w : Work (Option Verdict)).start s₀)
      ((if s.cohort.cancelled = true then pure none else w : Work (Option Verdict)).start s) := by
  by_cases hcancelled : s.cohort.cancelled = true
  · rw [if_pos hcancelled]
    exact .unsettled _ s
  · have hcancelled₀ : ¬ s₀.cohort.cancelled = true := mt h.arena.cancelled hcancelled
    rw [if_neg hcancelled, if_neg hcancelled₀]
    exact hw

/-! ## Bounded model checking -/

theorem mute_bmcFrom (e : Encoder) (heedsBound : Bool) (k : Nat) (hfuel : 0 < fuel) :
    (bmcFrom e heedsBound fuel k).Mute := by
  obtain ⟨n, rfl⟩ := Nat.exists_eq_succ_of_ne_zero (Nat.ne_of_gt hfuel)
  rw [bmcFrom_succ]
  exact mute_info _ (mute_checkSat true)

theorem agree_bmcFrom (heedsBound : Bool) {k : Nat} (h : Twin fuel s₀ s) :
    Agree ((bmcFrom e heedsBound fuel k).start s₀) ((bmcFrom e heedsBound fuel k).start s) := by
  induction fuel generalizing k s₀ s with
  | zero => exact absurd h.stock (Nat.not_lt_zero _)
  | succ fuel ih =>
    rw [bmcFrom_succ]
    refine agree_info h _ fun h => agree_checkSat h true fun {s₀ s} w h => ?_
    have hrest : Agree ((bmcNext e heedsBound fuel k .unsat).start s₀)
        ((bmcNext e heedsBound fuel k .unsat).start s) := by
      have hbound : boundReached heedsBound s₀ k = boundReached heedsBound s k := by
        rw [boundReached, h.arena.bound, ← boundReached]
      have hfuel : 0 < fuel := Nat.zero_lt_of_lt h.stock
      unfold bmcNext
      dsimp only
      rw [start_bind, start_get, start_bind, start_get]
      dsimp only
      rw [hbound]
      split
      · exact agree_info h _ fun h => .verdict _ h.witness
      · refine agree_poll h ?_
        refine agree_pop h (fun h => ?_) (moot_send _)
        refine agree_send h _ (fun h => ?_) (moot_send _)
        refine agree_send h _ (fun h => ?_) (.inl mute_push)
        refine agree_push h (fun h => ?_) (moot_send _)
        exact agree_send h _ ih (.inl (mute_bmcFrom e heedsBound _ hfuel))
    cases w with
    | sat => exact agree_info h _ fun h => .verdict _ rfl
    | unsat => exact hrest
    | unknown => exact hrest

theorem agree_bmc (heedsBound : Bool) (h : Twin fuel s₀ s) :
    Agree ((bmc e heedsBound).start s₀) ((bmc e heedsBound).start s) := by
  have h : Twin fuel { s₀ with witness := none } { s with witness := none } :=
    ⟨h.arena, h.session, rfl, h.enlisted, h.killed, h.killed₀, h.stock⟩
  unfold bmc
  rw [start_bind, start_modify, start_bind, start_modify]
  refine agree_send h _ (fun h => ?_) (moot_send _)
  refine agree_send h _ (fun h => ?_) (.inl mute_push)
  refine agree_push h (fun h => ?_) (moot_send _)
  refine agree_send h _ (fun {s₀ s} h => ?_) (.inl (mute_get fun s => ?_))
  · rw [start_bind, start_get, start_bind, start_get]
    dsimp only
    rw [h.process]
    exact agree_bmcFrom heedsBound h.refuel
  · exact mute_bmcFrom e heedsBound 0 (Nat.succ_pos _)

/-! ## K-induction -/

theorem mute_kInductionFrom (e : Encoder) (k : Nat) (hfuel : 0 < fuel) :
    (kInductionFrom e fuel k).Mute := by
  obtain ⟨n, rfl⟩ := Nat.exists_eq_succ_of_ne_zero (Nat.ne_of_gt hfuel)
  exact mute_poll _

theorem agree_kInductionFrom {k : Nat} (h : Twin fuel s₀ s) :
    Agree ((kInductionFrom e fuel k).start s₀) ((kInductionFrom e fuel k).start s) := by
  induction fuel generalizing k s₀ s with
  | zero => exact absurd h.stock (Nat.not_lt_zero _)
  | succ fuel ih =>
    unfold kInductionFrom
    rw [start_bind, start_get, start_bind, start_get]
    refine agree_poll h ?_
    refine agree_info h _ fun h => agree_push h (fun h => ?_) (moot_send _)
    refine agree_send h _ (fun h => ?_) (.inl (mute_checkSat true))
    refine agree_checkSat h true fun {s₀ s} w h => ?_
    have hfuel : 0 < fuel := Nat.zero_lt_of_lt h.stock
    split
    · exact .unsettled _ _
    · refine agree_pop h (fun h => ?_) (moot_send _)
      refine agree_send h _ (fun h => ?_) (moot_send _)
      refine agree_send h _ (fun h => ?_) (moot_send _)
      exact agree_send h _ ih (.inl (mute_kInductionFrom e _ hfuel))

theorem agree_kInduction (h : Twin fuel s₀ s) :
    Agree ((kInduction e).start s₀) ((kInduction e).start s) := by
  unfold kInduction
  refine agree_send h _ (fun {s₀ s} h => ?_) (.inl (mute_get fun s => ?_))
  · rw [start_bind, start_get, start_bind, start_get]
    dsimp only
    rw [h.process]
    exact agree_kInductionFrom h.refuel
  · exact mute_kInductionFrom e 0 (Nat.succ_pos _)

/-! ## Induction and state equation -/

theorem agree_inductionStep (h : Twin (fuel + 1) s₀ s) :
    Agree ((inductionStep e).start s₀) ((inductionStep e).start s) := by
  refine agree_send h _ (fun h => ?_) (moot_send _)
  refine agree_send h _ (fun h => ?_) (moot_send _)
  refine agree_send h _ (fun h => ?_) (moot_send _)
  refine agree_send h _ (fun h => ?_) (.inl (mute_checkSat false))
  refine agree_checkSat h false fun w h => ?_
  split <;> exact .verdict _ h.witness

theorem agree_induction (h : Twin (fuel + 2) s₀ s) :
    Agree ((induction e).start s₀) ((induction e).start s) := by
  refine agree_send h _ (fun h => ?_) (.inl mute_push)
  refine agree_push h (fun h => ?_) (moot_send _)
  refine agree_send h _ (fun h => ?_) (moot_send _)
  refine agree_send h _ (fun h => ?_) (.inl (mute_checkSat true))
  refine agree_checkSat h true fun w h => ?_
  split
  · exact .verdict _ h.witness
  · exact agree_pop h (fun h => agree_poll h (agree_inductionStep h)) (.inl (mute_poll _))

theorem agree_stateEquation (h : Twin (fuel + 1) s₀ s) :
    Agree ((stateEquation e).start s₀) ((stateEquation e).start s) := by
  refine agree_send h _ (fun h => ?_) (moot_send _)
  refine agree_send h _ (fun h => ?_) (moot_send _)
  refine agree_send h _ (fun h => ?_) (moot_send _)
  refine agree_send h _ (fun h => ?_) (.inl (mute_checkSat false))
  refine agree_checkSat h false fun w h => ?_
  split <;> exact .verdict _ h.witness

end Strategy

/-! ## Runs -/

namespace Arena

variable {a₀ a : Arena}

theorem start_recast (agenda : List (Nat × Event)) (meanwhile : List (List Event))
    (cancelled : Bool) (config : SolverConfig) :
    (a.recast agenda meanwhile cancelled).start config =
      ((a.start config).1, (a.start config).2.recast agenda meanwhile cancelled) := by
  unfold Arena.start
  cases config.takes <;> rfl

/-- A start changes nothing but the backends and their number. -/
theorem start_snd (a : Arena) (config : SolverConfig) :
    ∃ backends started, (a.start config).2 = { a with backends, started } := by
  unfold Arena.start
  split <;> exact ⟨_, _, rfl⟩

/-- A solver starts in milder surroundings if and only if it starts in the others. -/
theorem Milder.start (h : a₀.Milder a) (config : SolverConfig) :
    (a₀.start config).1 = (a.start config).1 ∧
      (a₀.start config).2.Milder (a.start config).2 := by
  have hstart : a₀.start config = ((a.start config).1,
      (a.start config).2.recast a₀.agenda a₀.meanwhile a₀.cohort.cancelled) := by
    rw [← start_recast, ← h.rest]
  obtain ⟨backends, started, hsnd⟩ := a.start_snd config
  rw [hstart, hsnd]
  exact ⟨rfl, rfl, h.published, h.cancels, h.publishedMeanwhile, h.cancelsMeanwhile, h.cancelled⟩

end Arena

namespace Checker

variable {c : Checker} {a₀ a : Arena}

/-- New conversations in milder surroundings are twins. -/
theorem twin_enlist (h : a₀.Milder a) (c : Checker) {session : Session}
    (halive : session.killed = false) : Twin (session.process.stock + 2)
      (c.enlist a₀ session) (c.enlist a session) := by
  have hkilled : ∀ {p : Prop}, session.killed = true → p := fun hk => by simp [hk] at halive
  refine Twin.settle ⟨?_, h.published, h.cancels, h.publishedMeanwhile, h.cancelsMeanwhile,
    h.cancelled⟩ ⟨session.switch, rfl⟩ rfl ?_ hkilled hkilled (by simp)
  · exact congrArg (fun x : Arena => { x with cohort := x.cohort.enlist session.id }) h.rest
  · exact List.mem_append_right _ List.mem_cons_self

theorem agree_prove {fuel : Nat} {s₀ s : Stage} (h : Twin (fuel + 2) s₀ s) :
    Agree (c.prove.start s₀) (c.prove.start s) := by
  unfold prove
  split
  · exact Strategy.agree_stateEquation h
  · exact Strategy.agree_induction h
  · exact Strategy.agree_bmc _ h
  · exact Strategy.agree_kInduction h

/-- The runs that ends of twin conversations leave. -/
theorem leave_of_agree {r₀ r : Except Fault (Option Verdict) × Stage} (h : Agree r₀ r)
    (c : Checker) (id : Nat) :
    (∀ v, (c.leave id r.1 r.2).outcome = .ok (some v) →
      (c.leave id r₀.1 r₀.2).outcome = .ok (some v) ∧
      (c.leave id r₀.1 r₀.2).checker.witness = (c.leave id r.1 r.2).checker.witness) ∧
    ((c.leave id r.1 r.2).outcome = (c.leave id r₀.1 r₀.2).outcome ∨
      (c.leave id r.1 r.2).outcome = .ok none ∨
      ∃ e, (c.leave id r.1 r.2).outcome = .error (.encoding e) ∧
        (c.leave id r₀.1 r₀.2).outcome = .ok none) := by
  cases h with
  | verdict v hwitness =>
    refine ⟨fun v hv => ⟨hv, ?_⟩, .inl rfl⟩
    rw [leave_witness, leave_witness]
    exact hwitness
  | fault e s₀ s =>
    cases e with
    | aborted reason => exact ⟨nofun, .inl rfl⟩
    | encoding e => exact ⟨nofun, .inl rfl⟩
    | unmatchedPop => exact ⟨nofun, .inl rfl⟩
    | stuck => exact ⟨nofun, .inl rfl⟩
  | unsettled r₀ s => exact ⟨nofun, .inr (.inl rfl)⟩
  | aborted r₀ reason s => exact ⟨nofun, .inr (.inl rfl)⟩
  | unwritable reason e s₀ s => exact ⟨nofun, .inr (.inr ⟨e, rfl, rfl⟩)⟩

theorem leave_not_aborted (c : Checker) (id : Nat) (r : Except Fault (Option Verdict)) (s : Stage)
    (reason : Abort) : (c.leave id r s).outcome ≠ .error (.aborted reason) := by
  unfold leave
  dsimp only
  split
  · exact nofun
  · exact nofun
  · next fault hfault =>
    intro h
    exact hfault reason (Except.error.inj h)

theorem leave_registered (c : Checker) (id : Nat) (r : Except Fault (Option Verdict)) (s : Stage) :
    (c.leave id r s).arena.cohort.registered = s.cohort.registered.filter (· ≠ id) := by
  unfold leave
  dsimp only
  split
  · rfl
  · rw [Arena.registered_info]
    rfl
  · rfl

/-- **A cancellation takes a verdict away or leaves it as it is.** With some of its cancellations
left out a run has the same outcome, unless it had no verdict before; an error of the encoder may
stand in for a solver that is gone. In any case no conversation that is broken off goes beyond the
run, and the solver is left killed and withdrawn. -/
theorem run_of_milder (c : Checker) (h : a₀.Milder a) :
    (∀ v, (c.run a).outcome = .ok (some v) → (c.run a₀).outcome = .ok (some v) ∧
      (c.run a₀).checker.witness = (c.run a).checker.witness) ∧
    ((c.run a).outcome = (c.run a₀).outcome ∨ (c.run a).outcome = .ok none ∨
      ∃ e, (c.run a).outcome = .error (.encoding e) ∧ (c.run a₀).outcome = .ok none) ∧
    (∀ reason, (c.run a).outcome ≠ .error (.aborted reason)) ∧
    ∀ session, (c.run a).session = some session →
      session.killed = true ∧ session.id ∉ (c.run a).arena.cohort.registered := by
  obtain ⟨hsame, hmilder⟩ := (h.info (c.label "RUNNING")).start c.config
  cases hstart : (a.info (c.label "RUNNING")).start c.config with
  | mk r a' =>
    cases r with
    | error reason =>
      have hrun : (c.run a).outcome = .ok none := by rw [run, hstart]
      rw [hrun, run_of_no_start hstart]
      exact ⟨by simp, .inr (.inl rfl), by simp, by simp⟩
    | ok x =>
      rw [hstart] at hsame hmilder
      obtain ⟨b, -, hx, -⟩ := Arena.start_ok hstart
      have hrun := run_of_start hstart
      have hstart₀ : (a₀.info (c.label "RUNNING")).start c.config =
          (.ok x, ((a₀.info (c.label "RUNNING")).start c.config).2) := Prod.ext hsame rfl
      have hrun₀ := run_of_start hstart₀
      have halive : x.killed = false := by
        rw [hx]
        rfl
      have hagree := agree_prove (c := c) (twin_enlist hmilder c halive)
      rw [hrun, hrun₀]
      refine ⟨(leave_of_agree hagree c x.id).1, (leave_of_agree hagree c x.id).2,
        leave_not_aborted c x.id _ _, fun session hsession => ?_⟩
      rw [leave_session, Option.some.injEq] at hsession
      subst hsession
      refine ⟨Session.killed_kill _, ?_⟩
      have hid : (c.prove.start (c.enlist a' x)).2.session.id = x.id := by
        have hlater := Stage.course_later.prove (c := c)
          (fun _ s _ => Session.Later.refl s.session) (c.enlist a' x)
        exact hlater.id.trans (Stage.settle_id _)
      show (c.prove.start (c.enlist a' x)).2.session.id ∉ _
      rw [leave_registered, hid]
      simp

/-- Surroundings in which a search for a count is cancelled with diagnostic number `n`. -/
def interrupted (n : Nat) : Arena :=
  { answering ["unsat", "sat"] with verbose := true, agenda := [(n, .cancel)] }

/-- The same surroundings without the cancellation. -/
def uninterrupted : Arena :=
  { answering ["unsat", "sat"] with verbose := true }

theorem milder_interrupted (n : Nat) : uninterrupted.Milder (interrupted n) :=
  ⟨rfl, rfl, by simp [uninterrupted, answering], rfl, by simp [uninterrupted, answering], nofun⟩

theorem interrupted_digest : ((counterChecker .bmc 0 false).run (interrupted 4)).digest =
    (.ok (some .reachable), some 1, some 2, -1) := by
  decide +kernel

/-- A search that is cancelled when it reports its witness has the verdict and the witness that it
has without. -/
theorem run_of_milder_counter :
    ((counterChecker .bmc 0 false).run (interrupted 4)).outcome = .ok (some .reachable) ∧
    ((counterChecker .bmc 0 false).run uninterrupted).outcome = .ok (some .reachable) ∧
    ((counterChecker .bmc 0 false).run uninterrupted).checker.witness = some 1 := by
  obtain ⟨hverdict, hwitness, -, -⟩ := Run.of_digest interrupted_digest
  obtain ⟨hsame, -⟩ := run_of_milder (counterChecker .bmc 0 false) (milder_interrupted 4)
  obtain ⟨hverdict₀, hwitness₀⟩ := hsame .reachable hverdict
  exact ⟨hverdict, hverdict₀, hwitness₀.trans hwitness⟩

end Checker

end PetriReach
