import PetriReach.Proofs.Checker.Runs
import PetriReach.Proofs.Strategy.Moves

/-!
# What a run leaves around it

A run writes diagnostics, starts a solver and comes and goes in the cohort. What survives that
survives the run. Only k-induction writes into the bound cell, and no strategy decides a race.

* `Arena.Passage`, `Checker.run_passage`: how the surroundings of a run change.
* `Arena.Drift`: whatever happens short of a decision.
* `Checker.run_keeps`, `Checker.run_bounded`: what does not change.
-/

namespace PetriReach

open Work

/-- A relation between arenas that survives each single change that a run makes, but for what
k-induction publishes. -/
structure Arena.Passage (R : Arena → Arena → Prop) : Prop where
  refl : ∀ a, R a a
  trans : ∀ {a b c}, R a b → R b c → R a c
  emit : ∀ (a : Arena) (text : String), R a (a.emit text)
  elapse : ∀ a : Arena, R a a.elapse
  expire : ∀ a : Arena, R a a.expire
  enlist : ∀ (a : Arena) (id : Nat), R a { a with cohort := a.cohort.enlist id }
  withdraw : ∀ (a : Arena) (id : Nat), R a { a with cohort := a.cohort.withdraw id }
  start : ∀ (a : Arena) (bs : List (Option Backend)) (n : Nat),
    R a { a with backends := bs, started := n }

/-- A relation between arenas that survives every change that a conversation makes. -/
structure Arena.Drift (R : Arena → Arena → Prop) : Prop where
  refl : ∀ a, R a a
  trans : ∀ {a b c}, R a b → R b c → R a c
  emit : ∀ (a : Arena) (text : String), R a (a.emit text)
  elapse : ∀ a : Arena, R a a.elapse
  watchdog : ∀ (a : Arena) (w : Watchdog), R a { a with watchdog := w }
  cohort : ∀ (a : Arena) (c : Cohort Nat), c.conclusive = a.cohort.conclusive →
    R a { a with cohort := c }
  start : ∀ (a : Arena) (bs : List (Option Backend)) (n : Nat),
    R a { a with backends := bs, started := n }

/-- The agenda and the decision of the race stay as they are; what is to happen meanwhile was so
before. -/
structure Arena.Keeps (a a' : Arena) : Prop where
  agenda : a'.agenda = a.agenda
  conclusive : a'.cohort.conclusive = a.cohort.conclusive
  meanwhile : a'.meanwhile <:+ a.meanwhile

namespace Arena

theorem keeps_foldl (events : List Event) (a : Arena) : a.Keeps (events.foldl happen a) := by
  induction events generalizing a with
  | nil => exact ⟨rfl, rfl, List.suffix_refl _⟩
  | cons event events ih =>
    obtain ⟨hagenda, hconclusive, hmeanwhile⟩ := ih (a.happen event)
    cases event <;> exact ⟨hagenda, hconclusive, hmeanwhile⟩

theorem drift_keeps : Drift Keeps where
  refl _ := ⟨rfl, rfl, List.suffix_refl _⟩
  trans h h' := ⟨h'.agenda.trans h.agenda, h'.conclusive.trans h.conclusive,
    h'.meanwhile.trans h.meanwhile⟩
  emit a text := by
    obtain ⟨hagenda, hconclusive, hmeanwhile⟩ :=
      keeps_foldl _ { a with log := a.log ++ [Text.asLine text] }
    exact ⟨hagenda, hconclusive, hmeanwhile⟩
  elapse a := by
    unfold Arena.elapse
    cases hm : a.meanwhile with
    | nil => exact ⟨rfl, rfl, List.suffix_refl _⟩
    | cons events rest =>
      obtain ⟨hagenda, hconclusive, hmeanwhile⟩ := keeps_foldl events { a with meanwhile := rest }
      refine ⟨hagenda, hconclusive, ?_⟩
      rw [hm]
      exact hmeanwhile.trans (List.suffix_cons events rest)
  watchdog _ _ := ⟨rfl, rfl, List.suffix_refl _⟩
  cohort _ _ h := ⟨rfl, h, List.suffix_refl _⟩
  start _ _ _ := ⟨rfl, rfl, List.suffix_refl _⟩

theorem drift_bounded (P : Int → Prop) : Drift fun a a' => a.Bounded P → a'.Bounded P where
  refl _ h := h
  trans h h' := h' ∘ h
  emit _ text h := h.emit text
  elapse _ h := h.elapse
  watchdog _ _ h := ⟨h.cell, h.agenda, h.meanwhile⟩
  cohort _ _ _ h := ⟨h.cell, h.agenda, h.meanwhile⟩
  start _ _ _ h := ⟨h.cell, h.agenda, h.meanwhile⟩

namespace Passage

variable {R : Arena → Arena → Prop} (hR : Passage R)

include hR

theorem info (a : Arena) (text : String) : R a (a.info text) :=
  info_cases (p := R a) (hR.refl a) (hR.emit a) text

/-- A start changes nothing but the backends and their number. -/
theorem start_snd (a : Arena) (config : SolverConfig) : R a (a.start config).2 := by
  unfold Arena.start
  split
  · exact hR.start a _ _
  · exact hR.refl a

/-- A conversation changes its surroundings in no other way. -/
theorem course : Stage.Course fun s s' => R s.toArena s'.toArena where
  refl s := hR.refl _
  trans h h' := hR.trans h h'
  settle s := by
    rw [Stage.settle_toArena]
    exact hR.refl _
  elapse s := by
    rw [Stage.around, Stage.settle_toArena]
    exact hR.elapse _
  emit s text := by
    rw [Stage.around, Stage.settle_toArena]
    exact hR.emit _ text
  expire s := by
    rw [Stage.around, Stage.settle_toArena]
    exact hR.expire _
  kill _ := hR.refl _
  session _ _ _ := hR.refl _
  witness _ _ := hR.refl _

end Passage

namespace Drift

variable {R : Arena → Arena → Prop} (hR : Drift R)

include hR

theorem info (a : Arena) (text : String) : R a (a.info text) :=
  info_cases (p := R a) (hR.refl a) (hR.emit a) text

theorem expire (a : Arena) : R a a.expire :=
  hR.trans (hR.info a _) (hR.trans (hR.watchdog _ .expired) (hR.cohort _ _ rfl))

theorem passage : Passage R where
  refl := hR.refl
  trans := hR.trans
  emit := hR.emit
  elapse := hR.elapse
  expire := hR.expire
  enlist a _ := hR.cohort a _ rfl
  withdraw a _ := hR.cohort a _ rfl
  start := hR.start

end Drift

end Arena

/-! ## Runs -/

/-- A strategy moves the stage by steps of a conversation; k-induction also publishes. -/
theorem Stage.Course.prove {R : Stage → Stage → Prop} (hR : Course R) {c : Checker}
    (hpublish : c.method = .kInduction → ∀ (s : Stage) (n : Nat), R s
      { s with bound := s.bound.publish n }) : c.prove.Moves R := by
  unfold Checker.prove
  split
  · exact hR.stateEquation _
  · exact hR.induction _
  · exact hR.bmc _ _
  · next hk =>
    exact hR.bind (hR.send _) fun _ => hR.bind hR.get fun _ =>
      hR.kInductionFrom _ (hpublish hk) _ 0

namespace Checker

variable {c : Checker} {a : Arena}

/-- **How the surroundings of a run change.** -/
theorem run_passage {R : Arena → Arena → Prop} (hR : Arena.Passage R)
    (hpublish : c.method = .kInduction →
      ∀ (a : Arena) (n : Nat), R a { a with bound := a.bound.publish n }) :
    R a (c.run a).arena := by
  have hstart := hR.trans (hR.info a (c.label "RUNNING")) (hR.start_snd _ c.config)
  cases hs : (a.info (c.label "RUNNING")).start c.config with
  | mk result a' =>
    rw [hs] at hstart
    cases result with
    | error reason =>
      rw [run, hs]
      exact hR.trans hstart (hR.emit _ _)
    | ok session =>
      have henlist : R a (c.enlist a' session).toArena := by
        rw [enlist, Stage.settle_toArena]
        exact hR.trans hstart (hR.enlist _ _)
      have hprove := hR.course.prove (fun hk s n => hpublish hk s.toArena n) (c.enlist a' session)
      rw [run_of_start hs]
      generalize c.prove.start (c.enlist a' session) = r at hprove
      have hleft : R a { r.2.toArena with cohort := r.2.cohort.withdraw session.id } :=
        hR.trans henlist (hR.trans hprove (hR.withdraw _ _))
      unfold leave
      dsimp only
      split
      · exact hleft
      · exact hR.trans hleft (hR.info _ _)
      · exact hleft

/-- Without a solver there is no verdict, and nothing is published. -/
theorem run_of_no_session (h : (c.run a).session = none) :
    (c.run a).outcome = .ok none ∧
      ∀ {R : Arena → Arena → Prop}, Arena.Drift R → R a (c.run a).arena := by
  cases hs : (a.info (c.label "RUNNING")).start c.config with
  | mk result a' =>
    cases result with
    | ok session =>
      rw [run_of_start hs, leave_session] at h
      cases h
    | error reason =>
      rw [run, hs]
      refine ⟨rfl, fun {R} hR => ?_⟩
      have hstart := hR.trans (hR.info a (c.label "RUNNING")) (hR.passage.start_snd _ c.config)
      rw [hs] at hstart
      exact hR.trans hstart (hR.emit _ _)

/-- A run leaves the agenda and the decision of the race alone. -/
theorem run_keeps : a.Keeps (c.run a).arena :=
  run_passage Arena.drift_keeps.passage fun _ _ _ => ⟨rfl, rfl, List.suffix_refl _⟩

/-- Only k-induction writes into the bound cell. -/
theorem run_bounded {P : Int → Prop} (hc : c.method ≠ .kInduction) (h : a.Bounded P) :
    (c.run a).arena.Bounded P :=
  run_passage (Arena.drift_bounded P).passage (fun hk => absurd hk hc) h

theorem Run.verdict_eq_some {r : Run} {v : Verdict} :
    r.verdict = some v ↔ r.outcome = .ok (some v) := by
  unfold Run.verdict
  cases r.outcome with
  | ok verdict => simp
  | error fault => simp

end Checker

end PetriReach
