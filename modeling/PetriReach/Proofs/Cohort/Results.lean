import Mathlib.Tactic.Common
import PetriReach.Cohort.Muster

/-!
# Results in a cohort

What a cohort says is fixed by the results that its workers have handed in, in their order. The
first conclusive verdict counts; without one, the first worker that gave up is named. Registrations
and cancellations in between make no difference.

* `Cohort.lead`: the verdict that counts, with its method.
* `Cohort.Reflects`: the state of a cohort is the one that belongs to a list of results.
* `Muster.verdict_law`: the state after any operations.
-/

namespace PetriReach

namespace Cohort

/-- What workers hand in when they are done: the name of a method, and a verdict if there is one. -/
abbrev Results := List (String × Option Verdict)

/-- The verdicts among the results. -/
def verdicts (fs : Results) : List (String × Verdict) :=
  fs.filterMap fun f => f.2.map fun v => (f.1, v)

/-- The first conclusive verdict. -/
def firstConclusive (fs : Results) : Option (String × Verdict) :=
  (verdicts fs).find? fun x => x.2.isConclusive

/-- The first verdict of a worker that gave up. -/
def firstUnknown (fs : Results) : Option (String × Verdict) :=
  (verdicts fs).find? fun x => x.2 = .unknown

/-- The verdict that counts: the first conclusive one, or else the first of a worker that gave
up. -/
def lead (fs : Results) : Option (String × Verdict) :=
  (firstConclusive fs).or (firstUnknown fs)

/-- The state of the cohort is the one that belongs to `n` workers and these results. A worker that
gives up after a conclusive verdict leaves no trace, so `gaveUp` says something only without one. -/
structure Reflects {ι : Type} (c : Cohort ι) (n : Nat) (fs : Results) : Prop where
  workers : c.workers = n
  finished : c.finished = fs.length
  conclusive : c.conclusive = (firstConclusive fs).map (·.2)
  gaveUp : firstConclusive fs = none → c.gaveUp = (firstUnknown fs).isSome
  decidedBy : c.decidedBy = ((lead fs).map (·.1)).getD ""
  cancelled : c.conclusive.isSome = true → c.cancelled = true

section Lists

variable {fs gs : Results} {name : String} {v : Verdict}

theorem verdicts_append (fs gs : Results) : verdicts (fs ++ gs) = verdicts fs ++ verdicts gs :=
  List.filterMap_append

theorem firstConclusive_append (fs gs : Results) :
    firstConclusive (fs ++ gs) = (firstConclusive fs).or (firstConclusive gs) := by
  rw [firstConclusive, verdicts_append, List.find?_append]
  rfl

theorem firstUnknown_append (fs gs : Results) :
    firstUnknown (fs ++ gs) = (firstUnknown fs).or (firstUnknown gs) := by
  rw [firstUnknown, verdicts_append, List.find?_append]
  rfl

/-- A conclusive verdict is not taken back. -/
theorem lead_append_of_conclusive {x : String × Verdict} (h : firstConclusive fs = some x)
    (gs : Results) : lead (fs ++ gs) = some x := by
  rw [lead, firstConclusive_append, h]
  rfl

theorem lead_of_no_conclusive (h : firstConclusive fs = none) : lead fs = firstUnknown fs := by
  rw [lead, h, Option.none_or]

theorem firstConclusive_none (name : String) : firstConclusive [(name, none)] = none :=
  rfl

theorem firstUnknown_none (name : String) : firstUnknown [(name, none)] = none :=
  rfl

theorem firstConclusive_some (h : v.isConclusive = true) :
    firstConclusive [(name, some v)] = some (name, v) := by
  simp [firstConclusive, verdicts, h]

theorem firstConclusive_unknown (name : String) : firstConclusive [(name, some .unknown)] = none :=
  rfl

theorem firstUnknown_some (name : String) :
    firstUnknown [(name, some .unknown)] = some (name, .unknown) := by
  simp [firstUnknown, verdicts]

theorem eq_unknown (h : v.isConclusive = false) : v = .unknown := by
  cases v with
  | unknown => rfl
  | reachable => cases h
  | notReachable => cases h

theorem snd_firstUnknown {x : String × Verdict} (h : firstUnknown fs = some x) :
    x.2 = .unknown := by
  simpa using List.find?_some h

theorem isSome_firstConclusive : (firstConclusive fs).isSome = true ↔
    ∃ f ∈ fs, ∃ v, f.2 = some v ∧ v.isConclusive = true := by
  rw [firstConclusive, List.find?_isSome]
  constructor
  · rintro ⟨x, hx, hconclusive⟩
    obtain ⟨f, hf, hfx⟩ := List.mem_filterMap.mp hx
    obtain ⟨v, hv, rfl⟩ := Option.map_eq_some_iff.mp hfx
    exact ⟨f, hf, v, hv, hconclusive⟩
  · rintro ⟨f, hf, v, hv, hconclusive⟩
    refine ⟨(f.1, v), List.mem_filterMap.mpr ⟨f, hf, ?_⟩, hconclusive⟩
    rw [hv]
    rfl

end Lists

/-! ## One operation -/

variable {ι : Type} {c : Cohort ι} {n : Nat} {fs : Results}

theorem reflects_new (workers : Nat) : Reflects ({ workers } : Cohort ι) workers [] where
  workers := rfl
  finished := rfl
  conclusive := rfl
  gaveUp _ := rfl
  decidedBy := rfl
  cancelled h := by cases h

theorem Reflects.enlist (h : c.Reflects n fs) (i : ι) : (c.enlist i).Reflects n fs :=
  ⟨h.workers, h.finished, h.conclusive, h.gaveUp, h.decidedBy, h.cancelled⟩

theorem Reflects.withdraw [DecidableEq ι] (h : c.Reflects n fs) (i : ι) :
    (c.withdraw i).Reflects n fs :=
  ⟨h.workers, h.finished, h.conclusive, h.gaveUp, h.decidedBy, h.cancelled⟩

theorem Reflects.cancel (h : c.Reflects n fs) : c.cancel.Reflects n fs :=
  ⟨h.workers, h.finished, h.conclusive, h.gaveUp, h.decidedBy, fun _ => rfl⟩

theorem Reflects.isSome_conclusive (h : c.Reflects n fs) :
    c.conclusive.isSome = (firstConclusive fs).isSome := by
  rw [h.conclusive, Option.isSome_map]

theorem Reflects.length_concat (h : c.Reflects n fs) (f : String × Option Verdict) :
    c.finished + 1 = (fs ++ [f]).length := by
  rw [List.length_append, List.length_singleton, h.finished]

/-- A worker without a verdict is only counted. -/
theorem Reflects.finish_none (h : c.Reflects n fs) (name : String) :
    (c.finish name none).Reflects n (fs ++ [(name, none)]) := by
  have hconclusive : firstConclusive (fs ++ [(name, none)]) = firstConclusive fs := by
    rw [firstConclusive_append, firstConclusive_none, Option.or_none]
  have hunknown : firstUnknown (fs ++ [(name, none)]) = firstUnknown fs := by
    rw [firstUnknown_append, firstUnknown_none, Option.or_none]
  refine ⟨h.workers, h.length_concat _, ?_, ?_, ?_, h.cancelled⟩
  · rw [hconclusive]
    exact h.conclusive
  · rw [hconclusive, hunknown]
    exact h.gaveUp
  · rw [lead, hconclusive, hunknown]
    exact h.decidedBy

/-- Once there is a conclusive verdict, every other worker is only counted. -/
theorem Reflects.finish_late (h : c.Reflects n fs) {x : String × Verdict}
    (hx : firstConclusive fs = some x) (name : String) (v : Verdict) :
    (c.finish name (some v)).Reflects n (fs ++ [(name, some v)]) := by
  have hconclusive : firstConclusive (fs ++ [(name, some v)]) = some x := by
    rw [firstConclusive_append, hx, Option.some_or]
  have hsome : c.conclusive.isSome = true := by rw [h.isSome_conclusive, hx]; rfl
  have hfinish : c.finish name (some v) = { c with finished := c.finished + 1 } := by
    simp [finish, hsome]
  rw [hfinish]
  refine ⟨h.workers, h.length_concat _, ?_, ?_, ?_, h.cancelled⟩
  · rw [hconclusive, ← hx]
    exact h.conclusive
  · rw [hconclusive]
    nofun
  · have hlead : lead fs = some x := by rw [lead, hx, Option.some_or]
    rw [lead_append_of_conclusive hx, ← hlead]
    exact h.decidedBy

/-- The first conclusive verdict decides. -/
theorem Reflects.finish_first (h : c.Reflects n fs) (hnone : firstConclusive fs = none)
    (name : String) {v : Verdict} (hv : v.isConclusive = true) :
    (c.finish name (some v)).Reflects n (fs ++ [(name, some v)]) := by
  have hconclusive : firstConclusive (fs ++ [(name, some v)]) = some (name, v) := by
    rw [firstConclusive_append, hnone, Option.none_or, firstConclusive_some hv]
  have hopen : c.conclusive.isSome = false := by rw [h.isSome_conclusive, hnone]; rfl
  have hfinish : c.finish name (some v) =
      { c with
        finished := c.finished + 1
        conclusive := some v
        decidedBy := name
        cancelled := true } := by
    simp [finish, hopen, hv, Cohort.cancel]
  rw [hfinish]
  refine ⟨h.workers, h.length_concat _, ?_, ?_, ?_, fun _ => rfl⟩
  · rw [hconclusive]
    rfl
  · rw [hconclusive]
    nofun
  · rw [lead, hconclusive]
    rfl

/-- A worker that gives up is named if it is the first. -/
theorem Reflects.finish_unknown (h : c.Reflects n fs) (hnone : firstConclusive fs = none)
    (name : String) :
    (c.finish name (some .unknown)).Reflects n (fs ++ [(name, some .unknown)]) := by
  have hconclusive : firstConclusive (fs ++ [(name, some .unknown)]) = none := by
    rw [firstConclusive_append, hnone, Option.none_or, firstConclusive_unknown]
  have hopen : c.conclusive.isSome = false := by rw [h.isSome_conclusive, hnone]; rfl
  have hgaveUp := h.gaveUp hnone
  have hdecided := h.decidedBy
  rw [lead_of_no_conclusive hnone] at hdecided
  cases hfirst : firstUnknown fs with
  | some x =>
    rw [hfirst] at hgaveUp
    have hunknown : firstUnknown (fs ++ [(name, some .unknown)]) = some x := by
      rw [firstUnknown_append, hfirst, Option.some_or]
    have hfinish : c.finish name (some .unknown) = { c with finished := c.finished + 1 } := by
      simp [finish, hopen, hgaveUp, Verdict.isConclusive]
    rw [hfinish]
    refine ⟨h.workers, h.length_concat _, ?_, ?_, ?_, h.cancelled⟩
    · rw [hconclusive, ← hnone]
      exact h.conclusive
    · rw [hunknown]
      exact fun _ => hgaveUp
    · rw [lead_of_no_conclusive hconclusive, hunknown, ← hfirst]
      exact hdecided
  | none =>
    rw [hfirst] at hgaveUp
    have hunknown : firstUnknown (fs ++ [(name, some .unknown)]) = some (name, .unknown) := by
      rw [firstUnknown_append, hfirst, Option.none_or, firstUnknown_some]
    have hfinish : c.finish name (some .unknown) =
        { c with finished := c.finished + 1, gaveUp := true, decidedBy := name } := by
      have hfalse : c.gaveUp = false := hgaveUp
      simp [finish, hopen, hfalse, Verdict.isConclusive]
    rw [hfinish]
    refine ⟨h.workers, h.length_concat _, ?_, ?_, ?_, h.cancelled⟩
    · rw [hconclusive, ← hnone]
      exact h.conclusive
    · rw [hunknown]
      exact fun _ => rfl
    · rw [lead_of_no_conclusive hconclusive, hunknown]
      rfl

/-- **One more result.** -/
theorem Reflects.finish (h : c.Reflects n fs) (name : String) (verdict : Option Verdict) :
    (c.finish name verdict).Reflects n (fs ++ [(name, verdict)]) := by
  cases verdict with
  | none => exact h.finish_none name
  | some v =>
    cases hfirst : firstConclusive fs with
    | some x => exact h.finish_late hfirst name v
    | none =>
      cases hv : v.isConclusive with
      | true => exact h.finish_first hfirst name hv
      | false =>
        obtain rfl := eq_unknown hv
        exact h.finish_unknown hfirst name

/-- From `c` to `c'` no result was handed in: registrations came and went, and the race may have
been called off. -/
structure NoResult (c c' : Cohort ι) : Prop where
  rest : c' = { c with registered := c'.registered, cancelled := c'.cancelled }
  cancelled : c.cancelled = true → c'.cancelled = true

theorem NoResult.refl (c : Cohort ι) : c.NoResult c :=
  ⟨rfl, id⟩

theorem NoResult.trans {c c' c'' : Cohort ι} (h : c.NoResult c') (h' : c'.NoResult c'') :
    c.NoResult c'' := by
  refine ⟨?_, h'.cancelled ∘ h.cancelled⟩
  rw [h'.rest, h.rest]

theorem noResult_enlist (c : Cohort ι) (i : ι) : c.NoResult (c.enlist i) :=
  ⟨rfl, id⟩

theorem noResult_withdraw [DecidableEq ι] (c : Cohort ι) (i : ι) : c.NoResult (c.withdraw i) :=
  ⟨rfl, id⟩

theorem Reflects.noResult (h : c.Reflects n fs) {c' : Cohort ι} (h' : c.NoResult c') :
    c'.Reflects n fs := by
  have hcancelled := h'.cancelled
  rw [h'.rest] at hcancelled ⊢
  exact ⟨h.workers, h.finished, h.conclusive, h.gaveUp, h.decidedBy,
    fun hsome => hcancelled (h.cancelled hsome)⟩

/-! ## What the state says -/

theorem Reflects.outcome (h : c.Reflects n fs) : c.outcome = (lead fs).map (·.2) := by
  unfold Cohort.outcome
  cases hfirst : firstConclusive fs with
  | some x =>
    rw [h.conclusive, lead, hfirst]
    rfl
  | none =>
    rw [h.conclusive, lead_of_no_conclusive hfirst, hfirst, h.gaveUp hfirst]
    cases hunknown : firstUnknown fs with
    | none => rfl
    | some x =>
      have hx := snd_firstUnknown hunknown
      simp [hx]

theorem Reflects.isOver (h : c.Reflects n fs) : c.isOver = true ↔
    (∃ f ∈ fs, ∃ v, f.2 = some v ∧ v.isConclusive = true) ∨ n ≤ fs.length := by
  rw [Cohort.isOver, Bool.or_eq_true, h.isSome_conclusive, isSome_firstConclusive, h.workers,
    h.finished, decide_eq_true_eq]

end Cohort

/-! ## Operations one after another -/

namespace Muster

open Cohort

/-- The result that an operation hands in. -/
def Op.result? : Op → Option (String × Option Verdict)
  | .finish method verdict => some (method, verdict)
  | _ => none

/-- What becomes of a new cohort. -/
def after (workers : Nat) (ops : List Op) : Muster :=
  ops.foldl apply { cohort := { workers } }

/-- The results among the operations. -/
def results (ops : List Op) : Results :=
  ops.filterMap Op.result?

variable {m : Muster} {n : Nat} {fs : Results}

theorem cohort_settle (m : Muster) : m.settle.cohort = m.cohort := by
  have hfold : ∀ (names : List String) (m : Muster),
      (names.foldl killOne m).cohort = m.cohort := by
    intro names
    induction names with
    | nil => exact fun _ => rfl
    | cons name names ih => exact fun m => ih (m.killOne name)
  unfold settle
  split
  · exact hfold _ m
  · rfl

theorem reflects_release (h : m.cohort.Reflects n fs) (e : Option Enlistment) :
    (m.release e).cohort.Reflects n fs := by
  unfold release
  split
  · exact h.withdraw _
  · exact h

/-- An operation without a result changes nothing that the results fix. -/
theorem reflects_quiet (h : m.cohort.Reflects n fs) {op : Op} (hop : op.result? = none) :
    (m.apply op).cohort.Reflects n fs := by
  cases op with
  | finish method verdict => cases hop
  | cancel =>
    rw [apply, cohort_settle]
    exact h.cancel
  | enlist solver slot =>
    have henlist : (m.enlist solver).cohort.Reflects n fs := by
      rw [enlist, cohort_settle]
      exact h.enlist solver
    exact reflects_release henlist (m.held? slot)
  | withdraw slot => exact reflects_release h (m.held? slot)
  | move slot target =>
    unfold apply
    dsimp only
    split
    · exact h
    · exact reflects_release (m := m.hold slot none) h _
  | kill solver => exact h
  | look => exact h

/-- **One operation.** -/
theorem reflects_apply (h : m.cohort.Reflects n fs) (op : Op) :
    (m.apply op).cohort.Reflects n (fs ++ results [op]) := by
  cases hop : op.result? with
  | none =>
    rw [results, List.filterMap_cons_none hop, List.filterMap_nil, List.append_nil]
    exact reflects_quiet h hop
  | some f =>
    rw [results, List.filterMap_cons_some hop, List.filterMap_nil]
    cases op with
    | finish method verdict =>
      cases hop
      rw [apply, cohort_settle]
      exact h.finish method verdict
    | _ => cases hop

/-- **Any operations.** -/
theorem reflects_after (workers : Nat) (ops : List Op) :
    (after workers ops).cohort.Reflects workers (results ops) := by
  have hfold : ∀ (ops : List Op) {m : Muster} {fs : Results}, m.cohort.Reflects workers fs →
      (ops.foldl apply m).cohort.Reflects workers (fs ++ results ops) := by
    intro ops
    induction ops with
    | nil =>
      intro m fs h
      rw [results, List.filterMap_nil, List.append_nil]
      exact h
    | cons op ops ih =>
      intro m fs h
      have hrest := ih (reflects_apply h op)
      rwa [List.append_assoc, results, results, ← List.filterMap_append] at hrest
  exact hfold ops (m := { cohort := { workers } }) (reflects_new workers)

/-- **The verdict law.** Whatever is done with a new cohort, in any order, its outcome is the first
conclusive verdict that was handed in, or `unknown` if a worker gave up, and its method is that of
the verdict that counts. It is over once there is a conclusive verdict or every worker is done. A
conclusive verdict cancels it, and is not replaced by anything that follows. -/
theorem verdict_law (workers : Nat) (ops : List Op) :
    (after workers ops).cohort.outcome = (lead (results ops)).map (·.2) ∧
    (after workers ops).cohort.decidedBy = ((lead (results ops)).map (·.1)).getD "" ∧
    ((after workers ops).cohort.isOver = true ↔
      (∃ f ∈ results ops, ∃ v, f.2 = some v ∧ v.isConclusive = true) ∨
        workers ≤ (results ops).length) ∧
    (after workers ops).cohort.conclusive = (firstConclusive (results ops)).map (·.2) ∧
    ∀ v, (after workers ops).cohort.conclusive = some v →
      (after workers ops).cohort.cancelled = true ∧ ∀ later,
        (after workers (ops ++ later)).cohort.conclusive = some v ∧
        (after workers (ops ++ later)).cohort.outcome = some v ∧
        (after workers (ops ++ later)).cohort.decidedBy = (after workers ops).cohort.decidedBy := by
  have hnow := reflects_after workers ops
  refine ⟨hnow.outcome, hnow.decidedBy, hnow.isOver, hnow.conclusive, fun v hv => ?_⟩
  refine ⟨hnow.cancelled (by rw [hv]; rfl), fun later => ?_⟩
  have hlater := reflects_after workers (ops ++ later)
  rw [results, List.filterMap_append, ← results, ← results] at hlater
  rw [hnow.conclusive] at hv
  obtain ⟨x, hx, rfl⟩ := Option.map_eq_some_iff.mp hv
  have hlead : lead (results ops) = some x := by rw [lead, hx, Option.some_or]
  refine ⟨?_, ?_, ?_⟩
  · rw [hlater.conclusive, firstConclusive_append, hx]
    rfl
  · rw [hlater.outcome, lead_append_of_conclusive hx]
    rfl
  · rw [hlater.decidedBy, lead_append_of_conclusive hx, hnow.decidedBy, hlead]

/-- Operations in which a worker gives up, one decides while a solver is registered, and another
contradicts it. -/
def contested : List Op :=
  [.finish "INDUCTION" (some .unknown), .enlist "z3" "slot", .finish "BMC" (some .reachable)]

/-- A later contradiction changes nothing. -/
theorem contested_decided :
    (after 3 contested).cohort.conclusive = some .reachable ∧
    (after 3 contested).cohort.cancelled = true ∧
    (after 3 (contested ++ [.finish "STATE-EQUATION" (some .notReachable)])).cohort.outcome =
      some .reachable ∧
    (after 3 (contested ++ [.finish "STATE-EQUATION" (some .notReachable)])).cohort.decidedBy =
      "BMC" := by
  have hdecided : (after 3 contested).cohort.conclusive = some .reachable := by decide
  obtain ⟨-, hmethod, -, -, hlaw⟩ := verdict_law 3 contested
  obtain ⟨hcancelled, hlater⟩ := hlaw .reachable hdecided
  obtain ⟨-, houtcome, hsame⟩ := hlater [.finish "STATE-EQUATION" (some .notReachable)]
  exact ⟨hdecided, hcancelled, houtcome, hsame.trans (hmethod.trans (by decide))⟩

end Muster

end PetriReach
