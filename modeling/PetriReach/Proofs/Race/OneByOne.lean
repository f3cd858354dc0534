import PetriReach.Proofs.Checker.Mirrors
import PetriReach.Proofs.Race.Crews

/-!
# One after another

Running the checkers of a race one after another is one of the courses that the race can take: each
worker begins when the one before it has handed in its result, and notices all that has happened by
then. If its solver is silent, the time budget runs out first.

* `Arena.matching`: what a worker sees of the race, and what the same checker sees in its turn.
* `Race.State.Matches`: a race and a crew that have come equally far.
* `Race.run_is_course`: the course that comes to the same as the run.
-/

namespace PetriReach

open Cohort

/-! ## Surroundings -/

/-- The bound cell after what has happened. -/
def Event.cell (events : List Event) : Bound :=
  (events.filterMap Event.bound?).foldl Bound.publish {}

namespace Arena

variable {a a' : Arena}

theorem emit_of_undisturbed (h : a.Undisturbed) (text : String) :
    a.emit text = { a with log := a.log ++ [Text.asLine text] } := by
  unfold emit
  rw [h.agenda]
  rfl

theorem info_of_undisturbed (h : a.Undisturbed) (text : String) :
    ∃ log, a.info text = { a with log } := by
  unfold info
  split
  · exact ⟨_, emit_of_undisturbed h text⟩
  · exact ⟨a.log, rfl⟩

theorem info_of_silent (h : a.verbose = false) (text : String) : a.info text = a := by
  unfold info
  rw [h]
  rfl

theorem elapse_of_undisturbed (h : a.Undisturbed) : a.elapse = a := by
  unfold elapse
  rw [h.meanwhile]

/-- Undisturbed surroundings with the same bound that are both called off or both not. The watchdogs
agree if `P` holds. -/
structure Matched (P : Prop) (a a' : Arena) : Prop where
  quiet : a.Undisturbed
  quiet' : a'.Undisturbed
  bound : a'.bound = a.bound
  cancelled : a'.cohort.cancelled = a.cohort.cancelled
  watchdog : P → a'.watchdog = a.watchdog

variable {P : Prop}

theorem Matched.emit (h : Matched P a a') (text : String) :
    Matched P (a.emit text) (a'.emit text) := by
  rw [emit_of_undisturbed h.quiet, emit_of_undisturbed h.quiet']
  exact ⟨h.quiet, h.quiet', h.bound, h.cancelled, h.watchdog⟩

theorem Matched.info (h : Matched P a a') (text : String) :
    Matched P (a.info text) (a'.info text) := by
  obtain ⟨log, hlog⟩ := info_of_undisturbed h.quiet text
  obtain ⟨log', hlog'⟩ := info_of_undisturbed h.quiet' text
  rw [hlog, hlog']
  exact ⟨h.quiet, h.quiet', h.bound, h.cancelled, h.watchdog⟩

/-- Surroundings that match. -/
def matching (P : Prop) : Mirror where
  rel := Matched P
  bound h := h.bound
  cancelled h := h.cancelled
  emit text h := h.emit text
  info text h := h.info text
  elapse h := by rwa [elapse_of_undisturbed h.quiet, elapse_of_undisturbed h.quiet']
  timeout h := ⟨h.quiet, h.quiet', h.bound, rfl, fun _ => rfl⟩
  publish _ h := ⟨h.quiet, h.quiet', rfl, h.cancelled, h.watchdog⟩
  enlist _ _ h := ⟨h.quiet, h.quiet', h.bound, h.cancelled, h.watchdog⟩
  withdraw _ _ h := ⟨h.quiet, h.quiet', h.bound, h.cancelled, h.watchdog⟩

/-- Where the same backend is next, matching surroundings start the same solver. -/
theorem Matched.start (h : Matched P a a') {config : SolverConfig}
    (hprograms : a'.programs = a.programs)
    (hnext : config.launch a.programs (a'.backends.head?.getD (some {})) =
      config.launch a.programs (a.backends.head?.getD (some {})))
    (hwaits : a.cohort.cancelled = true ∨ a'.watchdog = a.watchdog) :
    StartsAlike (matching P) config a a' := by
  obtain ⟨backends, started, hsnd⟩ := a.start_snd config
  obtain ⟨backends', started', hsnd'⟩ := a'.start_snd config
  refine ⟨?_, ?_, ?_⟩
  · unfold Arena.start
    dsimp only
    rw [hprograms, hnext]
    cases config.launch a.programs (a.backends.head?.getD (some {})) with
    | error reason => rfl
    | ok b => rfl
  · rw [hsnd, hsnd']
    exact ⟨h.quiet, h.quiet', h.bound, h.cancelled, h.watchdog⟩
  · rw [hsnd, hsnd']
    exact hwaits

end Arena

/-! ## Runs -/

/-- What an undisturbed run leaves: a bound only if k-induction found one, and the race called off
only if the time budget ran out. -/
structure Arena.PassedBy (c : Checker) (a a' : Arena) : Prop where
  quiet : a'.Undisturbed
  programs : a'.programs = a.programs
  bound : a'.bound = a.bound ∨ c.method = .kInduction ∧ 0 ≤ a'.bound.value
  watch : a'.watchdog = a.watchdog ∧ a'.cohort.cancelled = a.cohort.cancelled ∨
    a'.watchdog = .expired ∧ a'.cohort.cancelled = true

theorem Arena.passage_passedBy (c : Checker) :
    Passage fun a a' => a.Undisturbed → PassedBy c a a' where
  refl _ h := ⟨h, rfl, .inl rfl, .inl ⟨rfl, rfl⟩⟩
  trans {a b d} hab hbd h := by
    have h₁ := hab h
    have h₂ := hbd h₁.quiet
    refine ⟨h₂.quiet, h₂.programs.trans h₁.programs, ?_, ?_⟩
    · rcases h₂.bound with hbound | hfound
      · rw [hbound]
        exact h₁.bound
      · exact .inr hfound
    · rcases h₂.watch with ⟨hwatchdog, hcancelled⟩ | hexpired
      · rw [hwatchdog, hcancelled]
        exact h₁.watch
      · exact .inr hexpired
  emit a text h := by
    rw [emit_of_undisturbed h]
    exact ⟨h, rfl, .inl rfl, .inl ⟨rfl, rfl⟩⟩
  elapse a h := by
    rw [elapse_of_undisturbed h]
    exact ⟨h, rfl, .inl rfl, .inl ⟨rfl, rfl⟩⟩
  expire a h := by
    obtain ⟨log, hlog⟩ := info_of_undisturbed h "time budget exhausted"
    unfold expire
    rw [hlog]
    exact ⟨h, rfl, .inl rfl, .inr ⟨rfl, rfl⟩⟩
  enlist _ _ h := ⟨h, rfl, .inl rfl, .inl ⟨rfl, rfl⟩⟩
  withdraw _ _ h := ⟨h, rfl, .inl rfl, .inl ⟨rfl, rfl⟩⟩
  start _ _ _ h := ⟨h, rfl, .inl rfl, .inl ⟨rfl, rfl⟩⟩

theorem Checker.passedBy_run (c : Checker) {a : Arena} (h : a.Undisturbed) :
    Arena.PassedBy c a (c.run a).arena :=
  run_passage (Arena.passage_passedBy c)
    (fun hk _ n h => ⟨h, rfl, .inr ⟨hk, Int.natCast_nonneg n⟩, .inl ⟨rfl, rfl⟩⟩) h

/-- The cell that a worker leaves, from what had happened and what it publishes. -/
theorem Event.cell_append_poll {events : List Event} {b : Bound}
    (h : b = cell events ∨ 0 ≤ b.value) :
    cell (events ++ b.poll.toList.map .publish) = b := by
  unfold cell
  rw [List.filterMap_append, List.foldl_append]
  unfold Bound.poll
  split
  · next hneg => exact (h.resolve_right (by omega)).symm
  · rfl

theorem Event.cell_append {events more : List Event} (h : ∀ n, .publish n ∉ more) :
    cell (events ++ more) = cell events := by
  have hnone : more.filterMap Event.bound? = [] := by
    rw [List.filterMap_eq_nil_iff]
    intro event hevent
    cases event with
    | cancel => rfl
    | publish n => exact absurd hevent (h n)
  unfold cell
  rw [List.filterMap_append, hnone, List.append_nil]

/-! ## States -/

namespace Race

variable {s : State} {c : Checker} {bs : List (Option Backend)} {config : SolverConfig}

/-- The state after a checker that nothing from outside disturbed. -/
theorem step_of_undisturbed (h : s.arena.Undisturbed) : ∃ log,
    (s.step c).arena = { (c.run s.arena).arena with
      log
      cohort := (if (c.run s.arena).fault.isSome then (c.run s.arena).arena.cohort.cancel
        else (c.run s.arena).arena.cohort).finish c.method.name (c.run s.arena).verdict } ∧
    (s.step c).fault = s.fault.or (c.run s.arena).fault := by
  have hquiet := (c.passedBy_run h).quiet
  unfold State.step Checker.Run.fault Checker.Run.verdict
  dsimp only
  cases (c.run s.arena).outcome with
  | ok verdict =>
    cases verdict with
    | none => exact ⟨_, rfl, (Option.or_none).symm⟩
    | some v =>
      obtain ⟨log, hlog⟩ := Arena.info_of_undisturbed hquiet
        ("[" ++ c.method.name ++ "] " ++ v.text)
      dsimp only
      rw [hlog]
      exact ⟨log, rfl, (Option.or_none).symm⟩
  | error fault =>
    dsimp only
    rw [Arena.warn, Arena.emit_of_undisturbed hquiet]
    exact ⟨_, rfl, rfl⟩

/-- A race some of whose checkers have run and a crew some of whose workers have handed in their
results have come equally far; the checkers `cs` are still to come. -/
structure State.Matches (bs : List (Option Backend)) (config : SolverConfig) (cs : List Checker)
    (s : State) (d : Crew) : Prop where
  orderly : d.Orderly
  quiet : s.arena.Undisturbed
  programs : s.arena.programs = d.programs
  backends : config.takes = true → s.arena.backends = bs.drop d.handed.length
  bound : s.arena.bound = Event.cell d.events
  cancelled : s.arena.cohort.cancelled = d.cohort.cancelled
  told : .cancel ∈ d.events → d.cohort.cancelled = true
  watchdog : s.arena.watchdog = .armed ∧ d.watchdog = .armed ∨
    s.arena.watchdog = .expired ∧ d.watchdog = .off
  fault : d.fault = s.fault
  handed : d.handed = List.range d.handed.length
  waiting : d.workers.drop d.handed.length =
    cs.mapIdx fun i checker => { checker, backend := own bs (d.handed.length + i) }
  reflects : s.arena.cohort.Reflects d.workers.length d.results

/-- What happens in the crew before the next worker leaves, if `a` is what its run leaves: nothing,
unless the time budget runs out in it. -/
structure Waited (d d' : Crew) (a : Arena) : Prop where
  orderly : d'.Orderly
  workers : d'.workers = d.workers
  programs : d'.programs = d.programs
  handed : d'.handed = d.handed
  fault : d'.fault = d.fault
  events : d'.events = d.events ∨ d'.events = d.events ++ [.cancel]
  cancelled : a.cohort.cancelled = d'.cohort.cancelled
  told : .cancel ∈ d'.events → d'.cohort.cancelled = true
  watchdog : a.watchdog = .armed ∧ d'.watchdog = .armed ∨
    a.watchdog = .expired ∧ d'.watchdog = .off

namespace Waited

variable {d d' : Crew} {a : Arena}

theorem results (h : Waited d d' a) : d'.results = d.results := by
  unfold Crew.results Crew.ended
  rw [h.handed, h.workers, h.programs]

theorem events_prefix (h : Waited d d' a) : d.events <+: d'.events := by
  rcases h.events with hsame | hmore
  · exact hsame ▸ List.prefix_rfl
  · exact hmore ▸ List.prefix_append _ _

theorem cell (h : Waited d d' a) : Event.cell d'.events = Event.cell d.events := by
  rcases h.events with hsame | hmore
  · rw [hsame]
  · rw [hmore, Event.cell_append (by simp)]

end Waited

namespace State.Matches

variable {cs : List Checker} {d : Crew}

/-- A race that is not called off is still watched. -/
theorem armed (h : s.Matches bs config cs d) (hcalm : s.arena.cohort.cancelled = false) :
    s.arena.watchdog = .armed ∧ d.watchdog = .armed := by
  refine h.watchdog.resolve_right fun hoff => ?_
  rw [h.cancelled, h.orderly.off hoff.2] at hcalm
  cases hcalm

theorem wait (h : s.Matches bs config (c :: cs) d) : ∃ acts d',
    d.perform acts = some d' ∧ Waited d d' (c.run s.arena).arena := by
  have hpassed := c.passedBy_run h.quiet
  cases hcancelled : s.arena.cohort.cancelled with
  | true =>
    have haged := (Checker.run_untouched hcancelled c).aged
    refine ⟨[], d, rfl, h.orderly, rfl, rfl, rfl, rfl, .inl rfl, ?_, h.told, ?_⟩
    · rw [haged.cohort.cancelled hcancelled, ← h.cancelled, hcancelled]
    · rw [haged.watchdog]
      exact h.watchdog
  | false =>
    obtain ⟨-, harmed⟩ := h.armed hcancelled
    rcases hpassed.watch with ⟨hwatchdog, hsame⟩ | ⟨hexpired, hcalled⟩
    · refine ⟨[], d, rfl, h.orderly, rfl, rfl, rfl, rfl, .inl rfl, ?_, h.told, ?_⟩
      · rw [hsame, h.cancelled]
      · rw [hwatchdog]
        exact h.watchdog
    · -- the time budget runs out before the worker leaves
      have hlt : d.handed.length < d.workers.length := by
        have hlength := congrArg List.length h.waiting
        rw [List.length_drop, List.length_mapIdx, List.length_cons] at hlength
        omega
      have hacts := h.orderly.perform_expire harmed (h.cancelled.symm.trans hcancelled) hlt
      exact ⟨_, _, hacts, h.orderly.perform hacts, rfl, rfl, rfl, rfl, .inr rfl, hcalled,
        fun _ => rfl, .inr ⟨hexpired, rfl⟩⟩

/-- The worker whose turn it is. -/
theorem next (h : s.Matches bs config (c :: cs) d) :
    d.workers[d.handed.length]? = some { checker := c, backend := own bs d.handed.length } ∧
      d.workers.drop (d.handed.length + 1) =
        cs.mapIdx fun i checker => { checker, backend := own bs (d.handed.length + 1 + i) } := by
  have hwaiting := h.waiting
  rw [List.mapIdx_cons] at hwaiting
  refine ⟨?_, ?_⟩
  · have hfirst := congrArg List.head? hwaiting
    rwa [List.head?_drop] at hfirst
  · have hrest := congrArg List.tail hwaiting
    rw [List.tail_drop, List.tail_cons] at hrest
    rw [hrest]
    refine congrArg (List.mapIdx · cs) ?_
    funext i checker
    rw [Nat.add_right_comm, Nat.add_assoc]

/-- **The worker whose turn it is does what the checker does in its turn**, if it notices all that
has happened when it begins. -/
theorem alike (h : s.Matches bs config (c :: cs) d) (hconfig : c.config = config) :
    (c.run s.arena).Alike (Arena.matching (s.arena.cohort.cancelled = false))
      (Worker.run { checker := c, backend := own bs d.handed.length } d.programs [d.events]) := by
  have hcancelled : s.arena.cohort.cancelled = decide (.cancel ∈ d.events) := by
    rw [h.cancelled, Bool.eq_iff_iff, decide_eq_true_eq]
    exact ⟨h.orderly.told, h.told⟩
  have hwatch : s.arena.cohort.cancelled = false → Watchdog.armed = s.arena.watchdog :=
    fun hcalm => (h.armed hcalm).1.symm
  obtain ⟨log, hlog⟩ := Arena.info_of_undisturbed h.quiet (c.label "RUNNING")
  refine Checker.run_mirrored rfl ?_
  unfold Worker.surroundings
  rw [hlog, List.headD_cons, Arena.foldl_happen, Arena.info_of_silent rfl]
  refine Arena.Matched.start ?_ h.programs.symm ?_ ?_
  · refine ⟨h.quiet, ⟨rfl, rfl⟩, h.bound.symm, ?_, hwatch⟩
    rw [hcancelled, Bool.false_or]
  · show c.config.launch s.arena.programs (own bs d.handed.length) =
      c.config.launch s.arena.programs (s.arena.backends.head?.getD (some {}))
    rw [hconfig]
    cases htakes : config.takes with
    | false => exact SolverConfig.launch_of_not_takes htakes _ _ _
    | true =>
      rw [h.backends htakes, List.head?_drop]
      rfl
  · cases hcalm : s.arena.cohort.cancelled with
    | true => exact .inl rfl
    | false => exact .inr (hwatch hcalm)

end State.Matches

theorem cancelled_finish_congr {c c' : Cohort Nat} (hcancelled : c.cancelled = c'.cancelled)
    (hconclusive : c.conclusive = c'.conclusive) (name : String) (verdict : Option Verdict) :
    (c.finish name verdict).cancelled = (c'.finish name verdict).cancelled := by
  rw [Bool.eq_iff_iff, (c.finish_cases name verdict).2, (c'.finish_cases name verdict).2,
    hcancelled]
  unfold Cohort.DecidedBy
  rw [hconclusive]

theorem fault_of_alike {M : Arena.Mirror} {run run' : Checker.Run} (h : run.Alike M run') :
    run'.fault = run.fault ∧ run'.verdict = run.verdict := by
  unfold Checker.Run.fault Checker.Run.verdict
  rw [h.outcome]
  exact ⟨rfl, rfl⟩

/-- The crew after the worker number `j` has left and handed in its result. -/
def turned (d : Crew) (j : Nat) (w : Worker) (view : List (List Event)) : Crew :=
  { d with
    workers := d.workers.set j { w with view := some view }
    cohort := d.finished w.checker.method.name (w.run d.programs view)
    events := d.events ++ w.published d.programs view ++
      if (d.finished w.checker.method.name (w.run d.programs view)).cancelled then [.cancel] else []
    handed := d.handed ++ [j]
    fault := d.fault.or (w.run d.programs view).fault }

/-- A worker leaves and hands in its result at once. -/
theorem perform_turn {d : Crew} (h : d.Orderly) {j : Nat} {w : Worker} {view : List (List Event)}
    (hw : d.workers[j]? = some w) (hview : w.view = none) (hseen : view.flatten <+: d.events)
    (hguard : (w.run d.programs view).arena.watchdog = .expired → .cancel ∈ d.events)
    (hnew : j ∉ d.handed) : d.perform [.leave j view, .finish j] = some (turned d j w view) ∧
      (turned d j w view).results =
        d.results ++ [(w.checker.method.name, (w.run d.programs view).verdict)] := by
  have hleave := Crew.leave_eq_some.mpr ⟨w, hw, hview, hseen, hguard, rfl⟩
  have hget := List.getElem?_set_self (a := { w with view := some view })
    (List.getElem?_eq_some_iff.mp hw).1
  have hfinish : Crew.finish { d with
      workers := d.workers.set j { w with view := some view }
      events := d.events ++ w.published d.programs view } j = some (turned d j w view) :=
    Crew.finish_eq_some.mpr ⟨_, view, hget, rfl, hnew, rfl⟩
  have hresults := Crew.results_finish hfinish (Crew.ended_of_left hget rfl)
  rw [h.results_leave hleave] at hresults
  exact ⟨Option.bind_eq_some_iff.mpr ⟨_, hleave, Option.bind_eq_some_iff.mpr ⟨_, hfinish, rfl⟩⟩,
    hresults⟩

section Turn

variable {cs : List Checker} {d d' : Crew}

/-- The bound cell after a turn. -/
theorem bound_turned {w : Worker} (hw : w.checker = c)
    (hbound : (w.run d'.programs [d.events]).arena.bound = (c.run s.arena).arena.bound)
    (hquiet : s.arena.Undisturbed) (hcell : s.arena.bound = Event.cell d'.events) (j : Nat) :
    (c.run s.arena).arena.bound = Event.cell (turned d' j w [d.events]).events := by
  unfold turned
  dsimp only
  rw [Event.cell_append (by split <;> simp)]
  unfold Worker.published
  rw [hw, hbound]
  split
  · refine (Event.cell_append_poll ?_).symm
    rw [← hcell]
    exact (c.passedBy_run hquiet).bound.imp_right And.right
  · next hm =>
    rw [List.append_nil, ← hcell]
    exact (c.passedBy_run hquiet).bound.resolve_right fun hk => hm hk.1

/-- Whether the race is called off after a turn. -/
theorem cancelled_turned {w : Worker} (h : s.Matches bs config cs d)
    (hwait : Waited d d' (c.run s.arena).arena) (hw : w.checker = c)
    (hfault : (w.run d'.programs [d.events]).fault = (c.run s.arena).fault)
    (hverdict : (w.run d'.programs [d.events]).verdict = (c.run s.arena).verdict) (j : Nat) :
    ((if (c.run s.arena).fault.isSome then (c.run s.arena).arena.cohort.cancel
      else (c.run s.arena).arena.cohort).finish c.method.name (c.run s.arena).verdict).cancelled =
      (turned d' j w [d.events]).cohort.cancelled := by
  have hnoResult : s.arena.cohort.NoResult (c.run s.arena).arena.cohort :=
    Checker.run_passage Arena.passage_noResult fun _ a _ => .refl a.cohort
  have hconclusive : (c.run s.arena).arena.cohort.conclusive = d'.cohort.conclusive := by
    rw [(h.reflects.noResult hnoResult).conclusive, hwait.orderly.reflects.conclusive,
      hwait.results]
  show _ = (Crew.finished d' w.checker.method.name (w.run d'.programs [d.events])).cancelled
  unfold Crew.finished
  rw [hw, hfault, hverdict]
  refine cancelled_finish_congr ?_ ?_ _ _
  · split
    · rfl
    · exact hwait.cancelled
  · split
    · exact hconclusive
    · exact hconclusive

/-- A worker whose time budget is used up leaves a race that is called off. -/
theorem told_of_expired (h : s.Matches bs config cs d)
    (hwait : Waited d d' (c.run s.arena).arena) {run : Checker.Run}
    (halike : (c.run s.arena).Alike (Arena.matching (s.arena.cohort.cancelled = false)) run)
    (hexpired : run.arena.watchdog = .expired) : .cancel ∈ d'.events := by
  cases hcalm : s.arena.cohort.cancelled with
  | true =>
    have hcalled := h.orderly.told (h.cancelled.symm.trans hcalm)
    exact hwait.events_prefix.subset hcalled
  | false =>
    rw [halike.arena.watchdog hcalm] at hexpired
    obtain ⟨harmed, -⟩ | ⟨-, hoff⟩ := hwait.watchdog
    · rw [hexpired] at harmed
      cases harmed
    · exact hwait.orderly.told (hwait.orderly.off hoff)

/-- That the race is called off is known to all after a turn only if it is. -/
theorem told_turned (hwait : Waited d d' (c.run s.arena).arena) {w : Worker} {j : Nat}
    (h : .cancel ∈ (turned d' j w [d.events]).events) :
    (turned d' j w [d.events]).cohort.cancelled = true := by
  unfold turned at h ⊢
  dsimp only at h ⊢
  rcases List.mem_append.mp h with hmem | hmem
  · refine (finish_cases _ _ _).2.mpr (.inl ?_)
    have hbefore : .cancel ∈ d'.events := by
      refine (List.mem_append.mp hmem).resolve_right fun hpublished => ?_
      unfold Worker.published at hpublished
      split at hpublished
      · simp at hpublished
      · cases hpublished
    split
    · rfl
    · exact hwait.told hbefore
  · split at hmem
    · assumption
    · cases hmem

end Turn

/-- **One checker in its turn**, and the acts of the crew that go with it. -/
theorem State.Matches.step {cs : List Checker} {d : Crew} (h : s.Matches bs config (c :: cs) d)
    (hconfig : c.config = config) :
    ∃ acts d', d.perform acts = some d' ∧ (s.step c).Matches bs config cs d' := by
  obtain ⟨acts, d', hacts, hwait⟩ := h.wait
  have halike := h.alike hconfig
  obtain ⟨hw, hrest⟩ := h.next
  rw [← hwait.programs] at halike
  obtain ⟨hfault, hverdict⟩ := fault_of_alike halike
  have hpassed := c.passedBy_run h.quiet
  obtain ⟨log, harena, hfaults⟩ := step_of_undisturbed (c := c) h.quiet
  have hnew : d.handed.length ∉ d'.handed := by
    rw [hwait.handed, h.handed]
    simp
  have hseen : [d.events].flatten <+: d'.events := by
    rw [List.flatten_singleton]
    exact hwait.events_prefix
  obtain ⟨hturn, hresults⟩ := perform_turn hwait.orderly (hwait.workers ▸ hw) rfl hseen
    (told_of_expired h hwait halike) hnew
  have horderly := hwait.orderly.perform hturn
  have hlength : (turned d' d.handed.length ⟨c, own bs d.handed.length, none⟩
      [d.events]).handed.length = d.handed.length + 1 := by
    show (d'.handed ++ [d.handed.length]).length = _
    rw [hwait.handed, List.length_append]
    rfl
  refine ⟨_, _, Crew.perform_append hacts hturn, horderly, ?_, ?_, fun htakes => ?_, ?_, ?_,
    told_turned hwait, ?_, ?_, ?_, ?_, ?_⟩
  · rw [harena]
    exact hpassed.quiet
  · rw [harena]
    exact (hpassed.programs.trans h.programs).trans hwait.programs.symm
  · rw [harena, hlength]
    show (c.run s.arena).arena.backends = _
    rw [(c.run_starts _).1, (Arena.start_leaves _ _).1, hconfig, if_pos htakes, h.backends htakes,
      List.tail_drop]
  · rw [harena]
    exact bound_turned rfl halike.arena.bound h.quiet (h.bound.trans hwait.cell.symm) _
  · rw [harena]
    exact cancelled_turned h hwait rfl hfault hverdict _
  · rw [harena]
    exact hwait.watchdog
  · rw [hfaults, ← hfault, ← h.fault, ← hwait.fault]
    rfl
  · rw [hlength, List.range_succ, ← h.handed, ← hwait.handed]
    rfl
  · rw [hlength, ← hrest, ← hwait.workers]
    exact List.drop_set_of_lt (Nat.lt_succ_self _)
  · have hreflects := reflects_step (c := c) h.reflects
    rw [hresults, hwait.results, hverdict]
    show Reflects _ (d'.workers.set _ _).length _
    rw [List.length_set, hwait.workers]
    exact hreflects

/-- **All checkers in their turn.** -/
theorem State.Matches.foldl {cs : List Checker} {d : Crew} (h : s.Matches bs config cs d)
    (hconfig : ∀ c ∈ cs, c.config = config) : ∃ acts d', d.perform acts = some d' ∧
      (cs.foldl State.step s).Matches bs config [] d' := by
  induction cs generalizing s d with
  | nil => exact ⟨[], d, rfl, h⟩
  | cons c cs ih =>
    rw [List.forall_mem_cons] at hconfig
    obtain ⟨acts, d₁, hacts, hstep⟩ := h.step hconfig.1
    obtain ⟨more, d₂, hmore, hend⟩ := ih hstep hconfig.2
    exact ⟨acts ++ more, d₂, Crew.perform_append hacts hmore, hend⟩

/-- When all are done, the race and the crew come to the same. -/
theorem State.Matches.result {d : Crew} (h : s.Matches bs config [] d) : d.result = some
    (s.fault.elim (.ok ⟨s.arena.cohort.outcome, s.arena.cohort.decidedBy,
      s.arena.watchdog = .expired⟩) .error) := by
  have hall : d.handed.length = d.workers.length := by
    have hle := List.drop_eq_nil_iff.mp h.waiting
    have hge := h.orderly.length_handed_le
    omega
  have hwatchdog : d.watchdog ≠ .expired ∧
      decide (d.watchdog = .off) = decide (s.arena.watchdog = .expired) := by
    obtain ⟨hs, hd⟩ | ⟨hs, hd⟩ := h.watchdog
    · rw [hs, hd]
      exact ⟨by decide, rfl⟩
    · rw [hs, hd]
      exact ⟨by decide, rfl⟩
  refine Crew.result_eq_some.mpr ⟨hall, hwatchdog.1, ?_⟩
  unfold Crew.upshot
  rw [h.fault]
  cases s.fault with
  | some fault => rfl
  | none =>
    show Except.ok _ = Except.ok _
    rw [h.reflects.outcome, h.reflects.decidedBy, h.orderly.reflects.outcome,
      h.orderly.reflects.decidedBy, hwatchdog.2]

variable {r : Race} {a : Arena}

theorem run_eq_elim (hsome : r.checkers ≠ []) (s : State)
    (hs : s = r.checkers.foldl State.step { arena := r.prepare a }) : (r.run a).1 =
      s.fault.elim (.ok ⟨s.arena.cohort.outcome, s.arena.cohort.decidedBy,
        s.arena.watchdog = .expired⟩) .error := by
  unfold run
  rw [if_neg (by simpa using hsome)]
  dsimp only
  rw [← hs]
  cases s.fault with
  | some fault => rfl
  | none => rfl

/-- A crew at the start, and a race that is prepared. A budget that is used up at once has run out
before anybody begins. -/
theorem exists_matches_prepare (hquiet : a.Undisturbed) (hsome : r.checkers ≠ [])
    (config : SolverConfig) : ∃ acts d, (r.crew a.programs a.backends).perform acts = some d ∧
      State.Matches a.backends config r.checkers { arena := r.prepare a } d := by
  have horderly := Crew.orderly_crew r a.programs a.backends
  have hlength : (r.crew a.programs a.backends).workers.length = r.checkers.length :=
    List.length_mapIdx
  have hwaiting : (r.crew a.programs a.backends).workers.drop 0 =
      r.checkers.mapIdx fun i checker => { checker, backend := own a.backends (0 + i) } := by
    simp only [Nat.zero_add]
    rfl
  have hreflects := r.reflects_prepare a
  rw [← hlength] at hreflects
  have hpos := List.length_pos_iff.mpr hsome
  unfold prepare at hreflects ⊢
  dsimp only at hreflects ⊢
  split at hreflects
  · next hbudget =>
    have hacts := horderly.perform_expire rfl rfl (by rw [hlength]; exact hpos)
    obtain ⟨log, hlog⟩ := Arena.info_of_undisturbed (a := { a with
      cohort := { workers := r.checkers.length }
      bound := a.bound.reset
      watchdog := .armed }) hquiet "time budget exhausted"
    rw [if_pos hbudget]
    unfold Arena.expire at hreflects ⊢
    rw [hlog] at hreflects ⊢
    exact ⟨_, _, hacts, horderly.perform hacts, hquiet, rfl, fun _ => rfl, rfl, rfl, fun _ => rfl,
      .inr ⟨rfl, rfl⟩, rfl, rfl, hwaiting, hreflects⟩
  · next hbudget =>
    rw [if_neg hbudget]
    exact ⟨[], _, rfl, horderly, hquiet, rfl, fun _ => rfl, rfl, rfl, nofun, .inl ⟨rfl, rfl⟩, rfl,
      rfl, hwaiting, hreflects⟩

/-- **One after another is one of the courses.** -/
theorem run_is_course (hquiet : a.Undisturbed) (hconfig : ∀ c ∈ r.checkers, c.config = config) :
    ∃ acts d, (r.crew a.programs a.backends).perform acts = some d ∧
      d.result = some (r.run a).1 := by
  by_cases hsome : r.checkers = []
  · refine ⟨[], _, rfl, ?_⟩
    unfold run crew
    rw [hsome]
    rfl
  · obtain ⟨acts, d, hacts, hstart⟩ := exists_matches_prepare hquiet hsome config
    obtain ⟨more, d', hmore, hend⟩ := hstart.foldl hconfig
    refine ⟨acts ++ more, d', Crew.perform_append hacts hmore, ?_⟩
    rw [run_eq_elim hsome _ rfl]
    exact hend.result

end Race

end PetriReach
