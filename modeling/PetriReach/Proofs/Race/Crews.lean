import Mathlib.Data.List.Perm.Subperm
import PetriReach.Proofs.Race.Faults
import PetriReach.Race.Crew

/-!
# Races in any order

Whatever the order in which the workers of a race end their runs and hand in their results, and
whenever the watchdog calls the race off, the race comes to an end. It ends in an error if and only
if something came up in one of the runs, and otherwise with the verdict that counts among those
handed in.

* `Crew.Orderly`: what holds of a crew at any time.
* `Crew.Orderly.act`, `Crew.Orderly.perform`: it is kept by every act, and by every course.
* `Crew.Orderly.exists_end`: every course can be continued to its end.
* `Crew.Orderly.error_iff`, `Crew.Orderly.verdict_of_result`: what a race comes to.
-/

namespace PetriReach

open Cohort

/-! ## Workers -/

namespace Worker

variable (w : Worker) (programs : List String) (view : List (List Event))

theorem watched_surroundings : (w.surroundings programs view).Watched := by
  unfold surroundings
  rw [Arena.foldl_happen]
  exact .inl rfl

/-- **What comes up in the run of a worker**, if it is an error. -/
theorem fault_eq_some_iff {x : Fault} : (w.run programs view).fault = some x ↔
    w.checker.Raises (w.surroundings programs view) x ∧ x.isError = true := by
  have hfault : (w.run programs view).fault = some x ↔
      (w.run programs view).outcome = .error x := by
    unfold Checker.Run.fault
    cases (w.run programs view).outcome with
    | ok verdict => simp
    | error y => simp
  rw [hfault, run, Checker.outcome_eq_error_iff, Fault.isError_iff]
  refine and_congr_right fun hraises => ⟨fun hother => ⟨hother, ?_⟩, And.left⟩
  rintro rfl
  exact Checker.run_not_stuck (w.watched_surroundings programs view)
    (Checker.outcome_eq_error_iff.mpr ⟨hraises, hother⟩)

end Worker

/-! ## Acts -/

/-- The acts that a watchdog has left at most. -/
def Watchdog.acts : Watchdog → Nat
  | .armed => 2
  | .expired => 1
  | .off => 0

theorem guard_bind_eq_some {α : Type} {p : Prop} [Decidable p] {f : Unit → Option α} {a : α} :
    (guard p >>= f) = some a ↔ p ∧ f () = some a := by
  by_cases h : p
  · simp [guard, h]
  · simp [guard, h]

namespace Crew

variable {c c' : Crew} {j : Nat} {view : List (List Event)}

theorem leave_eq_some : c.leave j view = some c' ↔ ∃ w, c.workers[j]? = some w ∧ w.view = none ∧
    view.flatten <+: c.events ∧
    ((w.run c.programs view).arena.watchdog = .expired → .cancel ∈ c.events) ∧
    c' = { c with
      workers := c.workers.set j { w with view := some view }
      events := c.events ++ w.published c.programs view } := by
  unfold leave
  cases c.workers[j]? with
  | none => simp
  | some w =>
    refine (guard_bind_eq_some.trans (and_congr_right' guard_bind_eq_some)).trans ?_
    simp [and_assoc, eq_comm (a := c')]

/-- What a result adds to the cohort. -/
def finished (c : Crew) (name : String) (run : Checker.Run) : Cohort Nat :=
  (if run.fault.isSome then c.cohort.cancel else c.cohort).finish name run.verdict

theorem finish_eq_some : c.finish j = some c' ↔ ∃ w view, c.workers[j]? = some w ∧
    w.view = some view ∧ j ∉ c.handed ∧
    c' = { c with
      cohort := c.finished w.checker.method.name (w.run c.programs view)
      events := c.events ++
        if (c.finished w.checker.method.name (w.run c.programs view)).cancelled then [.cancel]
        else []
      handed := c.handed ++ [j]
      fault := c.fault.or (w.run c.programs view).fault } := by
  unfold finish finished
  cases c.workers[j]? with
  | none => simp
  | some w =>
    cases hview : w.view with
    | none => simp [hview]
    | some view =>
      rw [Option.bind_eq_bind, Option.bind_some, hview, Option.bind_eq_bind, Option.bind_some]
      refine guard_bind_eq_some.trans ?_
      simp [hview, eq_comm (a := c')]

theorem expire_eq_some : c.expire = some c' ↔
    c.watchdog = .armed ∧ c.cohort.isOver = false ∧ c' = { c with watchdog := .expired } := by
  refine guard_bind_eq_some.trans ?_
  simp [and_assoc, eq_comm (a := c')]

theorem callOff_eq_some : c.callOff = some c' ↔ c.watchdog = .expired ∧
    c' = { c with
      watchdog := .off, cohort := c.cohort.cancel, events := c.events ++ [.cancel] } := by
  refine guard_bind_eq_some.trans ?_
  simp [eq_comm (a := c')]

/-! ## What holds at any time -/

/-- The run of the worker number `j` with the name of its method, if it has ended. -/
def ended (c : Crew) (j : Nat) : Option (String × Checker.Run) := do
  let w ← c.workers[j]?
  let view ← w.view
  return (w.checker.method.name, w.run c.programs view)

/-- What has been handed in, in order. -/
def results (c : Crew) : Results :=
  c.handed.filterMap fun j => (c.ended j).map fun x => (x.1, x.2.verdict)

/-- What holds of a crew at any time: whoever has handed in a result has ended a run, the cohort
knows these results, a fault among them is kept, and that the race is called off has reached all. -/
structure Orderly (c : Crew) : Prop where
  nodup : c.handed.Nodup
  ended : ∀ j ∈ c.handed, (c.ended j).isSome = true
  reflects : c.cohort.Reflects c.workers.length c.results
  fault : c.fault = none ↔ ∀ j ∈ c.handed, ∀ x, c.ended j = some x → x.2.fault = none
  told : c.cohort.cancelled = true → .cancel ∈ c.events
  off : c.watchdog = .off → c.cohort.cancelled = true

theorem ended_eq_some {x : String × Checker.Run} : c.ended j = some x ↔ ∃ w view,
    c.workers[j]? = some w ∧ w.view = some view ∧
      x = (w.checker.method.name, w.run c.programs view) := by
  unfold ended
  cases c.workers[j]? with
  | none => simp
  | some w =>
    cases hview : w.view with
    | none => simp [hview]
    | some view => simp [hview, eq_comm (a := x)]

theorem ended_of_left {w : Worker} (hw : c.workers[j]? = some w) (hview : w.view = some view) :
    c.ended j = some (w.checker.method.name, w.run c.programs view) :=
  ended_eq_some.mpr ⟨w, view, hw, hview, rfl⟩

theorem ended_of_working {w : Worker} (hw : c.workers[j]? = some w) (hview : w.view = none) :
    c.ended j = none := by
  unfold ended
  rw [hw, Option.bind_eq_bind, Option.bind_some, hview]
  rfl

theorem orderly_crew (r : Race) (programs : List String) (backends : List (Option Backend)) :
    (r.crew programs backends).Orderly where
  nodup := List.nodup_nil
  ended _ hj := by cases hj
  reflects := by
    have hlength : (r.crew programs backends).workers.length = r.checkers.length :=
      List.length_mapIdx
    rw [hlength]
    exact reflects_new _
  fault := by simp [Race.crew]
  told h := by cases h
  off h := by cases h

/-- An end of a run changes nothing about those that had ended theirs. -/
theorem ended_leave (hleave : c.leave j view = some c') {i : Nat}
    (hi : (c.ended i).isSome = true) : c'.ended i = c.ended i := by
  obtain ⟨w, hw, hnone, -, -, rfl⟩ := leave_eq_some.mp hleave
  have hne : j ≠ i := by
    rintro rfl
    rw [ended_of_working hw hnone] at hi
    cases hi
  unfold ended
  dsimp only
  rw [List.getElem?_set_ne hne]

theorem Orderly.results_leave (h : c.Orderly) (hleave : c.leave j view = some c') :
    c'.results = c.results := by
  have hhanded : c'.handed = c.handed := by
    obtain ⟨w, -, -, -, -, rfl⟩ := leave_eq_some.mp hleave
    rfl
  unfold results
  rw [hhanded]
  exact List.filterMap_congr fun i hi => by rw [ended_leave hleave (h.ended i hi)]

theorem results_finish (hfinish : c.finish j = some c') {x : String × Checker.Run}
    (hx : c.ended j = some x) : c'.results = c.results ++ [(x.1, x.2.verdict)] := by
  obtain ⟨w, view, -, -, -, rfl⟩ := finish_eq_some.mp hfinish
  unfold results
  rw [List.filterMap_append]
  refine congrArg (c.results ++ ·) (List.filterMap_cons_some ?_)
  exact congrArg (Option.map fun x => (x.1, x.2.verdict)) hx

namespace Orderly

variable (h : c.Orderly)

include h

theorem leave (hleave : c.leave j view = some c') : c'.Orderly := by
  have hsame := fun i hi => ended_leave hleave (h.ended i hi)
  have hresults := h.results_leave hleave
  obtain ⟨w, hw, hnone, -, -, rfl⟩ := leave_eq_some.mp hleave
  refine ⟨h.nodup, fun i hi => ?_, ?_, ?_, fun hcancelled => ?_, h.off⟩
  · rw [hsame i hi]
    exact h.ended i hi
  · rw [hresults]
    dsimp only
    rw [List.length_set]
    exact h.reflects
  · refine h.fault.trans (forall₂_congr fun i hi => ?_)
    rw [hsame i hi]
  · exact List.mem_append_left _ (h.told hcancelled)

theorem finish (hfinish : c.finish j = some c') : c'.Orderly := by
  obtain ⟨w, view, hw, hview, hnew, hc'⟩ := finish_eq_some.mp hfinish
  have hended := ended_of_left hw hview
  have hresults := results_finish hfinish hended
  subst hc'
  refine ⟨?_, ?_, ?_, ?_, fun hcancelled => ?_, fun hoff => ?_⟩
  · exact List.nodup_append.mpr ⟨h.nodup, List.nodup_singleton j, by
      rintro i hi _ hj rfl
      exact hnew (List.mem_singleton.mp hj ▸ hi)⟩
  · refine List.forall_mem_append.mpr ⟨h.ended, List.forall_mem_singleton.mpr ?_⟩
    exact Option.isSome_iff_exists.mpr ⟨_, hended⟩
  · have hcancel : (if (w.run c.programs view).fault.isSome then c.cohort.cancel
        else c.cohort).Reflects c.workers.length c.results := by
      split
      · exact h.reflects.cancel
      · exact h.reflects
    rw [hresults]
    exact hcancel.finish _ _
  · rw [Option.or_eq_none_iff, h.fault, List.forall_mem_append, List.forall_mem_singleton]
    refine and_congr_right fun _ => ⟨fun hnone x hx => ?_, fun hall => hall _ hended⟩
    rw [show c.ended j = some x from hx] at hended
    cases hended
    exact hnone
  · have hall : (c.finished w.checker.method.name (w.run c.programs view)).cancelled = true :=
      hcancelled
    simp [hall]
  · have hcancelled := h.off hoff
    refine (finish_cases _ _ _).2.mpr (.inl ?_)
    split
    · rfl
    · exact hcancelled

/-- **One act.** -/
theorem act {x : Act} (hact : c.act x = some c') : c'.Orderly := by
  cases x with
  | leave j view => exact h.leave hact
  | finish j => exact h.finish hact
  | expire =>
    obtain ⟨harmed, -, rfl⟩ := expire_eq_some.mp hact
    exact ⟨h.nodup, h.ended, h.reflects, h.fault, h.told, nofun⟩
  | callOff =>
    obtain ⟨-, rfl⟩ := callOff_eq_some.mp hact
    exact ⟨h.nodup, h.ended, h.reflects.cancel, h.fault,
      fun _ => List.mem_append_right _ List.mem_cons_self, fun _ => rfl⟩

end Orderly

/-- What every act keeps is kept by every course. -/
theorem perform_keeps {P : Crew → Prop} (hP : ∀ {c c' : Crew} {x : Act}, P c → c.act x = some c' →
    P c') (h : P c) {acts : List Act} (hacts : c.perform acts = some c') : P c' := by
  induction acts generalizing c with
  | nil =>
    cases hacts
    exact h
  | cons x acts ih =>
    obtain ⟨d, hd, hrest⟩ := Option.bind_eq_some_iff.mp hacts
    exact ih (hP h hd) hrest

/-- **A course of acts.** -/
theorem Orderly.perform (h : c.Orderly) {acts : List Act} (hacts : c.perform acts = some c') :
    c'.Orderly :=
  perform_keeps (fun h hact => h.act hact) h hacts

theorem programs_act {x : Act} (hact : c.act x = some c') : c'.programs = c.programs := by
  cases x with
  | leave j view =>
    obtain ⟨w, -, -, -, -, rfl⟩ := leave_eq_some.mp hact
    rfl
  | finish j =>
    obtain ⟨w, view, -, -, -, rfl⟩ := finish_eq_some.mp hact
    rfl
  | expire =>
    obtain ⟨-, -, rfl⟩ := expire_eq_some.mp hact
    rfl
  | callOff =>
    obtain ⟨-, rfl⟩ := callOff_eq_some.mp hact
    rfl

/-- What can be executed stays the same. -/
theorem programs_perform {acts : List Act} (hacts : c.perform acts = some c') :
    c'.programs = c.programs :=
  perform_keeps (P := fun d => d.programs = c.programs)
    (fun h hact => (programs_act hact).trans h) rfl hacts

/-! ## The end of a race -/

namespace Orderly

theorem lt_length (h : c.Orderly) (hj : j ∈ c.handed) : j < c.workers.length := by
  obtain ⟨x, hx⟩ := Option.isSome_iff_exists.mp (h.ended j hj)
  obtain ⟨w, view, hw, -⟩ := ended_eq_some.mp hx
  exact (List.getElem?_eq_some_iff.mp hw).1

theorem handed_subset (h : c.Orderly) : c.handed ⊆ List.range c.workers.length :=
  fun _ hj => List.mem_range.mpr (h.lt_length hj)

theorem length_handed_le (h : c.Orderly) : c.handed.length ≤ c.workers.length := by
  have hle := (List.subperm_of_subset h.nodup h.handed_subset).length_le
  rwa [List.length_range] at hle

/-- Somebody has not handed in a result as long as there are fewer results than workers. -/
theorem handed_length_lt_iff (h : c.Orderly) :
    c.handed.length < c.workers.length ↔ ∃ j < c.workers.length, j ∉ c.handed := by
  constructor
  · intro hlt
    by_contra hall
    have hsubset : List.range c.workers.length ⊆ c.handed := by
      intro j hj
      by_contra hnew
      exact hall ⟨j, List.mem_range.mp hj, hnew⟩
    have hle := (List.subperm_of_subset List.nodup_range hsubset).length_le
    rw [List.length_range] at hle
    omega
  · rintro ⟨j, hj, hnew⟩
    have hnodup : (j :: c.handed).Nodup := List.nodup_cons.mpr ⟨hnew, h.nodup⟩
    have hsubset : j :: c.handed ⊆ List.range c.workers.length :=
      List.cons_subset.mpr ⟨List.mem_range.mpr hj, h.handed_subset⟩
    have hle := (List.subperm_of_subset hnodup hsubset).length_le
    rw [List.length_range, List.length_cons] at hle
    omega

end Orderly

/-- The number of acts that are left at most: an end of a run and a result for each worker, and what
the watchdog may do. -/
def remaining (c : Crew) : Nat :=
  c.workers.countP (·.view.isNone) + (c.workers.length - c.handed.length) + c.watchdog.acts

theorem remaining_crew (r : Race) (programs : List String) (backends : List (Option Backend)) :
    (r.crew programs backends).remaining = 2 * r.checkers.length + 2 := by
  have hlength : (r.crew programs backends).workers.length = r.checkers.length :=
    List.length_mapIdx
  have hall : (r.crew programs backends).workers.countP (·.view.isNone) =
      (r.crew programs backends).workers.length := by
    refine List.countP_eq_length.mpr fun w hw => ?_
    obtain ⟨j, hj, rfl⟩ := List.mem_mapIdx.mp hw
    rfl
  unfold remaining
  rw [hall, hlength]
  show r.checkers.length + (r.checkers.length - 0) + 2 = _
  omega

/-- **Every act brings the end nearer.** -/
theorem remaining_act (h : c.Orderly) {x : Act} (hact : c.act x = some c') :
    c'.remaining + 1 = c.remaining := by
  cases x with
  | leave j view =>
    obtain ⟨w, hw, hnone, -, -, rfl⟩ := leave_eq_some.mp hact
    obtain ⟨hlt, hget⟩ := List.getElem?_eq_some_iff.mp hw
    have hpos : 0 < c.workers.countP (·.view.isNone) :=
      List.countP_pos_iff.mpr ⟨w, List.mem_of_getElem? hw, by rw [hnone]; rfl⟩
    have hcount := List.countP_set (p := fun w : Worker => w.view.isNone)
      (l := c.workers) (i := j) (a := { w with view := some view }) hlt
    rw [hget, hnone] at hcount
    unfold remaining
    dsimp only
    rw [hcount, List.length_set]
    simp
    omega
  | finish j =>
    obtain ⟨w, view, hw, -, hnew, rfl⟩ := finish_eq_some.mp hact
    have hlt := h.handed_length_lt_iff.mpr ⟨j, (List.getElem?_eq_some_iff.mp hw).1, hnew⟩
    unfold remaining
    dsimp only
    rw [List.length_append, List.length_singleton]
    omega
  | expire =>
    obtain ⟨harmed, -, rfl⟩ := expire_eq_some.mp hact
    unfold remaining
    rw [harmed]
    rfl
  | callOff =>
    obtain ⟨hexpired, rfl⟩ := callOff_eq_some.mp hact
    unfold remaining
    rw [hexpired]
    rfl

/-- No course is longer than what is left at its beginning. -/
theorem length_perform (h : c.Orderly) {acts : List Act} (hacts : c.perform acts = some c') :
    acts.length + c'.remaining = c.remaining := by
  induction acts generalizing c with
  | nil =>
    cases hacts
    exact Nat.zero_add _
  | cons x acts ih =>
    obtain ⟨d, hd, hrest⟩ := Option.bind_eq_some_iff.mp hacts
    have hlength := ih (h.act hd) hrest
    have hone := remaining_act h hd
    rw [List.length_cons]
    omega

theorem result_eq_some {result : Except Fault Race.Result} : c.result = some result ↔
    c.handed.length = c.workers.length ∧ c.watchdog ≠ .expired ∧ result = c.upshot := by
  refine guard_bind_eq_some.trans ?_
  simp [and_assoc, eq_comm (a := result)]

theorem upshot_eq_error_iff : (∃ x, c.upshot = .error x) ↔ c.fault ≠ none := by
  unfold upshot
  cases c.fault with
  | none => simp
  | some fault => simp

/-- A race that is not called off is not over as long as a result is missing. -/
theorem Orderly.not_isOver (h : c.Orderly) (hcalm : c.cohort.cancelled = false)
    (hlt : c.handed.length < c.workers.length) : c.cohort.isOver = false := by
  rw [Bool.eq_false_iff, ne_eq, Cohort.isOver, Bool.or_eq_true, decide_eq_true_eq]
  rintro (hdecided | hfinished)
  · rw [h.reflects.cancelled hdecided] at hcalm
    cases hcalm
  · have hlength : c.results.length ≤ c.handed.length := List.length_filterMap_le _ _
    rw [h.reflects.workers, h.reflects.finished] at hfinished
    omega

/-- The time budget runs out. -/
theorem Orderly.perform_expire (h : c.Orderly) (harmed : c.watchdog = .armed)
    (hcalm : c.cohort.cancelled = false) (hlt : c.handed.length < c.workers.length) :
    c.perform [.expire, .callOff] = some { c with
      watchdog := .off
      cohort := c.cohort.cancel
      events := c.events ++ [.cancel] } := by
  have hexpire := expire_eq_some.mpr ⟨harmed, h.not_isOver hcalm hlt, rfl⟩
  have hcallOff := callOff_eq_some (c := { c with watchdog := .expired }).mpr ⟨rfl, rfl⟩
  exact Option.bind_eq_some_iff.mpr ⟨_, hexpire, Option.bind_eq_some_iff.mpr ⟨_, hcallOff, rfl⟩⟩

/-- As long as the race has not come to anything, there is something to do. -/
theorem Orderly.exists_act (h : c.Orderly) (hopen : c.result = none) :
    ∃ x c', c.act x = some c' := by
  by_cases hexpired : c.watchdog = .expired
  · exact ⟨.callOff, _, callOff_eq_some.mpr ⟨hexpired, rfl⟩⟩
  have hlt : c.handed.length < c.workers.length := by
    refine Nat.lt_of_le_of_ne h.length_handed_le fun hall => ?_
    rw [result_eq_some.mpr ⟨hall, hexpired, rfl⟩] at hopen
    cases hopen
  obtain ⟨j, hj, hnew⟩ := h.handed_length_lt_iff.mp hlt
  have hw := List.getElem?_eq_getElem hj
  cases hview : c.workers[j].view with
  | some view => exact ⟨.finish j, _, finish_eq_some.mpr ⟨_, view, hw, hview, hnew, rfl⟩⟩
  | none =>
    by_cases htold : .cancel ∈ c.events
    · exact ⟨.leave j [c.events], _, leave_eq_some.mpr
        ⟨_, hw, hview, by simp, fun _ => htold, rfl⟩⟩
    · -- nobody has called the race off, so the watchdog is still there
      have hcalm : c.cohort.cancelled = false := Bool.eq_false_iff.mpr (mt h.told htold)
      have harmed : c.watchdog = .armed := by
        cases hwatchdog : c.watchdog with
        | armed => rfl
        | expired => exact absurd hwatchdog hexpired
        | off =>
          rw [h.off hwatchdog] at hcalm
          cases hcalm
      exact ⟨.expire, _, expire_eq_some.mpr ⟨harmed, h.not_isOver hcalm hlt, rfl⟩⟩

/-- One course after another. -/
theorem perform_append {c₁ c₂ : Crew} {acts more : List Act} (h : c.perform acts = some c₁)
    (hmore : c₁.perform more = some c₂) : c.perform (acts ++ more) = some c₂ := by
  unfold perform at h hmore ⊢
  rw [List.foldlM_append, h]
  exact hmore

/-- **Every course can be continued to its end.** -/
theorem Orderly.exists_end (h : c.Orderly) :
    ∃ acts c' result, c.perform acts = some c' ∧ c'.result = some result := by
  induction hn : c.remaining using Nat.strong_induction_on generalizing c with
  | _ n ih =>
    cases hresult : c.result with
    | some result => exact ⟨[], c, result, rfl, hresult⟩
    | none =>
      obtain ⟨x, d, hd⟩ := h.exists_act hresult
      have hless := remaining_act h hd
      obtain ⟨acts, c', result, hacts, hend⟩ := ih d.remaining (by omega) (h.act hd) rfl
      refine ⟨x :: acts, c', result, ?_, hend⟩
      exact Option.bind_eq_some_iff.mpr ⟨d, hd, hacts⟩

namespace Orderly

variable (h : c.Orderly) {result : Except Fault Race.Result} (hresult : c.result = some result)

include h hresult

/-- **When a race ends in an error**: if something came up in the run of one of its workers. -/
theorem error_iff : (∃ x, result = .error x) ↔ ∃ (j : Nat) (w : Worker)
    (view : List (List Event)) (x : Fault), c.workers[j]? = some w ∧ w.view = some view ∧
      w.checker.Raises (w.surroundings c.programs view) x ∧ x.isError = true := by
  obtain ⟨hall, -, rfl⟩ := result_eq_some.mp hresult
  rw [upshot_eq_error_iff, ne_eq, h.fault]
  simp only [not_forall, exists_prop]
  constructor
  · rintro ⟨j, -, x, hx, hne⟩
    obtain ⟨w, view, hw, hview, rfl⟩ := ended_eq_some.mp hx
    obtain ⟨y, hy⟩ := Option.ne_none_iff_exists'.mp hne
    exact ⟨j, w, view, y, hw, hview, (w.fault_eq_some_iff _ _).mp hy⟩
  · rintro ⟨j, w, view, x, hw, hview, hx⟩
    refine ⟨j, ?_, _, ended_of_left hw hview, ?_⟩
    · by_contra hnew
      have hlt := h.handed_length_lt_iff.mpr ⟨j, (List.getElem?_eq_some_iff.mp hw).1, hnew⟩
      omega
    · rw [(w.fault_eq_some_iff _ _).mpr hx]
      exact Option.some_ne_none x

/-- **The verdict of a race** is the one that counts among those handed in. -/
theorem verdict_of_result {r : Race.Result} (hok : result = .ok r) :
    r.verdict = (lead c.results).map (·.2) := by
  obtain ⟨-, -, rfl⟩ := result_eq_some.mp hresult
  unfold upshot at hok
  split at hok
  · cases hok
  · cases hok
    exact h.reflects.outcome

end Orderly

end Crew

end PetriReach
