import PetriReach.Proofs.Checker.Answers
import PetriReach.Proofs.Race.Agreement

/-!
# Races one after another

In a race the checkers run in order. Each makes one attempt to start a solver. Until one of them is
conclusive, each comes to what it would come to alone; those behind it find their solver killed and
come to nothing. So the race comes to the first conclusive verdict.

* `Checker.run_starts`: every run makes one attempt to start a solver.
* `Checker.run_late`: a run in a race that is decided.
* `Race.State.Follows`: the state of a race after some of its checkers.
* `Race.first_conclusive`: what the race comes to.
-/

namespace PetriReach

open Smt Work

/-! ## Starting solvers -/

namespace Arena

variable {a b : Arena}

/-- Surroundings with nothing but a backend and the programs there are. -/
def alone (programs : List String) (b : Option Backend) : Arena where
  cohort := { workers := 1 }
  programs
  backends := [b]

/-- Nothing happens from outside. -/
abbrev Undisturbed (a : Arena) : Prop :=
  a.agenda = [] ∧ a.meanwhile = []

theorem Undisturbed.agenda (h : a.Undisturbed) : a.agenda = [] :=
  h.1

theorem Undisturbed.meanwhile (h : a.Undisturbed) : a.meanwhile = [] :=
  h.2

theorem alone_calm (programs : List String) (b : Option Backend) : (alone programs b).Calm :=
  ⟨rfl, by simp [alone], rfl⟩

theorem backend?_eq (a : Arena) (config : SolverConfig) : a.backend? config =
    (config.launch a.programs (a.backends.head?.getD (some {}))).toOption := by
  unfold backend? start
  cases config.launch a.programs (a.backends.head?.getD (some {})) with
  | error reason => rfl
  | ok b => rfl

/-- The backends that a start leaves, and their number. -/
theorem start_leaves (a : Arena) (config : SolverConfig) :
    (a.start config).2.backends = (if config.takes then a.backends.tail else a.backends) ∧
      (a.start config).2.started = if config.takes then a.started + 1 else a.started := by
  unfold start
  split
  · exact ⟨rfl, rfl⟩
  · exact ⟨rfl, rfl⟩

theorem start_leaves_congr (hbackends : a.backends = b.backends) (hstarted : a.started = b.started)
    (config : SolverConfig) : (a.start config).2.backends = (b.start config).2.backends ∧
      (a.start config).2.started = (b.start config).2.started := by
  rw [(a.start_leaves config).1, (a.start_leaves config).2, (b.start_leaves config).1,
    (b.start_leaves config).2, hbackends, hstarted]
  exact ⟨rfl, rfl⟩

theorem info_leaves (a : Arena) (text : String) :
    (a.info text).backends = a.backends ∧ (a.info text).started = a.started := by
  refine info_cases (p := fun a' => a'.backends = a.backends ∧ a'.started = a.started)
    ⟨rfl, rfl⟩ (fun text => ?_) text
  rw [emit_eq]
  exact ⟨rfl, rfl⟩

theorem cellAfter_of_quiet (h : a.agenda = []) (n : Nat) : a.cellAfter n = a.bound := by
  induction n with
  | zero => rfl
  | succ n ih =>
    rw [cellAfter, ih, published, h]
    rfl

end Arena

theorem Stage.course_backends :
    Course fun s s' => s'.backends = s.backends ∧ s'.started = s.started where
  refl _ := ⟨rfl, rfl⟩
  trans h h' := ⟨h'.1.trans h.1, h'.2.trans h.2⟩
  settle s := by
    rw [settle_toArena]
    exact ⟨rfl, rfl⟩
  elapse s := by
    rw [around, settle_toArena, Arena.elapse_eq]
    exact ⟨rfl, rfl⟩
  emit s text := by
    rw [around, settle_toArena, Arena.emit_eq]
    exact ⟨rfl, rfl⟩
  expire s := by
    rw [around, settle_toArena]
    exact s.info_leaves _
  kill _ := ⟨rfl, rfl⟩
  session _ _ _ := ⟨rfl, rfl⟩
  witness _ _ := ⟨rfl, rfl⟩

namespace Checker

variable {c : Checker} {a : Arena}

theorem leave_leaves (c : Checker) (id : Nat) (r : Except Fault (Option Verdict)) (s : Stage) :
    (c.leave id r s).arena.backends = s.backends ∧ (c.leave id r s).arena.started = s.started := by
  unfold leave
  dsimp only
  split
  · exact ⟨rfl, rfl⟩
  · exact Arena.info_leaves _ _
  · exact ⟨rfl, rfl⟩

/-- **Every run makes one attempt to start a solver**, and has one if that succeeds. -/
theorem run_starts (c : Checker) (a : Arena) :
    (c.run a).arena.backends = (a.start c.config).2.backends ∧
      (c.run a).arena.started = (a.start c.config).2.started ∧
      (c.run a).session.isSome = (a.backend? c.config).isSome := by
  have hfst := a.start_info (c.label "RUNNING") c.config
  obtain ⟨hbackends, hstarted⟩ := a.info_leaves (c.label "RUNNING")
  obtain ⟨hb, hn⟩ := Arena.start_leaves_congr hbackends hstarted c.config
  rw [← hb, ← hn, Arena.backend?, ← hfst]
  cases hstart : (a.info (c.label "RUNNING")).start c.config with
  | mk result a' =>
    cases result with
    | error reason =>
      rw [run, hstart]
      dsimp only
      rw [Arena.warn, Arena.emit_eq]
      exact ⟨rfl, rfl, rfl⟩
    | ok session =>
      have hprove := (Stage.course_backends.prove (c := c) fun _ _ _ => ⟨rfl, rfl⟩)
        (c.enlist a' session)
      have henlist : (c.enlist a' session).backends = a'.backends ∧
          (c.enlist a' session).started = a'.started := by
        rw [enlist, Stage.settle_toArena]
        exact ⟨rfl, rfl⟩
      rw [henlist.1, henlist.2] at hprove
      rw [run_of_start hstart, leave_session, (leave_leaves _ _ _ _).1, (leave_leaves _ _ _ _).2]
      exact ⟨hprove.1, hprove.2, rfl⟩

/-- A strategy whose solver is killed breaks off before anything is sent. -/
theorem start_of_killed (hw : c.encoder.Writable) {s : Stage} (hkilled : s.session.killed = true) :
    ∃ s', c.prove.start s = (.error (.aborted .killed), s') ∧ s.toArena.Untouched s'.toArena ∧
      s'.session.process = s.session.process := by
  have hsend : ∀ (k : Option Int) {s : Stage} (rest : Unit → Work (Option Verdict)),
      s.session.killed = true →
      ∃ s', (send (c.encoder.declarePlaces k) >>= rest).start s = (.error (.aborted .killed), s') ∧
        s.toArena.Untouched s'.toArena ∧ s'.session.process = s.session.process := by
    intro k s rest hkilled
    obtain ⟨s', hs', hrest⟩ := start_abort_untouched (α := PUnit) .killed s
    refine ⟨s', ?_, hrest⟩
    have hwrite : ∀ text, (write text).start s = (.error (.aborted .killed), s') := by
      intro text
      rw [write_eq, guarded, start_bind, start_get]
      dsimp only
      rw [if_pos hkilled, start_bind, hs']
    rw [Encoder.declarePlaces_eq hw k]
    show (write _ >>= rest).start s = _
    rw [start_bind, hwrite]
  unfold prove
  cases c.method with
  | stateEquation => exact hsend _ _ hkilled
  | induction => exact hsend _ _ hkilled
  | bmc => exact hsend (s := { s with witness := none }) _ _ hkilled
  | kInduction => exact hsend _ _ hkilled

theorem untouched_of_killed (c : Checker) {s : Stage} (hkilled : s.session.killed = true) :
    s.toArena.Untouched (c.prove.start s).2.toArena := by
  by_cases hw : c.encoder.Writable
  · obtain ⟨s', hs', huntouched, -⟩ := start_of_killed hw hkilled
    rw [hs']
    exact huntouched
  · obtain ⟨e, -, -, harena⟩ := start_of_not_writable hw s
    rw [harena]
    exact ⟨0, .refl _⟩

/-- In a race that is called off, a solver that starts is killed before the strategy begins. -/
theorem killed_enlist (hcancelled : a.cohort.cancelled = true) (c : Checker) (session : Session) :
    (c.enlist a session).session.killed = true := by
  rw [enlist, Stage.killed_settle]
  · exact hcancelled
  · exact List.mem_append_right _ List.mem_cons_self
  · exact fun _ => hcancelled

/-- **A run in a race that is called off** leaves its surroundings alone. -/
theorem run_untouched (hcancelled : a.cohort.cancelled = true) (c : Checker) :
    a.Untouched (c.run a).arena := by
  have hinfo : a.Untouched (a.info (c.label "RUNNING")) := ⟨_, (Arena.After.refl a).info _⟩
  have hsnd := hinfo.trans ⟨0, (a.info (c.label "RUNNING")).after_start c.config⟩
  cases hstart : (a.info (c.label "RUNNING")).start c.config with
  | mk result a' =>
    rw [hstart] at hsnd
    cases result with
    | error reason =>
      rw [run, hstart]
      exact hsnd.trans ⟨1, a'.after_emit _⟩
    | ok session =>
      have hkilled := killed_enlist (hsnd.aged.cohort.cancelled hcancelled) c session
      have henlist : a'.Untouched (c.enlist a' session).toArena := by
        rw [enlist, Stage.settle_toArena]
        exact ⟨0, (Arena.After.refl a').beside (a'.cohort.noResult_enlist _) rfl a'.backends
          a'.started⟩
      rw [run_of_start hstart]
      exact (hsnd.trans (henlist.trans (c.untouched_of_killed hkilled))).trans
        (c.leave_untouched _ _ _)

/-- It comes to nothing, and its solver hears nothing, if the names of the places can be written. -/
theorem run_late (hcancelled : a.cohort.cancelled = true) (hw : c.encoder.Writable) :
    (c.run a).outcome = .ok none ∧
      ∀ session, (c.run a).session = some session → session.process.received = [] := by
  have hinfo : a.Untouched (a.info (c.label "RUNNING")) := ⟨_, (Arena.After.refl a).info _⟩
  have hsnd := hinfo.trans ⟨0, (a.info (c.label "RUNNING")).after_start c.config⟩
  cases hstart : (a.info (c.label "RUNNING")).start c.config with
  | mk result a' =>
    rw [hstart] at hsnd
    cases result with
    | error reason =>
      rw [run, hstart]
      exact ⟨rfl, fun session hs => by cases hs⟩
    | ok session =>
      obtain ⟨b, -, hsession, -⟩ := Arena.start_ok hstart
      have hkilled := killed_enlist (hsnd.aged.cohort.cancelled hcancelled) c session
      obtain ⟨s', hs', -, hprocess⟩ := start_of_killed hw hkilled
      rw [run_of_start hstart, hs']
      refine ⟨rfl, fun x hx => ?_⟩
      rw [leave_session, Option.some.injEq] at hx
      subst hx
      show s'.session.process.received = []
      rw [hprocess, enlist_process, hsession]
      rfl

end Checker

/-! ## The results of a race -/

namespace Cohort

/-- Two lists of results with the same verdict that counts. -/
structure SameLead (fs gs : Results) : Prop where
  conclusive : firstConclusive fs = firstConclusive gs
  unknown : firstConclusive gs = none → firstUnknown fs = firstUnknown gs

variable {fs gs : Results}

theorem SameLead.lead (h : SameLead fs gs) : lead fs = lead gs := by
  unfold Cohort.lead
  rw [h.conclusive]
  cases hfirst : firstConclusive gs with
  | none => rw [h.unknown hfirst]
  | some x => rfl

/-- The same result, once more. -/
theorem SameLead.concat (h : SameLead fs gs) (f : String × Option Verdict) :
    SameLead (fs ++ [f]) (gs ++ [f]) := by
  refine ⟨by rw [firstConclusive_append, firstConclusive_append, h.conclusive], fun hnone => ?_⟩
  rw [firstConclusive_append, Option.or_eq_none_iff] at hnone
  rw [firstUnknown_append, firstUnknown_append, h.unknown hnone.1]

/-- Behind a conclusive verdict, nothing counts. -/
theorem SameLead.concat_late (h : SameLead fs gs) {x : String × Verdict}
    (hx : firstConclusive gs = some x) (f g : String × Option Verdict) :
    SameLead (fs ++ [f]) (gs ++ [g]) := by
  refine ⟨?_, fun hnone => ?_⟩
  · rw [firstConclusive_append, firstConclusive_append, h.conclusive, hx, Option.some_or,
      Option.some_or]
  · rw [firstConclusive_append, hx] at hnone
    cases hnone

variable {ι : Type}

/-- The race is called off by the first conclusive verdict, and by nothing else. -/
theorem Reflects.cancelled_finish {c : Cohort ι} {n : Nat} (h : c.Reflects n fs)
    (hnone : firstConclusive fs = none) (name : String) (verdict : Option Verdict) :
    (c.finish name verdict).cancelled =
      (c.cancelled || (firstConclusive [(name, verdict)]).isSome) := by
  have hopen : c.conclusive.isSome = false := by rw [h.isSome_conclusive, hnone]; rfl
  cases verdict with
  | none => simp [Cohort.finish, firstConclusive_none]
  | some v =>
    cases hv : v.isConclusive with
    | true => simp [Cohort.finish, hopen, hv, firstConclusive_some hv, Cohort.cancel]
    | false =>
      obtain rfl := eq_unknown hv
      cases hgave : c.gaveUp <;>
        simp [Cohort.finish, hopen, hgave, firstConclusive_unknown, Verdict.isConclusive]

end Cohort

namespace Race

open Cohort

variable {s : State} {c : Checker} {programs : List String} {bs : List (Option Backend)} {n : Nat}
  {fs : Results}

/-- The backend of the checker number `j`, if each takes one. -/
def own (bs : List (Option Backend)) (j : Nat) : Option Backend :=
  bs[j]?.getD (some {})

/-- The surroundings after a checker that had an outcome. -/
theorem step_ok {verdict : Option Verdict} (h : (c.run s.arena).outcome = .ok verdict) : ∃ b,
    (c.run s.arena).arena.Untouched b ∧ b.backends = (c.run s.arena).arena.backends ∧
      s.step c = { s with
        done := s.done ++ [(c.run s.arena).checker]
        arena := { b with cohort := b.cohort.finish c.method.name verdict } } := by
  unfold State.step
  dsimp only
  rw [h]
  cases verdict with
  | none => exact ⟨_, ⟨0, .refl _⟩, rfl, rfl⟩
  | some v =>
    exact ⟨_, ⟨_, (Arena.After.refl _).info _⟩, (Arena.info_leaves _ _).1, rfl⟩

/-- The state of a race after some of its checkers: `fs` is what these come to alone. -/
structure State.Follows (n : Nat) (programs : List String) (bs : List (Option Backend))
    (config : SolverConfig) (fs : Results) (s : State) : Prop where
  fault : s.fault = none
  quiet : s.arena.Undisturbed
  programs : s.arena.programs = programs
  armed : s.arena.watchdog = .armed
  backends : config.takes = true → s.arena.backends = bs.drop fs.length
  cancelled : s.arena.cohort.cancelled = (firstConclusive fs).isSome
  reflects : ∃ gs, s.arena.cohort.Reflects n gs ∧ SameLead gs fs

variable {config : SolverConfig}

/-- A checker finds its own backend next. -/
theorem State.Follows.backend? (h : s.Follows n programs bs config fs) :
    (Arena.alone programs (own bs fs.length)).backend? config = s.arena.backend? config := by
  rw [Arena.backend?_eq, Arena.backend?_eq, h.programs]
  cases htakes : config.takes with
  | false => exact congrArg Except.toOption (SolverConfig.launch_of_not_takes htakes _ _ _)
  | true =>
    rw [h.backends htakes, List.head?_drop]
    rfl

/-- Without a bound in the cell, a checker comes to the same as alone. -/
theorem State.Follows.conclude (h : s.Follows n programs bs c.config fs)
    (hbound : c.method = .bmc → s.arena.bound.poll = none) :
    c.conclude s.arena = c.conclude (.alone programs (own bs fs.length)) := by
  have hdelivered : s.arena.delivered c.config =
      (Arena.alone programs (own bs fs.length)).delivered c.config := by
    rw [Arena.delivered, Arena.delivered, h.backend?]
  unfold Checker.conclude
  rw [hdelivered]
  cases hm : c.method with
  | stateEquation => rfl
  | induction => rfl
  | kInduction => rfl
  | bmc =>
    have hpolls : c.polls s.arena = c.polls (.alone programs (own bs fs.length)) := by
      funext k
      unfold Checker.polls Strategy.pollsFrom
      rw [Arena.cellAfter_of_quiet h.quiet.agenda, hbound hm, Arena.cellAfter_of_quiet rfl]
      rfl
    rw [hpolls]

theorem State.Follows.calm (h : s.Follows n programs bs config fs)
    (hopen : firstConclusive fs = none) : s.arena.Calm := by
  refine ⟨by rw [h.cancelled, hopen]; rfl, fun event hevent => ?_, h.quiet.meanwhile⟩
  rw [h.quiet.agenda] at hevent
  cases hevent

/-- What a result adds, if the checker left nothing else behind. -/
theorem State.Follows.next (h : s.Follows n programs bs c.config fs) {v w : Option Verdict}
    (hrun : (c.run s.arena).outcome = .ok v) (haged : s.arena.Aged (c.run s.arena).arena)
    (hopen : firstConclusive fs = none → v = w) :
    (s.step c).Follows n programs bs c.config (fs ++ [(c.method.name, w)]) := by
  obtain ⟨b, hb, hbackends, hstep⟩ := step_ok hrun
  have hall := haged.trans hb.aged
  obtain ⟨gs, hreflects, hsame⟩ := h.reflects
  have hreflects' := (hreflects.noResult hall.cohort)
  rw [hstep]
  refine ⟨h.fault, ⟨hall.agenda.trans h.quiet.agenda, hall.meanwhile h.quiet.meanwhile⟩,
    hall.programs.trans h.programs, hall.watchdog.trans h.armed, fun htakes => ?_, ?_, ?_⟩
  · show b.backends = _
    rw [hbackends, (c.run_starts s.arena).1, (s.arena.start_leaves c.config).1, if_pos htakes,
      h.backends htakes, List.tail_drop, List.length_append]
    rfl
  · show (b.cohort.finish c.method.name v).cancelled = _
    rw [firstConclusive_append]
    cases hfirst : firstConclusive fs with
    | some x =>
      refine (hreflects'.finish c.method.name v).cancelled ?_
      rw [(hreflects'.finish c.method.name v).isSome_conclusive, firstConclusive_append,
        hsame.conclusive, hfirst]
      rfl
    | none =>
      have hcalm : s.arena.Calm := h.calm hfirst
      rw [hreflects'.cancelled_finish (hsame.conclusive.trans hfirst), (hall.calm hcalm).1,
        hopen hfirst]
      rfl
  · refine ⟨_, hreflects'.finish c.method.name v, ?_⟩
    cases hfirst : firstConclusive fs with
    | some x => exact hsame.concat_late hfirst _ _
    | none =>
      rw [hopen hfirst]
      exact hsame.concat _

/-- **One checker of a race.** Its result is the one that it comes to alone, unless the race is
decided; then its solver hears nothing. -/
theorem State.Follows.step (h : s.Follows n programs bs c.config fs) (hencodes : c.Encodes)
    (hserved : c.Served (.alone programs (own bs fs.length)))
    (hbound : c.method = .bmc → s.arena.bound.poll = none) :
    (s.step c).Follows n programs bs c.config
      (fs ++ [(c.method.name, c.conclude (.alone programs (own bs fs.length)))]) ∧
    (c.method ≠ .kInduction → (s.step c).arena.bound = s.arena.bound) := by
  have hkeeps : ∀ {v}, (c.run s.arena).outcome = .ok v → s.arena.Untouched (c.run s.arena).arena →
      (s.step c).arena.bound = s.arena.bound := by
    intro v hrun huntouched
    obtain ⟨b, hb, -, hstep⟩ := step_ok hrun
    rw [hstep]
    exact (huntouched.trans hb).bound.trans (Arena.cellAfter_of_quiet h.quiet.agenda _)
  cases hfirst : firstConclusive fs with
  | some x =>
    have hcancelled : s.arena.cohort.cancelled = true := by rw [h.cancelled, hfirst]; rfl
    obtain ⟨hrun, -⟩ := Checker.run_late hcancelled hencodes.writable
    have huntouched := Checker.run_untouched hcancelled c
    refine ⟨h.next hrun huntouched.aged fun hnone => ?_, fun _ => hkeeps hrun huntouched⟩
    rw [hfirst] at hnone
    cases hnone
  | none =>
    have hserved' : c.Served s.arena := by
      intro b hb
      exact hserved b (h.backend?.trans hb)
    have hcalm := h.calm hfirst
    have hrun := Checker.run_conclude hcalm hencodes hserved'
    obtain ⟨haged, huntouched⟩ := Checker.run_aged hcalm hencodes hserved'
    exact ⟨h.next hrun haged fun _ => h.conclude hbound,
      fun hm => hkeeps hrun (huntouched hm)⟩

/-- What checkers come to alone, each with its own backend. -/
def aloneResults (programs : List String) (bs : List (Option Backend))
    (cs : List Checker) : Results :=
  cs.mapIdx fun j c => (c.method.name, c.conclude (.alone programs (own bs j)))

theorem length_aloneResults (programs : List String) (bs : List (Option Backend))
    (cs : List Checker) :
    (aloneResults programs bs cs).length = cs.length :=
  List.length_mapIdx

/-- **The checkers of a race, one after another.** -/
theorem State.Follows.foldl (h : s.Follows n programs bs config [])
    (hempty : s.arena.bound.poll = none)
    {cs : List Checker} (hconfig : ∀ c ∈ cs, c.config = config) (hencodes : ∀ c ∈ cs, c.Encodes)
    (hserved : ∀ (j : Nat) (c : Checker), cs[j]? = some c → c.Served (.alone programs (own bs j)))
    (horder : cs.Pairwise fun c d => c.method = .kInduction → d.method ≠ .bmc) :
    (cs.foldl State.step s).Follows n programs bs config (aloneResults programs bs cs) ∧
      ((∀ c ∈ cs, c.method ≠ .kInduction) →
        (cs.foldl State.step s).arena.bound = s.arena.bound) := by
  induction cs using List.reverseRecOn with
  | nil => exact ⟨h, fun _ => rfl⟩
  | append_singleton cs c ih =>
    rw [List.forall_mem_append, List.forall_mem_singleton] at hconfig hencodes
    rw [List.pairwise_append] at horder
    have hearlier : ∀ (j : Nat) (d : Checker), cs[j]? = some d →
        d.Served (.alone programs (own bs j)) := by
      intro j d hd
      refine hserved j d ?_
      rwa [List.getElem?_append_left (List.getElem?_eq_some_iff.mp hd).1]
    obtain ⟨hrest, hbound⟩ := ih hconfig.1 hencodes.1 hearlier horder.1
    have hlast : c.Served (.alone programs (own bs (aloneResults programs bs cs).length)) :=
      hserved _ c (by rw [length_aloneResults, List.getElem?_concat_length])
    -- k-induction never comes before bounded model checking, so no bound is there yet
    have hpoll : c.method = .bmc → (cs.foldl State.step s).arena.bound.poll = none := by
      intro hm
      rw [hbound fun d hd hk => horder.2.2 d hd c List.mem_cons_self hk hm]
      exact hempty
    rw [← hconfig.2] at hrest ⊢
    obtain ⟨hnext, hkeeps⟩ := hrest.step hencodes.2 hlast hpoll
    rw [List.foldl_concat]
    refine ⟨?_, fun hno => ?_⟩
    · rw [length_aloneResults] at hnext
      rw [aloneResults, List.mapIdx_concat]
      exact hnext
    · rw [List.forall_mem_append, List.forall_mem_singleton] at hno
      rw [hkeeps hno.2, hbound hno.1]

variable {net : Net} {f : Formula} {o : RaceOptions} {r : Race} {a : Arena}

/-- The surroundings that the checker number `j` of a race finds. -/
def before (r : Race) (a : Arena) (j : Nat) : Arena :=
  ((r.checkers.take j).foldl State.step { arena := r.prepare a }).arena

theorem config_of_make {method : Method} {encoding : Encoding} {heedsBound : Bool}
    (h : Checker.make method net f encoding config heedsBound = .ok c) : c.config = config := by
  obtain ⟨enc, -, rfl, -, -⟩ := Checker.make_ok h
  rfl

theorem prepare_follows (hquiet : a.Undisturbed) (hbudget : 0 < r.budget)
    (config : SolverConfig) :
    State.Follows r.checkers.length a.programs a.backends config [] { arena := r.prepare a } ∧
      (r.prepare a).bound.poll = none := by
  unfold prepare
  dsimp only
  rw [if_neg (by omega)]
  exact ⟨⟨rfl, hquiet, rfl, rfl, fun _ => rfl, rfl, [], reflects_new _, rfl, fun _ => rfl⟩, rfl⟩

theorem order_of_make (h : make net f o = .ok r) :
    r.checkers.Pairwise fun c d => c.method = .kInduction → d.method ≠ .bmc := by
  have hmethods : (r.checkers.map (·.method)).Pairwise fun m m' => m = .kInduction → m' ≠ .bmc := by
    rw [(make_ok h).1]
    exact List.Pairwise.filter _ (by decide)
  exact List.pairwise_map.mp hmethods

theorem getElem?_aloneResults (programs : List String) (bs : List (Option Backend))
    (cs : List Checker) (j : Nat) :
    (aloneResults programs bs cs)[j]? =
      cs[j]?.map fun c => (c.method.name, c.conclude (.alone programs (own bs j))) := by
  rw [aloneResults, List.getElem?_mapIdx]

theorem names_aloneResults (programs : List String) (bs : List (Option Backend))
    (cs : List Checker) :
    (aloneResults programs bs cs).map (·.1) = (cs.map (·.method)).map Method.name := by
  refine List.ext_getElem? fun j => ?_
  rw [List.getElem?_map, getElem?_aloneResults, List.map_map, List.getElem?_map, Option.map_map]
  rfl

/-- The state before the checker number `j`. -/
theorem follows_before (hrace : make net f o = .ok r) (hencodes : ∀ c ∈ r.checkers, c.Encodes)
    (hserved : ∀ (j : Nat) (c : Checker), r.checkers[j]? = some c →
      c.Served (.alone a.programs (own a.backends j)))
    (hquiet : a.Undisturbed) (hbudget : 0 < r.budget) (j : Nat) :
    State.Follows r.checkers.length a.programs a.backends o.config
      (aloneResults a.programs a.backends (r.checkers.take j))
      ((r.checkers.take j).foldl State.step { arena := r.prepare a }) := by
  obtain ⟨hstart, hempty⟩ := prepare_follows hquiet hbudget o.config
  refine (hstart.foldl hempty (fun c hc => ?_) (fun c hc => hencodes c (List.mem_of_mem_take hc))
    (fun i c hc => hserved i c ?_) ((order_of_make hrace).sublist (List.take_sublist j _))).1
  · exact config_of_make ((make_ok hrace).2 c (List.mem_of_mem_take hc))
  · have hlt : i < j := by
      have hlength := (List.getElem?_eq_some_iff.mp hc).1
      rw [List.length_take] at hlength
      omega
    rwa [List.getElem?_take_of_lt hlt] at hc

/-- **The first conclusive verdict.** A race comes to the verdict of the first of its checkers that
is conclusive alone, with its own backend; if there is none, to that of the first that gave up. The
checkers behind it still make their attempt to start a solver, which hears nothing. -/
theorem first_conclusive (hrace : make net f o = .ok r) (hencodes : ∀ c ∈ r.checkers, c.Encodes)
    (hserved : ∀ (j : Nat) (c : Checker), r.checkers[j]? = some c →
      c.Served (.alone a.programs (own a.backends j)))
    (hquiet : a.Undisturbed) (hbudget : 0 < r.budget) : ∃ fs : Results,
      fs.map (·.1) = ([Method.stateEquation, .induction, .bmc, .kInduction].filter fun m =>
        m ∈ o.methods ∨ (m = .bmc ∧ .kInduction ∈ o.methods)).map Method.name ∧
      (∀ (j : Nat) (c : Checker), r.checkers[j]? = some c → ∃ v,
        (c.run (.alone a.programs (own a.backends j))).outcome = .ok v ∧
          fs[j]? = some (c.method.name, v)) ∧
      (r.run a).1 = .ok ⟨(lead fs).map (·.2), ((lead fs).map (·.1)).getD "", false⟩ ∧
      ∀ (j : Nat) (c : Checker), r.checkers[j]? = some c →
        (c.run (r.before a j)).arena.started = (if o.config.takes then (r.before a j).started + 1
          else (r.before a j).started) ∧
        (c.run (r.before a j)).session.isSome =
          ((Arena.alone a.programs (own a.backends j)).backend? c.config).isSome ∧
        ((∃ i < j, ∃ name v, fs[i]? = some (name, some v) ∧ v.isConclusive = true) →
          (c.run (r.before a j)).outcome = .ok none ∧ ∀ session,
            (c.run (r.before a j)).session = some session → session.process.received = []) := by
  have hconfig : ∀ c ∈ r.checkers, c.config = o.config := fun c hc =>
    config_of_make ((make_ok hrace).2 c hc)
  have hfollows := fun j => follows_before hrace hencodes hserved hquiet hbudget j
  refine ⟨aloneResults a.programs a.backends r.checkers, ?_, fun j c hc => ?_, ?_,
    fun j c hc => ⟨?_, ?_, ?_⟩⟩
  · rw [names_aloneResults, (make_ok hrace).1]
    rfl
  · have hcalm := Arena.alone_calm a.programs (own a.backends j)
    have hmem := List.mem_of_getElem? hc
    refine ⟨_, Checker.run_conclude hcalm (hencodes c hmem) (hserved j c hc), ?_⟩
    rw [getElem?_aloneResults, hc]
    rfl
  · have hall := hfollows r.checkers.length
    rw [List.take_length] at hall
    obtain ⟨gs, hreflects, hsame⟩ := hall.reflects
    unfold Race.run
    split
    · next hempty =>
      rw [List.isEmpty_iff.mp hempty]
      rfl
    · dsimp only
      rw [hall.fault]
      dsimp only
      rw [hreflects.outcome, hreflects.decidedBy, hall.armed, hsame.lead]
      rfl
  · rw [(c.run_starts _).2.1, (Arena.start_leaves _ _).2, hconfig c (List.mem_of_getElem? hc)]
  · have hj : j ≤ r.checkers.length := Nat.le_of_lt (List.getElem?_eq_some_iff.mp hc).1
    have hbackend := (hfollows j).backend?
    rw [length_aloneResults, List.length_take, Nat.min_eq_left hj] at hbackend
    rw [(c.run_starts _).2.2, hconfig c (List.mem_of_getElem? hc), hbackend]
    rfl
  · rintro ⟨i, hi, name, v, hv, hconclusive⟩
    have hdecided : (firstConclusive
        (aloneResults a.programs a.backends (r.checkers.take j))).isSome = true := by
      refine isSome_firstConclusive.mpr ⟨(name, some v), List.mem_of_getElem? (i := i) ?_, v, rfl,
        hconclusive⟩
      rw [getElem?_aloneResults, List.getElem?_take_of_lt hi, ← getElem?_aloneResults]
      exact hv
    exact Checker.run_late ((hfollows j).cancelled.trans hdecided)
      (hencodes c (List.mem_of_getElem? hc)).writable

/-! ## A race that counts -/

/-- A race of all strategies for a count of 1. -/
def countingRace : Race where
  checkers := Method.all.map fun m => Checker.counterChecker m 0 true
  budget := 225

/-- The state equation gives up, induction has no solver, bounded model checking finds a witness,
and k-induction would find a bound. -/
def countingArena : Arena where
  cohort := { workers := 1 }
  backends := [some { answers := ["sat"] }, none, some { answers := ["unsat\nsat", "sat"] },
    some { answers := ["unsat"] }]

theorem make_countingRace : make (Checker.counter 0) Checker.countOne
    { methods := [.kInduction, .induction, .stateEquation, .induction] } = .ok countingRace :=
  rfl

theorem counter_encodes (m : Method) : (Checker.counterChecker m 0 true).Encodes := by
  have hwritable : ∀ p ∈ (Checker.counter 0).places, isQuotable p.id = true := by decide
  have hcountable : ∀ t ∈ (Checker.counter 0).transitions, isQuotable t.id = true := by decide
  exact Checker.encodes_of_speaks (Checker.speaks_of_parse Checker.counter_parse
    Checker.countOne_parse Checker.make_counterChecker hwritable fun _ => hcountable)

theorem counting_served (j : Nat) (c : Checker) (hc : countingRace.checkers[j]? = some c) :
    c.Served (.alone countingArena.programs (own countingArena.backends j)) := by
  rcases j with _ | _ | _ | _ | j
  · cases hc
    rintro b ⟨⟩
    exact ⟨rfl, .inl rfl⟩
  · cases hc
    rintro b ⟨⟩
  · cases hc
    rintro b ⟨⟩
    exact ⟨rfl, .inl rfl⟩
  · cases hc
    rintro b ⟨⟩
    exact ⟨rfl, .inl rfl⟩
  · cases hc

/-- Bounded model checking decides the race. K-induction starts its solver and says nothing to
it. -/
theorem counting_decided :
    (∀ c ∈ countingRace.checkers, c.Encodes) ∧ countingArena.Undisturbed ∧
    0 < countingRace.budget ∧
    (countingRace.run countingArena).1 = .ok ⟨some .reachable, "BMC", false⟩ ∧
    ∃ session, ((Checker.counterChecker .kInduction 0 true).run
      (countingRace.before countingArena 3)).session = some session ∧
        session.process.received = [] := by
  have hencodes : ∀ c ∈ countingRace.checkers, c.Encodes := by
    intro c hc
    obtain ⟨m, -, rfl⟩ := List.mem_map.mp hc
    exact counter_encodes m
  have hbudget : 0 < countingRace.budget := by decide
  obtain ⟨fs, hnames, halone, hrun, hattempts⟩ :=
    first_conclusive (a := countingArena) make_countingRace hencodes counting_served ⟨rfl, rfl⟩
      hbudget
  have hresult : ∀ (j : Nat) (c : Checker) (v : Option Verdict),
      countingRace.checkers[j]? = some c →
      (c.run (.alone countingArena.programs (own countingArena.backends j))).outcome = .ok v →
      fs[j]? = some (c.method.name, v) := by
    intro j c v hc hv
    obtain ⟨v', hv', hfs⟩ := halone j c hc
    rw [hv, Except.ok.injEq] at hv'
    exact hv' ▸ hfs
  have hfound := hresult 2 _ (some .reachable) rfl (by decide +kernel)
  have hfs : fs = [("STATE-EQUATION", some .unknown), ("INDUCTION", none),
      ("BMC", some .reachable), ("K-INDUCTION", none)] := by
    have hlength : fs.length = 4 := by simpa using congrArg List.length hnames
    refine List.ext_getElem? fun j => ?_
    rcases j with _ | _ | _ | _ | j
    · exact hresult 0 _ _ rfl (by decide +kernel)
    · exact hresult 1 _ _ rfl (by decide +kernel)
    · exact hfound
    · exact hresult 3 _ _ rfl (by decide +kernel)
    · rw [List.getElem?_eq_none (by omega), List.getElem?_eq_none (by simp)]
  refine ⟨hencodes, ⟨rfl, rfl⟩, hbudget, ?_, ?_⟩
  · rw [hrun, hfs]
    rfl
  · obtain ⟨-, hsome, hlate⟩ := hattempts 3 _ rfl
    obtain ⟨session, hsession⟩ := Option.isSome_iff_exists.mp (hsome.trans rfl)
    exact ⟨session, hsession, (hlate ⟨2, by decide, _, _, hfound, rfl⟩).2 session hsession⟩

end Race

end PetriReach
