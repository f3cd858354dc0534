import PetriReach.Checker
import PetriReach.Proofs.Encoder.Names
import PetriReach.Proofs.Strategy.Bmc

/-!
# Runs of a checker

What a checker was made from, and what its run has to do with the work of its strategy. A run starts
one solver; the strategy then finds an empty conversation before it.

* `Checker.make_ok`: a checker asks about places of its net only.
* `Checker.writable_of_prove`: where no error of the encoder stops a strategy, all names are
  writable.
* `Checker.exists_ran`: the stage on which the strategy of a run works.
* `Checker.TrueRun`: runs whose solver tells the truth.
-/

namespace PetriReach

open Smt Work

/-! ## Checkers -/

namespace Checker

variable {method : Method} {net : Net} {f : Formula} {encoding : Encoding}
  {config : SolverConfig} {heedsBound : Bool} {c : Checker}

/-- **A checker asks about places of its net only**; in marks, both fit the encoding. -/
theorem make_ok (h : make method net f encoding config heedsBound = .ok c) : ∃ enc,
    enc = (if method = .stateEquation then .integer else encoding) ∧
    c = { method, encoder := ⟨net, some (.formula f), enc⟩, config, heedsBound } ∧ f.Over net ∧
    (enc = .boolean → Encoder.checkNet net = .ok () ∧ Encoder.checkFormula f = .ok ()) := by
  refine ⟨_, rfl, ?_⟩
  unfold make at h
  generalize (if method = .stateEquation then Encoding.integer else encoding) = enc at h ⊢
  obtain ⟨e, he, h⟩ := exists_of_bind_ok h
  cases h
  obtain ⟨rfl, hplaces, hmarks⟩ := Encoder.make_ok he
  exact ⟨rfl, Encoder.over_of_checkPlaces hplaces, hmarks⟩

/-- Where a name is not writable, an error of the encoder stops the strategy before anything is
sent. -/
theorem start_of_not_writable (h : ¬ c.encoder.Writable) (s : Stage) : ∃ e,
    (c.prove.start s).1 = .error (.encoding e) ∧ (c.prove.start s).2.session = s.session ∧
      (c.prove.start s).2.toArena = s.toArena := by
  have hsend : ∀ {α : Type} (k : Option Int) (s : Stage) (rest : Unit → Work α), ∃ e,
      (send (c.encoder.declarePlaces k) >>= rest).start s = (.error (.encoding e), s) := by
    intro α k s rest
    cases hd : c.encoder.declarePlaces k with
    | ok cs => exact absurd (Encoder.writable_of_declarePlaces hd) h
    | error e => exact ⟨e, rfl⟩
  have hfirst : ∃ e s', c.prove.start s = (.error (.encoding e), s') ∧
      s'.session = s.session ∧ s'.toArena = s.toArena := by
    unfold prove
    split
    · obtain ⟨e, he⟩ := hsend none s _
      exact ⟨e, s, he, rfl, rfl⟩
    · obtain ⟨e, he⟩ := hsend (some 0) s _
      exact ⟨e, s, he, rfl, rfl⟩
    · obtain ⟨e, he⟩ := hsend (some 0) { s with witness := none } _
      exact ⟨e, _, he, rfl, rfl⟩
    · obtain ⟨e, he⟩ := hsend (some 0) s _
      exact ⟨e, s, he, rfl, rfl⟩
  obtain ⟨e, s', hs', hsame⟩ := hfirst
  rw [hs']
  exact ⟨e, rfl, hsame⟩

/-- Where no error of the encoder stops a strategy, all names are writable. -/
theorem writable_of_prove {s : Stage}
    (h : ∀ e, (c.prove.start s).1 ≠ .error (.encoding e)) : c.encoder.Writable := by
  by_contra hw
  obtain ⟨e, he, -⟩ := start_of_not_writable hw s
  exact h e he

end Checker

/-! ## Runs -/

namespace SolverConfig

theorem launch_of_not_takes {config : SolverConfig} (h : config.takes = false)
    (programs : List String) (b b' : Option Backend) :
    config.launch programs b = config.launch programs b' := by
  obtain ⟨kind, command, debug⟩ := config
  cases kind with
  | embedded => simp [takes] at h
  | process =>
    cases command with
    | nil => rfl
    | cons program args => simp [takes] at h

end SolverConfig

namespace Arena

variable {a : Arena}

theorem backends_emit (text : String) : (a.emit text).backends = a.backends := by
  have hfold : ∀ (events : List Event) (a : Arena),
      (events.foldl happen a).backends = a.backends := by
    intro events
    induction events with
    | nil => exact fun _ => rfl
    | cons event events ih =>
      intro a
      rw [List.foldl_cons, ih]
      cases event <;> rfl
  exact hfold _ _

end Arena

namespace Checker

/-- The run of `c` in `a` started the backend `b`, left `session`, and its strategy worked on the
stage `s`. -/
structure Ran (c : Checker) (a : Arena) (b : Backend) (session : Session) (s : Stage) : Prop where
  process : s.session.process = .start b
  depth : s.session.depth = 0
  calm : a.Calm → s.Calm
  bounded : ∀ P, a.Bounded P → s.toArena.Bounded P
  sent : (c.prove.start s).2.sent = session.process.received
  witness : (c.prove.start s).2.witness = (c.run a).checker.witness
  verdict : ∀ v, (c.run a).outcome = .ok (some v) ↔ (c.prove.start s).1 = .ok (some v)
  encoding : ∀ e, (c.prove.start s).1 = .error (.encoding e) →
    (c.run a).outcome = .error (.encoding e)
  bound : ∀ P, (c.prove.start s).2.toArena.Bounded P → (c.run a).arena.Bounded P

variable {c : Checker} {a : Arena} {b : Backend} {session : Session} {s : Stage}

theorem enlist_process (c : Checker) (a : Arena) (session : Session) :
    (c.enlist a session).session.process = session.process := by
  rw [enlist, Stage.settle_process]

theorem enlist_depth (c : Checker) (a : Arena) (session : Session) :
    (c.enlist a session).session.depth = session.depth := by
  unfold enlist Stage.settle
  split <;> rfl

theorem enlist_bounded {P : Int → Prop} (h : a.Bounded P) (c : Checker) (session : Session) :
    (c.enlist a session).toArena.Bounded P := by
  rw [enlist, Stage.settle_toArena]
  exact ⟨h.cell, h.agenda, h.meanwhile⟩

theorem enlist_calm (h : a.Calm) (c : Checker) (hkilled : session.killed = false) :
    (c.enlist a session).Calm := by
  have hcancelled : a.cohort.cancelled = false := h.1
  have hsettle : c.enlist a session =
      ⟨{ a with cohort := a.cohort.enlist session.id }, session, c.witness⟩ := by
    simp [enlist, Stage.settle, Cohort.enlist, hcancelled]
  rw [hsettle]
  exact ⟨⟨h.running, h.agenda, h.meanwhile⟩, hkilled⟩

/-- What is left of a strategy's work when the run is over. -/
def leave (c : Checker) (id : Nat) (result : Except Fault (Option Verdict)) (s : Stage) : Run :=
  let a := { s.toArena with cohort := s.cohort.withdraw id }
  let c := { c with witness := s.witness }
  match result with
  | .ok verdict => ⟨.ok verdict, c, a, s.session.kill⟩
  | .error (.aborted reason) =>
    ⟨.ok none, c, a.info (c.label ("stopped: " ++ reason.message)), s.session.kill⟩
  | .error fault => ⟨.error fault, c, a, s.session.kill⟩

theorem run_of_start {a' : Arena}
    (h : (a.info (c.label "RUNNING")).start c.config = (.ok session, a')) :
    c.run a = c.leave session.id (c.prove.start (c.enlist a' session)).1
      (c.prove.start (c.enlist a' session)).2 := by
  rw [run, h]
  rfl

theorem run_of_no_start {a' : Arena} {reason : Abort}
    (h : (a.info (c.label "RUNNING")).start c.config = (.error reason, a')) :
    (c.run a).session = none := by
  rw [run, h]

section Leave

variable (c : Checker) (id : Nat) (r : Except Fault (Option Verdict)) (s : Stage)

theorem leave_session : (c.leave id r s).session = some s.session.kill := by
  unfold leave
  dsimp only
  split <;> rfl

theorem leave_witness : (c.leave id r s).checker.witness = s.witness := by
  unfold leave
  dsimp only
  split <;> rfl

theorem leave_verdict (v : Verdict) :
    (c.leave id r s).outcome = .ok (some v) ↔ r = .ok (some v) := by
  unfold leave
  dsimp only
  split <;> simp

theorem leave_encoding (e : EncodingError) :
    (c.leave id (.error (.encoding e)) s).outcome = .error (.encoding e) :=
  rfl

theorem leave_error {fault : Fault} (h : (c.leave id r s).outcome = .error fault) :
    r = .error fault := by
  unfold leave at h
  dsimp only at h
  split at h
  · cases h
  · cases h
  · exact h

theorem leave_bounded {P : Int → Prop} (h : s.toArena.Bounded P) :
    (c.leave id r s).arena.Bounded P := by
  have hw : ({ s.toArena with cohort := s.cohort.withdraw id } : Arena).Bounded P :=
    ⟨h.cell, h.agenda, h.meanwhile⟩
  unfold leave
  dsimp only
  split
  · exact hw
  · exact Arena.info_cases (p := Arena.Bounded P) hw (fun text => hw.emit text) _
  · exact hw

end Leave

/-- **The stage of a run.** -/
theorem exists_ran (hb : a.backends.head?.getD (some {}) = some b)
    (hs : (c.run a).session = some session) : ∃ s, c.Ran a b session s := by
  cases hstart : (a.info (c.label "RUNNING")).start c.config with
  | mk r a' =>
    cases r with
    | error reason =>
      rw [run_of_no_start hstart] at hs
      cases hs
    | ok x =>
      obtain ⟨b', hb', hx, ha'⟩ := Arena.start_ok hstart
      have hbackends : (a.info (c.label "RUNNING")).backends = a.backends :=
        Arena.info_cases (p := fun a' => a'.backends = a.backends) rfl
          (fun text => Arena.backends_emit text) _
      rw [hbackends, hb] at hb'
      obtain rfl := SolverConfig.eq_of_launch hb'
      have hrun := run_of_start hstart
      rw [hrun, leave_session, Option.some.injEq] at hs
      refine ⟨c.enlist a' x, ?_, ?_, ?_, ?_, ?_, ?_, ?_, ?_, ?_⟩
      · rw [enlist_process, hx]
      · rw [enlist_depth, hx]
      · intro h
        have hinfo : (a.info (c.label "RUNNING")).Calm :=
          Arena.info_cases (p := Arena.Calm) h (fun text => h.emit text) _
        refine enlist_calm (a := a') ?_ c (by rw [hx]; rfl)
        rw [ha']
        exact ⟨hinfo.running, hinfo.agenda, hinfo.meanwhile⟩
      · intro P h
        have hinfo : (a.info (c.label "RUNNING")).Bounded P :=
          Arena.info_cases (p := Arena.Bounded P) h (fun text => h.emit text) _
        refine enlist_bounded ?_ c x
        rw [ha']
        exact ⟨hinfo.cell, hinfo.agenda, hinfo.meanwhile⟩
      · rw [← hs]
        rfl
      · rw [hrun, leave_witness]
      · intro v
        rw [hrun, leave_verdict]
      · intro e he
        rw [hrun, he, leave_encoding]
      · intro P h
        rw [hrun]
        exact leave_bounded c _ _ _ h

namespace Ran

variable (h : c.Ran a b session s)

include h

/-- The strategy finds an empty conversation before it. -/
theorem at_start {P : Int → Prop} (hP : a.Bounded P) : At b.replies P s [] {} := by
  refine ⟨h.bounded P hP, fun j test w hj => by simp at hj, .inr ?_⟩
  rw [h.process]
  exact Process.heard_start b

theorem fed_start : Process.Fed b.replies 0 s.session.process [] := by
  rw [h.process]
  exact Process.fed_start b

theorem live_start {P : Int → Prop} (hP : a.Bounded P) (hcalm : a.Calm) :
    Live b.replies P s [] {} 0 :=
  ⟨h.calm hcalm, h.depth, h.at_start hP⟩

/-- A verdict of the run is one of the strategy. -/
theorem yields {v : Verdict} {Q : Option Verdict → Stage → Prop}
    (hv : (c.run a).outcome = .ok (some v)) (hQ : c.prove.Yields s Q) :
    Q (some v) (c.prove.start s).2 := by
  refine hQ (some v) _ ?_
  rw [← (h.verdict v).mp hv]

theorem writable (herror : ∀ e, (c.run a).outcome ≠ .error (.encoding e)) :
    c.encoder.Writable :=
  writable_of_prove fun e he => herror e (h.encoding e he)

theorem writable_of_ok {v : Option Verdict} (hv : (c.run a).outcome = .ok v) :
    c.encoder.Writable :=
  h.writable fun e he => by
    rw [hv] at he
    cases he

end Ran

/-- The run of `c` in `a` had `b` for its solver, and every answer was true. -/
structure TrueRun (c : Checker) (a : Arena) (b : Backend) : Prop where
  backend : a.backends.head?.getD (some {}) = some b
  answers : ∃ session, (c.run a).session = some session ∧
    Truthful b.replies session.process.received

theorem TrueRun.exists_ran (h : c.TrueRun a b) :
    ∃ session s, c.Ran a b session s ∧ Truthful b.replies (c.prove.start s).2.sent := by
  obtain ⟨session, hsession, htrue⟩ := h.answers
  obtain ⟨s, hs⟩ := Checker.exists_ran h.backend hsession
  exact ⟨session, s, hs, hs.sent ▸ htrue⟩

/-- A run was told the truth if its tests were answered rightly, and it made no others. -/
theorem Ran.trueRun (h : c.Ran a b session s) (hb : a.backends.head?.getD (some {}) = some b)
    (hs : (c.run a).session = some session) {past : List (Scopes × Answer)}
    (hpast : Past b.replies (c.prove.start s).2 past)
    (hcount : session.process.received.count ask ≤ past.length) (htrue : ∀ x ∈ past, Right x) :
    c.TrueRun a b := by
  refine ⟨hb, session, hs, ?_⟩
  rw [← h.sent] at hcount ⊢
  exact truthful_of_past hpast hcount htrue

/-- The outcome of a run, the witness it found, the number of its tests and the bound it left. -/
def Run.digest (r : Run) : Except Fault (Option Verdict) × Option Nat × Option Nat × Int :=
  (r.outcome, r.checker.witness, r.session.map fun x => x.process.received.count ask,
    r.arena.bound.value)

theorem Run.of_digest {r : Run} {o : Except Fault (Option Verdict)} {d : Option Nat} {k : Nat}
    {n : Int} (h : r.digest = (o, d, some k, n)) : r.outcome = o ∧ r.checker.witness = d ∧
      r.arena.bound.value = n ∧
      ∃ x, r.session = some x ∧ x.process.received.count ask = k := by
  obtain ⟨ho, hd, hk, hn⟩ : r.outcome = o ∧ r.checker.witness = d ∧
      (r.session.map fun x => x.process.received.count ask) = some k ∧ r.arena.bound.value = n := by
    simpa [digest] using h
  exact ⟨ho, hd, hn, Option.map_eq_some_iff.mp hk⟩

variable {text goal : String} {net : Net} {f : Formula} {method : Method} {encoding : Encoding}
  {config : SolverConfig} {heedsBound : Bool}

/-- The work of a checker is that of its strategy. -/
theorem prove_eq (hc : make method net f encoding config heedsBound = .ok c) :
    c.prove = ({ method, encoder := c.encoder, config, heedsBound } : Checker).prove := by
  obtain ⟨enc, -, rfl, -, -⟩ := make_ok hc
  rfl

/-- A checker writes the system of its encoding. -/
theorem exists_reading (hnet : Net.parse text = .ok net) (hgoal : Formula.parse goal = .ok f)
    (hc : make method net f encoding config heedsBound = .ok c) (hmethod : method ≠ .stateEquation)
    (hw : c.encoder.Writable) : Nonempty (c.encoder.Reading (net.system f encoding)) := by
  obtain ⟨enc, henc, rfl, hover, hcheck⟩ := make_ok hc
  rw [if_neg hmethod] at henc
  subst henc
  exact Encoder.exists_reading (Net.wellFormed_of_parse hnet) hw hover
    (Formula.nonNeg_of_parse hgoal) fun hb => (hcheck hb).2

/-! ## A net that counts -/

/-- A net that counts up from `n` in its only place. -/
def counter (n : Int) : Net where
  places := [⟨"q", n⟩]
  transitions := [{ id := "t", pre := [], post := [("q", 1)], connected := ["q"] }]

/-- The count is 1. -/
def countOne : Formula :=
  .atom ⟨[⟨"q", 1⟩], 0⟩ .eq ⟨[], 1⟩

/-- A checker for this count. -/
def counterChecker (method : Method) (n : Int) (heedsBound : Bool) : Checker :=
  { method, encoder := ⟨counter n, some (.formula countOne), .integer⟩, config := {}, heedsBound }

/-- An arena with a backend that gives these answers. -/
def answering (answers : List String) : Arena where
  cohort := { workers := 1 }
  backends := [some { answers }]

theorem countOne_holds (m : Marking) : countOne.holds m = true ↔ m "q" = 1 := by
  show decide (1 * (m "q" : Int) + 0 = 1) = true ↔ _
  rw [decide_eq_true_eq]
  omega

theorem counter_parse : Net.parse "pl q\ntr t -> q\n" = .ok (counter 0) :=
  rfl

theorem countOne_parse : Formula.parse "q = 1" = .ok countOne :=
  rfl

theorem make_counterChecker {method : Method} {n : Int} {heedsBound : Bool} :
    make method (counter n) countOne .integer {} heedsBound =
      .ok (counterChecker method n heedsBound) := by
  cases method <;> rfl

theorem counter_parse_two : Net.parse "pl q (2)\ntr t -> q\n" = .ok (counter 2) :=
  rfl

end Checker

end PetriReach
