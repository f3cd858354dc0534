import Mathlib.Data.List.Induction
import PetriReach.Proofs.Solver.Stream
import PetriReach.Solver.Conversation

/-!
# The protocol of a solver

Whatever is done with a solver, and wherever an operation is broken off: its depth is the number of
scopes that were opened and not closed again, its flags are only ever raised, and its process is
ended once if it is killed, and never otherwise. A killed solver is told nothing more. Events of the
surroundings may kill it in the middle of an operation; a line that it wrote before can then still
be read, but is not taken for an answer.

* `Session.Onward`: what an exchange does to a session.
* `Conversation.Step`: what an operation does to a session.
* `Conversation.perform_of_killed`: what a killed solver is asked for is refused.
* `Work.checkSat_answered`: an answer comes from a line that was read while the solver was alive.
* `Work.checkSat_of_killed`: a line of a killed solver is no answer.
* `Conversation.protocol_law`: the state after any operations, and what the next one does.
-/

namespace PetriReach

open Smt (Command)

/-! ## Sessions -/

namespace Session

/-- Ended once if killed and never otherwise; broken off only if killed. -/
structure Sound (x : Session) : Prop where
  counted : x.switch.Counted
  aborted : x.aborted = true → x.killed = true

/-- From `x` to `y` no scope was opened or closed, and flags were only raised. -/
structure Onward (x y : Session) : Prop where
  depth : y.depth = x.depth
  killed : x.killed = true → y.killed = true
  aborted : x.aborted = true → y.aborted = true
  sound : x.Sound → y.Sound

variable {x y z : Session}

theorem Onward.refl (x : Session) : x.Onward x :=
  ⟨rfl, fun h => h, fun h => h, fun h => h⟩

theorem Onward.trans (h : x.Onward y) (h' : y.Onward z) : x.Onward z :=
  ⟨h'.depth.trans h.depth, h'.killed ∘ h.killed, h'.aborted ∘ h.aborted, h'.sound ∘ h.sound⟩

theorem kill_of_killed (h : x.killed = true) : x.kill = x := by
  rw [kill, Switch.kill_of_killed h]

theorem onward_kill (x : Session) : x.Onward x.kill where
  depth := rfl
  killed _ := x.killed_kill
  aborted h := h
  sound h := ⟨h.counted.kill, fun _ => x.killed_kill⟩

theorem onward_abort (x : Session) : x.Onward { x.kill with aborted := true } where
  depth := rfl
  killed _ := x.killed_kill
  aborted _ := rfl
  sound h := ⟨h.counted.kill, fun _ => x.killed_kill⟩

theorem onward_process (x : Session) (p : Process) : x.Onward { x with process := p } :=
  ⟨rfl, fun h => h, fun h => h, fun h => ⟨h.counted, h.aborted⟩⟩

theorem onward_send {text : String} (h : x.send? text = some y) : x.Onward y := by
  unfold send? at h
  split at h
  · cases h
    exact .refl x
  · split at h
    · split at h
      · cases h
        exact .refl x
      · cases h
    · cases h
      exact x.onward_process _

theorem onward_receive (x : Session) : x.Onward x.receive.2 := by
  unfold receive
  split
  · exact .refl x
  · exact x.onward_process _

end Session

/-! ## Exchanges -/

namespace Stage

variable {s : Stage}

theorem onward_settle (s : Stage) : s.session.Onward s.settle.session := by
  unfold settle
  split
  · exact s.session.onward_kill
  · exact .refl _

theorem session_settle_of_killed (h : s.session.killed = true) : s.settle.session = s.session := by
  unfold settle
  split
  · exact Session.kill_of_killed h
  · rfl

/-- **What an exchange does to a session.** -/
theorem exchange_onward : Exchange fun s t => s.session.Onward t.session where
  refl s := .refl s.session
  trans := Session.Onward.trans
  settle := onward_settle
  elapse s := onward_settle { s with toArena := s.toArena.elapse }
  emit s _ := onward_settle { s with toArena := s.toArena.emit _ }
  expire s := onward_settle { s with toArena := s.toArena.expire }
  kill s := s.session.onward_abort
  tell _ _ _ h := Session.onward_send h
  hear s := s.session.onward_receive

end Stage

namespace Work

variable {α β : Type} {s t : Stage}

theorem start_bind_error {w : Work α} {e : Fault} (h : w.start s = (.error e, t))
    (f : α → Work β) : (w >>= f).start s = (.error e, t) := by
  rw [start_bind, h]

theorem abort_of_killed (h : s.session.killed = true) (reason : Abort) : ∃ t,
    (abort reason : Work α).start s = (.error (.aborted reason), t) ∧
      t.session = { s.session with aborted := true } := by
  unfold abort
  rw [start_bind, start_get]
  dsimp only
  rw [start_bind, start_modify, if_pos h]
  refine ⟨_, rfl, ?_⟩
  show (Stage.settle { s with
    toArena := s.toArena.info _
    session := { s.session.kill with aborted := true } }).session = _
  rw [Stage.session_settle_of_killed s.session.killed_kill, Session.kill_of_killed h]

theorem write_of_killed (h : s.session.killed = true) (text : String) : ∃ t,
    (write text).start s = (.error (.aborted .killed), t) ∧
      t.session = { s.session with aborted := true } := by
  obtain ⟨t, ht, hsession⟩ := abort_of_killed (α := PUnit) h .killed
  refine ⟨t, ?_, hsession⟩
  rw [write_eq, guarded, start_bind, start_get]
  dsimp only
  rw [if_pos h]
  exact start_bind_error ht _

/-- The first part of a test: it is put, and a line is read. -/
def hearing : Work (Option String) := do
  write Command.checkSat.render
  receive

theorem checkSat_eq_hearing (required : Bool) : checkSat required = hearing >>= fun line =>
    guarded (·.session.killed = true) (abort .killed) (judge required line) := by
  rw [checkSat_eq, hearing, bind_assoc]

/-- **A line of a killed solver is no answer**, whatever it says. -/
theorem checkSat_of_killed {line : Option String} {u : Stage}
    (h : hearing.start s = (.ok line, u)) (hkilled : u.session.killed = true) (required : Bool) :
    ∃ t, (checkSat required).start s = (.error (.aborted .killed), t) := by
  obtain ⟨t, ht, -⟩ := abort_of_killed (α := PUnit) hkilled .killed
  refine ⟨t, ?_⟩
  rw [checkSat_eq_hearing, start_bind, h]
  dsimp only
  rw [guarded, start_bind, start_get]
  dsimp only
  rw [if_pos hkilled]
  exact start_bind_error ht _

/-- **An answer comes from a line that was read while the solver was alive.** -/
theorem checkSat_answered {required : Bool} {w : Answer}
    (h : (checkSat required).start s = (.ok w, t)) : ∃ line u,
      hearing.start s = (.ok (some line), u) ∧ u.session.killed = false ∧
        Answer.ofLine? required line = some w := by
  have hyields : (checkSat required).Yields s fun w _ => ∃ line u,
      hearing.start s = (.ok (some line), u) ∧ u.session.killed = false ∧
        Answer.ofLine? required line = some w := by
    rw [checkSat_eq_hearing]
    refine yields_bind fun line u hhearing => ?_
    refine yields_guarded (yields_abort _) fun halive => ?_
    refine (yields_judge required line u).mono fun w _ hw => ?_
    obtain ⟨l, rfl, htrim, hdefinite, -⟩ := hw
    exact ⟨l, u, hhearing, Bool.eq_false_iff.mpr halive,
      Answer.ofLine?_eq_some.mpr ⟨htrim, hdefinite⟩⟩
  exact hyields w t h

end Work

/-! ## Operations -/

namespace Conversation

open Work

/-- Performs an operation on a stage, with its own diagnostics. -/
def perform (s : Stage) (op : Op) : Except Fault (Option Answer) × Stage :=
  op.work.start { s with log := [] }

/-- The report on an operation. -/
def report (s : Stage) (op : Op) : Report where
  result := (perform s op).1
  session := (perform s op).2.session
  log := (perform s op).2.log

/-- The stage after some operations. -/
def after (s : Stage) (ops : List Op) : Stage :=
  ops.foldl (fun s op => (perform s op).2) s

/-- How many of these operations were performed and returned. -/
def returned (op : Op) (ops : List Op) (reports : List Report) : Nat :=
  (ops.zip reports).countP fun x => x.1 = op && x.2.result.isOk

/-- What an operation with this result does to a session. -/
structure Step (op : Op) (x : Session) (r : Except Fault (Option Answer)) (y : Session) : Prop where
  depth : y.depth + (decide (op = .pop) && r.isOk).toNat =
    x.depth + (decide (op = .push) && r.isOk).toNat
  killed : x.killed = true → y.killed = true
  aborted : x.aborted = true → y.aborted = true
  sound : x.Sound → y.Sound

/-- The operation says something to the process of a solver with so many open scopes. -/
def Op.Speaks (depth : Nat) : Op → Prop
  | .write _ => True
  | .push => True
  | .pop => 0 < depth
  | .check _ => True
  | _ => False

variable {s : Stage}

theorem Step.of_onward {op : Op} {x y : Session} (h : x.Onward y)
    {r : Except Fault (Option Answer)} (hpush : op = .push → r.isOk = false)
    (hpop : op = .pop → r.isOk = false) : Step op x r y := by
  refine ⟨?_, h.killed, h.aborted, h.sound⟩
  have hopen : (decide (op = .push) && r.isOk) = false := by simpa using hpush
  have hclose : (decide (op = .pop) && r.isOk) = false := by simpa using hpop
  rw [hopen, hclose, h.depth]

/-- An operation that opens and closes no scope is an exchange, or less. -/
theorem moves_work {op : Op} (hpush : op ≠ .push) (hpop : op ≠ .pop) :
    op.work.Moves fun s t => s.session.Onward t.session := by
  have hR := Stage.exchange_onward
  cases op with
  | write text => exact hR.bind (hR.write text) fun _ => hR.pure _
  | push => exact absurd rfl hpush
  | pop => exact absurd rfl hpop
  | check required => exact hR.bind (hR.checkSat required) fun _ => hR.pure _
  | kill => exact hR.bind (fun s => s.session.onward_kill) fun _ => hR.pure _
  | abort reason => exact hR.abort _
  | setEcho on =>
    refine hR.bind (fun s => ?_) fun _ => hR.pure _
    exact ⟨rfl, fun h => h, fun h => h, fun h => ⟨h.counted, h.aborted⟩⟩
  | awaitExit => exact hR.pure _

/-- A text is written, and if it could be, the number of open scopes changes. -/
def scope (text : String) (g : Nat → Nat) : Work (Option Answer) := do
  write text
  modify fun s => { s with session := { s.session with depth := g s.session.depth } }
  return none

theorem scope_cases (text : String) (g : Nat → Nat) (s : Stage) : ∃ t : Stage,
    s.session.Onward t.session ∧
      ((∃ e, (scope text g).start s = (.error e, t)) ∨ (scope text g).start s =
        (.ok none, { t with session := { t.session with depth := g t.session.depth } })) := by
  have hwrite := Stage.exchange_onward.write text s
  unfold scope
  rw [start_bind]
  cases hstart : (write text).start s with
  | mk r t =>
    rw [hstart] at hwrite
    refine ⟨t, hwrite, ?_⟩
    cases r with
    | error e => exact .inl ⟨e, rfl⟩
    | ok u => exact .inr rfl

/-- An operation that is a change of scope, or fails. -/
theorem step_of_scope {op : Op} {text : String} {g : Nat → Nat}
    (hwork : (perform s op) = (scope text g).start { s with log := [] })
    (hg : g s.session.depth + (decide (op = .pop)).toNat =
      s.session.depth + (decide (op = .push)).toNat) :
    Step op s.session (perform s op).1 (perform s op).2.session := by
  obtain ⟨t, honward, ⟨e, he⟩ | hok⟩ := scope_cases text g { s with log := [] }
  · rw [hwork, he]
    exact .of_onward honward (fun _ => rfl) fun _ => rfl
  · rw [hwork, hok]
    refine ⟨?_, honward.killed, honward.aborted, fun h => ?_⟩
    · show g t.session.depth + (_ && true).toNat = _ + (_ && true).toNat
      rw [honward.depth, Bool.and_true, Bool.and_true]
      exact hg
    · exact ⟨(honward.sound h).counted, (honward.sound h).aborted⟩

/-- A scope that was never opened is not closed. -/
theorem perform_pop_of_no_scope (h : s.session.depth = 0) :
    perform s .pop = (.error .unmatchedPop, { s with log := [] }) := by
  show (Work.pop >>= fun _ => pure none).start { s with log := [] } = _
  refine start_bind_error ?_ _
  rw [pop_eq, guarded, start_bind, start_get]
  dsimp only
  rw [if_pos h]
  rfl

theorem perform_pop_of_scope (h : s.session.depth ≠ 0) :
    perform s .pop = (scope Command.pop.render (· - 1)).start { s with log := [] } := by
  show (Work.pop >>= fun _ => pure none).start { s with log := [] } = _
  rw [start_bind, pop_eq, guarded, start_bind, start_get]
  dsimp only
  rw [if_neg h, close, start_bind, scope, start_bind]
  cases (write Command.pop.render).start { s with log := [] } with
  | mk r t => cases r <;> rfl

theorem perform_push (s : Stage) :
    perform s .push = (scope Command.push.render (· + 1)).start { s with log := [] } := by
  show (Work.push >>= fun _ => pure none).start { s with log := [] } = _
  rw [start_bind, push, start_bind, scope, start_bind]
  cases (write Command.push.render).start { s with log := [] } with
  | mk r t => cases r <;> rfl

/-- **One operation.** -/
theorem step (s : Stage) (op : Op) :
    Step op s.session (perform s op).1 (perform s op).2.session := by
  by_cases hpush : op = .push
  · subst hpush
    exact step_of_scope (perform_push s) rfl
  by_cases hpop : op = .pop
  · subst hpop
    by_cases hdepth : s.session.depth = 0
    · rw [perform_pop_of_no_scope hdepth]
      exact .of_onward (.refl _) (fun _ => rfl) fun _ => rfl
    · refine step_of_scope (perform_pop_of_scope hdepth) ?_
      show s.session.depth - 1 + 1 = s.session.depth
      omega
  · exact .of_onward (moves_work hpush hpop { s with log := [] }) (fun h => absurd h hpush)
      fun h => absurd h hpop

/-- **What a killed solver is asked for is refused**, and it is told nothing. -/
theorem perform_of_killed (h : s.session.killed = true) {op : Op}
    (hop : op.Speaks s.session.depth) : ∃ t,
      perform s op = (.error (.aborted .killed), t) ∧
        t.session = { s.session with aborted := true } := by
  have hwrite := fun text => write_of_killed (s := { s with log := [] }) h text
  cases op with
  | write text =>
    obtain ⟨t, ht, hsession⟩ := hwrite text
    exact ⟨t, start_bind_error ht _, hsession⟩
  | push =>
    obtain ⟨t, ht, hsession⟩ := hwrite Command.push.render
    exact ⟨t, (perform_push s).trans (start_bind_error ht _), hsession⟩
  | pop =>
    obtain ⟨t, ht, hsession⟩ := hwrite Command.pop.render
    have hdepth : s.session.depth ≠ 0 := Nat.pos_iff_ne_zero.mp hop
    exact ⟨t, (perform_pop_of_scope hdepth).trans (start_bind_error ht _), hsession⟩
  | check required =>
    obtain ⟨t, ht, hsession⟩ := hwrite Command.checkSat.render
    exact ⟨t, start_bind_error (start_bind_error ht _) _, hsession⟩
  | _ => cases hop

/-- Where an operation is broken off, so is the conversation. -/
theorem throws_work (op : Op) :
    op.work.Throws fun e t => t.session.aborted = true ∨ ∀ reason, e ≠ .aborted reason := by
  have hF : ∀ (reason : Abort) {t : Stage}, t.session.aborted = true →
      t.session.aborted = true ∨ ∀ r, Fault.aborted reason ≠ .aborted r := fun _ _ => .inl
  have hstuck : ∀ t : Stage, t.session.aborted = true ∨ ∀ r, Fault.stuck ≠ .aborted r :=
    fun _ => .inr fun _ => Fault.noConfusion
  cases op with
  | write text => exact throws_bind (throws_write hF _) fun _ => throws_pure _
  | push =>
    exact throws_bind (throws_bind (throws_write hF _) fun _ => throws_modify _)
      fun _ => throws_pure _
  | pop =>
    have hthrow : (throw .unmatchedPop : Work PUnit).Throws fun e t =>
        t.session.aborted = true ∨ ∀ r, e ≠ .aborted r :=
      throws_throw fun _ => .inr fun _ => Fault.noConfusion
    refine throws_bind ?_ fun _ => throws_pure _
    rw [pop_eq]
    exact throws_guarded hthrow (throws_bind (throws_write hF _) fun _ => throws_modify _)
  | check required =>
    exact throws_bind (throws_checkSat hF hstuck required) fun _ => throws_pure _
  | kill => exact throws_bind (throws_modify _) fun _ => throws_pure _
  | abort reason => exact throws_abort hF _
  | setEcho on => exact throws_bind (throws_modify _) fun _ => throws_pure _
  | awaitExit => exact throws_pure _

theorem aborted_of_perform {op : Op} {reason : Abort} {t : Stage}
    (h : perform s op = (.error (.aborted reason), t)) : t.session.aborted = true :=
  (throws_work op _ _ t h).resolve_right fun hother => hother reason rfl

theorem perform_check_answered {required : Bool} {w : Answer} {t : Stage}
    (h : perform s (.check required) = (.ok (some w), t)) : ∃ line u,
      hearing.start { s with log := [] } = (.ok (some line), u) ∧ u.session.killed = false ∧
        Answer.ofLine? required line = some w := by
  have hbind : (checkSat required >>= fun w => pure (some w)).start { s with log := [] } =
      (.ok (some w), t) := h
  rw [start_bind] at hbind
  split at hbind
  · next w' t' hcheck =>
    cases hbind
    exact checkSat_answered hcheck
  · cases hbind

theorem perform_check_of_killed (required : Bool) {line : Option String} {u : Stage}
    (h : hearing.start { s with log := [] } = (.ok line, u)) (hkilled : u.session.killed = true) :
    ∃ t, perform s (.check required) = (.error (.aborted .killed), t) := by
  obtain ⟨t, ht⟩ := checkSat_of_killed h hkilled required
  exact ⟨t, start_bind_error ht _⟩

/-! ## Operations one after another -/

theorem after_append (s : Stage) (ops more : List Op) :
    after s (ops ++ more) = after (after s ops) more :=
  List.foldl_append

theorem length_run (s : Stage) (ops : List Op) : (run s ops).length = ops.length := by
  induction ops generalizing s with
  | nil => rfl
  | cons op ops ih => exact congrArg (· + 1) (ih _)

/-- The last report is on what the last operation did to the stage that the others left. -/
theorem run_concat (s : Stage) (ops : List Op) (op : Op) :
    run s (ops ++ [op]) = run s ops ++ [report (after s ops) op] := by
  induction ops generalizing s with
  | nil => rfl
  | cons first ops ih => exact congrArg (_ :: ·) (ih _)

theorem returned_concat (which : Op) (s : Stage) (ops : List Op) (op : Op) :
    returned which (ops ++ [op]) (run s (ops ++ [op])) = returned which ops (run s ops) +
      (decide (op = which) && (perform (after s ops) op).1.isOk).toNat := by
  have hcount : ∀ b : Bool, (if b = true then 1 else 0) = b.toNat := by decide
  rw [returned, run_concat, List.zip_append (length_run s ops).symm, List.countP_append]
  refine congrArg (returned which ops (run s ops) + ·) ?_
  rw [List.zip_cons_cons, List.zip_nil_left, List.countP_singleton]
  exact hcount _

/-- **The depth** is the number of scopes that were opened and not closed again. -/
theorem depth_after (s : Stage) (ops : List Op) :
    (after s ops).session.depth + returned .pop ops (run s ops) =
      s.session.depth + returned .push ops (run s ops) := by
  induction ops using List.reverseRecOn with
  | nil => rfl
  | append_singleton ops op ih =>
    have hstep := (step (after s ops) op).depth
    have hafter : after s (ops ++ [op]) = (perform (after s ops) op).2 := after_append s ops [op]
    rw [returned_concat, returned_concat, hafter]
    omega

theorem onward_after (s : Stage) (ops : List Op) :
    (s.session.killed = true → (after s ops).session.killed = true) ∧
    (s.session.aborted = true → (after s ops).session.aborted = true) ∧
    (s.session.Sound → (after s ops).session.Sound) := by
  induction ops generalizing s with
  | nil => exact ⟨fun h => h, fun h => h, fun h => h⟩
  | cons op ops ih =>
    have hstep := step s op
    obtain ⟨hkilled, haborted, hsound⟩ := ih (perform s op).2
    exact ⟨hkilled ∘ hstep.killed, haborted ∘ hstep.aborted, hsound ∘ hstep.sound⟩

/-- A solver that was started has no scopes, and was not killed. -/
theorem fresh_of_start {a a' : Arena} {config : SolverConfig} {session : Session}
    (h : a.start config = (.ok session, a')) : session.depth = 0 ∧ session.Sound := by
  obtain ⟨b, -, rfl, -⟩ := Arena.start_ok h
  exact ⟨rfl, rfl, nofun⟩

/-- **The law of the protocol**, after any operations on a solver that was started, in any
surroundings, where `s` is the stage that the next operation finds. The depth is the number of
scopes that were opened and not closed again. A conversation is broken off only with a solver that
is killed, both are for good, and the process was ended once if the solver is killed, and never
otherwise. Killing kills, and an operation that is broken off breaks off the conversation. A killed
solver refuses all it is asked for, and neither its process nor its depth changes. A scope that was
not opened is not closed, and nothing changes. An answer is what a line says that was read, and when
it was read the solver was not killed; if it was killed by then, the test is refused even where
there is a line. -/
theorem protocol_law {a a' : Arena} {config : SolverConfig} {session : Session}
    (hstart : a.start config = (.ok session, a')) (around : Arena) (ops : List Op) {s : Stage}
    (hs : s = after { toArena := around, session } ops) :
    (∀ op, run { toArena := around, session } (ops ++ [op]) =
      run { toArena := around, session } ops ++ [report s op]) ∧
    s.session.depth + returned .pop ops (run { toArena := around, session } ops) =
      returned .push ops (run { toArena := around, session } ops) ∧
    (s.session.aborted = true → s.session.killed = true) ∧
    s.session.switch.terminations = s.session.killed.toNat ∧
    (∀ more, (s.session.killed = true → (after s more).session.killed = true) ∧
      (s.session.aborted = true → (after s more).session.aborted = true)) ∧
    (perform s .kill).2.session.killed = true ∧
    (∀ op reason t, perform s op = (.error (.aborted reason), t) → t.session.aborted = true) ∧
    (∀ op : Op, s.session.killed = true → op.Speaks s.session.depth → ∃ t,
      perform s op = (.error (.aborted .killed), t) ∧
        t.session = { s.session with aborted := true }) ∧
    (s.session.depth = 0 → perform s .pop = (.error .unmatchedPop, { s with log := [] })) ∧
    (∀ required w t, perform s (.check required) = (.ok (some w), t) → ∃ line u,
      hearing.start { s with log := [] } = (.ok (some line), u) ∧ u.session.killed = false ∧
        Answer.ofLine? required line = some w) ∧
    ∀ required line u, hearing.start { s with log := [] } = (.ok line, u) →
      u.session.killed = true → ∃ t,
        perform s (.check required) = (.error (.aborted .killed), t) := by
  obtain ⟨hzero, hfresh⟩ := fresh_of_start hstart
  have hdepth := depth_after { toArena := around, session } ops
  have hsound := (onward_after { toArena := around, session } ops).2.2 hfresh
  rw [← hs] at hdepth hsound
  rw [hzero, Nat.zero_add] at hdepth
  refine ⟨fun op => hs ▸ run_concat _ ops op, hdepth, hsound.aborted, hsound.counted,
    fun more => ?_, s.session.killed_kill, fun _ _ _ => aborted_of_perform,
    fun _ h => perform_of_killed h, perform_pop_of_no_scope, fun _ _ _ => perform_check_answered,
    fun required _ _ => perform_check_of_killed required⟩
  exact ⟨(onward_after s more).1, (onward_after s more).2.1⟩

/-- A solver whose first answer has a second line, in surroundings that call it off at the first
diagnostic. -/
def watched : Stage where
  cohort := { workers := 1, registered := [0] }
  agenda := [(1, .cancel)]
  session := { id := 0, process := .start { answers := ["sat\nunsat"] }, echo := false }

/-- It answers while nothing is echoed, and then its exchanges are echoed. -/
def uncalled : List Op :=
  [.push, .check true, .push, .pop, .pop, .pop, .push, .setEcho true]

/-- The next test is echoed, and the solver is killed before it hears it. The line that was left is
read, and is no answer. -/
theorem calledOff_law : ∃ s, s = after watched (uncalled ++ [.check true]) ∧
    s.session.killed = true ∧ s.session.depth = 1 ∧
    returned .push (uncalled ++ [.check true]) (run watched (uncalled ++ [.check true])) = 3 ∧
    returned .pop (uncalled ++ [.check true]) (run watched (uncalled ++ [.check true])) = 2 ∧
    s.session.switch.terminations = 1 ∧
    (∃ t, perform s .pop = (.error (.aborted .killed), t) ∧
      t.session = { s.session with aborted := true }) ∧
    (hearing.start { after watched uncalled with log := [] }).1 = .ok (some "unsat") ∧
    ∃ t, perform (after watched uncalled) (.check true) = (.error (.aborted .killed), t) := by
  have hstart : Arena.start { watched.toArena with
      backends := [some { answers := ["sat\nunsat"] }] } {} = (.ok watched.session, _) := rfl
  have hkilled : (after watched (uncalled ++ [.check true])).session.killed = true := by
    decide +kernel
  have hdepth : (after watched (uncalled ++ [.check true])).session.depth = 1 := by decide +kernel
  have hpush : returned .push (uncalled ++ [.check true])
      (run watched (uncalled ++ [.check true])) = 3 := by decide +kernel
  have hline : (hearing.start { after watched uncalled with log := [] }).1 =
      .ok (some "unsat") := by decide +kernel
  have hdead : (hearing.start { after watched uncalled with log := [] }).2.session.killed =
      true := by decide +kernel
  obtain ⟨-, hscopes, -, hended, -, -, -, hrefused, -⟩ :=
    protocol_law hstart watched.toArena (uncalled ++ [.check true]) rfl
  obtain ⟨-, -, -, -, -, -, -, -, -, -, hunheard⟩ :=
    protocol_law hstart watched.toArena uncalled rfl
  refine ⟨_, rfl, hkilled, hdepth, hpush, ?_, ?_, ?_, hline, ?_⟩
  · have hopen := hscopes.trans hpush
    have hone : 1 + returned .pop (uncalled ++ [.check true])
        (run watched (uncalled ++ [.check true])) = 3 := hdepth ▸ hopen
    omega
  · exact hended.trans (congrArg Bool.toNat hkilled)
  · exact hrefused .pop hkilled (hdepth ▸ Nat.one_pos)
  · exact hunheard true (some "unsat") _ (Prod.ext hline rfl) hdead

end Conversation

end PetriReach
