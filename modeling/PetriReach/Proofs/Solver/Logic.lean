import Mathlib.Tactic.Common
import PetriReach.Solver.Work

/-!
# A logic of work

Ways to speak of a piece of work on a stage: what holds if it succeeds, that it succeeds, what holds
at its end, and how the stage moves in any case. Each has rules for work that is put together.

* `Work.Yields`: what holds if the work succeeds.
* `Work.Does`: the work succeeds, and what holds then.
* `Work.Ends`: what holds at the end, whether or not the work succeeds.
* `Work.Moves`: how the stage moves in any case.
* `Stage.Lull.abort` and its like: a relation that survives all that happens while the process is
  left alone survives a diagnostic and an end.
* `Stage.Exchange.checkSat` and its like: a relation that also survives that the process is told
  something or read from survives writing and testing.
* `Stage.Course.checkSat` and its like: a relation that survives every change of the stage
  survives every step of a conversation.
-/

namespace PetriReach

/-- The stage after a line was awaited. -/
def Stage.heard (s : Stage) : Stage :=
  { s with session := s.session.receive.2 }.around (·.elapse)

namespace Work

variable {α β : Type}

/-- If the work succeeds, its result and the stage it leaves satisfy `Q`. -/
def Yields (w : Work α) (s : Stage) (Q : α → Stage → Prop) : Prop :=
  ∀ a s', w.start s = (.ok a, s') → Q a s'

/-- The work succeeds, and its result and the stage it leaves satisfy `Q`. -/
def Does (w : Work α) (s : Stage) (Q : α → Stage → Prop) : Prop :=
  ∃ a s', w.start s = (.ok a, s') ∧ Q a s'

/-- The outcome of the work and the stage it leaves satisfy `Q`. -/
def Ends (w : Work α) (s : Stage) (Q : Except Fault α → Stage → Prop) : Prop :=
  Q (w.start s).1 (w.start s).2

/-- The work leads from any stage to one in the relation `R`. -/
def Moves (R : Stage → Stage → Prop) (w : Work α) : Prop :=
  ∀ s, R s (w.start s).2

theorem start_bind (w : Work α) (f : α → Work β) (s : Stage) :
    (w >>= f).start s = match w.start s with
      | (.ok a, s') => (f a).start s'
      | (.error e, s') => (.error e, s') := by
  show ((w >>= f : Work β).run.run s) = _
  unfold start
  rw [ExceptT.run_bind, StateT.run_bind]
  rcases w.run.run s with ⟨r, s'⟩
  cases r <;> rfl

@[simp] theorem start_get (s : Stage) : (get : Work Stage).start s = (.ok s, s) :=
  rfl

@[simp] theorem start_modify (f : Stage → Stage) (s : Stage) :
    (modify f : Work PUnit).start s = (.ok ⟨⟩, f s) :=
  rfl

/-- A step that a condition may stop. -/
def guarded (c : Stage → Prop) [DecidablePred c] (stop : Work PUnit) (w : Work α) : Work α := do
  let s ← get
  if c s then stop >>= fun _ => w else w

/-- Sends a text to a solver that is not known to be killed. -/
def tell (text : String) : Work Unit := do
  echo text
  match (← get).session.send? text with
  | none => abort .brokenPipe
  | some session => modify fun s => { s with session }

/-- Closes a scope that is open. -/
def close : Work Unit := do
  write Smt.Command.pop.render
  modify fun s => { s with session := { s.session with depth := s.session.depth - 1 } }

/-- What a line is taken for. -/
def judge (required : Bool) (line : Option String) : Work Answer :=
  match line with
  | none => abort .closed
  | some line => do
    let answer := Text.trim line
    echo ("; " ++ answer ++ "\n")
    if answer = "sat" then return .sat
    else if answer = "unsat" then return .unsat
    else if required || answer ≠ "unknown" then abort (.unexpected answer)
    else return .unknown

theorem write_eq (text : String) :
    write text = guarded (·.session.killed = true) (abort .killed) (tell text) :=
  rfl

theorem pop_eq : pop = guarded (·.session.depth = 0) (throw .unmatchedPop) close :=
  rfl

theorem checkSat_eq (required : Bool) : checkSat required = (do
    write Smt.Command.checkSat.render
    let line ← receive
    guarded (·.session.killed = true) (abort .killed) (judge required line)) :=
  rfl

/-- What is read from a solver. -/
theorem start_receive (s : Stage) : receive.start s =
    match s.session.receive.1 with
    | .line text => (.ok (some text), s.heard)
    | .closed => (.ok none, s.heard)
    | .silent =>
      if s.heard.session.killed = true then (.ok none, s.heard)
      else if s.heard.watchdog = .armed then (.ok none, s.heard.around (·.expire))
      else (.error .stuck, s.heard) := by
  unfold receive
  rw [start_bind, start_get]
  dsimp only
  rw [start_bind, start_modify]
  dsimp only
  cases s.session.receive.1 with
  | line text => rfl
  | closed => rfl
  | silent =>
    show outwait.start s.heard = _
    unfold outwait
    rw [start_bind, start_get]
    dsimp only
    by_cases hkilled : s.heard.session.killed = true
    · rw [if_pos hkilled, if_pos hkilled]
      rfl
    · rw [if_neg hkilled, if_neg hkilled]
      split <;> rfl

variable {w : Work α} {f : α → Work β} {s : Stage} {Q Q' : α → Stage → Prop}
  {T : β → Stage → Prop} {R : Stage → Stage → Prop}

/-! ## Success as a premise -/

theorem Yields.mono (h : w.Yields s Q) (hQ : ∀ a s', Q a s' → Q' a s') : w.Yields s Q' :=
  fun a s' ha => hQ a s' (h a s' ha)

theorem Yields.and (h : w.Yields s Q) (h' : w.Yields s Q') :
    w.Yields s fun a s' => Q a s' ∧ Q' a s' :=
  fun a s' ha => ⟨h a s' ha, h' a s' ha⟩

theorem Moves.yields (h : w.Moves R) : w.Yields s fun _ s' => R s s' := by
  intro a s' ha
  have hs := h s
  rwa [ha] at hs

theorem yields_bind (h : w.Yields s fun a s' => (f a).Yields s' T) : (w >>= f).Yields s T := by
  intro b s'' hb
  rw [start_bind] at hb
  split at hb
  · next a s' ha => exact h a s' ha b s'' hb
  · cases hb

theorem yields_guarded {c : Stage → Prop} [DecidablePred c] {stop : Work PUnit}
    (hstop : ∀ {T : PUnit → Stage → Prop}, stop.Yields s T) (h : ¬ c s → w.Yields s Q) :
    (guarded c stop w).Yields s Q := by
  intro a s' ha
  unfold guarded at ha
  rw [start_bind, start_get] at ha
  dsimp only at ha
  by_cases hc : c s
  · rw [if_pos hc] at ha
    exact yields_bind hstop a s' ha
  · rw [if_neg hc] at ha
    exact h hc a s' ha

theorem yields_pure {a : α} (h : Q a s) : (pure a : Work α).Yields s Q := by
  rintro b s' ⟨⟩
  exact h

theorem yields_throw (e : Fault) : (throw e : Work α).Yields s Q := by
  rintro b s' ⟨⟩

theorem yields_get {Q : Stage → Stage → Prop} (h : Q s s) : (get : Work Stage).Yields s Q := by
  rintro b s' ⟨⟩
  exact h

theorem yields_modify {g : Stage → Stage} {Q : PUnit → Stage → Prop} (h : Q ⟨⟩ (g s)) :
    (modify g : Work PUnit).Yields s Q := by
  rintro b s' ⟨⟩
  exact h

/-! ## Success as a conclusion -/

theorem Does.mono (h : w.Does s Q) (hQ : ∀ a s', Q a s' → Q' a s') : w.Does s Q' := by
  obtain ⟨a, s', ha, hs'⟩ := h
  exact ⟨a, s', ha, hQ a s' hs'⟩

/-- What holds if the work succeeds may be used of work that succeeds. -/
theorem Does.and (h : w.Does s Q) (h' : w.Yields s Q') : w.Does s fun a s' => Q a s' ∧ Q' a s' := by
  obtain ⟨a, s', ha, hs'⟩ := h
  exact ⟨a, s', ha, hs', h' a s' ha⟩

theorem does_bind (h : w.Does s fun a s' => (f a).Does s' T) : (w >>= f).Does s T := by
  obtain ⟨a, s', ha, b, s'', hb, hT⟩ := h
  refine ⟨b, s'', ?_, hT⟩
  rw [start_bind, ha]
  exact hb

theorem does_guarded {c : Stage → Prop} [DecidablePred c] {stop : Work PUnit} (hc : ¬ c s)
    (h : w.Does s Q) : (guarded c stop w).Does s Q := by
  obtain ⟨a, s', ha, hs'⟩ := h
  refine ⟨a, s', ?_, hs'⟩
  unfold guarded
  rw [start_bind, start_get]
  dsimp only
  rw [if_neg hc]
  exact ha

theorem does_pure {a : α} (h : Q a s) : (pure a : Work α).Does s Q :=
  ⟨a, s, rfl, h⟩

theorem does_get {Q : Stage → Stage → Prop} (h : Q s s) : (get : Work Stage).Does s Q :=
  ⟨s, s, rfl, h⟩

theorem does_modify {g : Stage → Stage} {Q : PUnit → Stage → Prop} (h : Q ⟨⟩ (g s)) :
    (modify g : Work PUnit).Does s Q :=
  ⟨⟨⟩, g s, rfl, h⟩

theorem ends_bind {T : Except Fault β → Stage → Prop}
    (h : w.Does s fun a s' => (f a).Ends s' T) : (w >>= f).Ends s T := by
  obtain ⟨a, s', ha, hs'⟩ := h
  unfold Ends
  rw [start_bind, ha]
  exact hs'

/-- Work that may fail, followed by more: a failure is known by how the stage moves. -/
theorem ends_seq {T : Except Fault β → Stage → Prop} (hmoves : w.Moves R)
    (hfail : ∀ e s', R s s' → T (.error e) s')
    (h : w.Yields s fun a s' => (f a).Ends s' T) : (w >>= f).Ends s T := by
  have hs := hmoves s
  unfold Ends
  rw [start_bind]
  split
  · next a s' ha => exact h a s' ha
  · next e s' ha =>
    rw [ha] at hs
    exact hfail e s' hs

end Work

/-! ## Moves of the stage -/

/-- What a conversation can do to a session: the process was told more, and stays killed. -/
structure Session.Later (x y : Session) : Prop where
  id : y.id = x.id
  received : x.process.received <+: y.process.received
  killed : x.killed = true → y.killed = true

/-- A relation between stages that survives every change that a conversation makes while the process
is neither told nor asked anything. -/
structure Stage.Lull (R : Stage → Stage → Prop) : Prop where
  refl : ∀ s, R s s
  trans : ∀ {s t u}, R s t → R t u → R s u
  settle : ∀ s : Stage, R s s.settle
  elapse : ∀ s : Stage, R s (s.around (·.elapse))
  emit : ∀ (s : Stage) (text : String), R s (s.around (·.emit text))
  expire : ∀ s : Stage, R s (s.around (·.expire))
  kill : ∀ s : Stage, R s { s with session := { s.session.kill with aborted := true } }

/-- A relation between stages that survives every change that a conversation makes while no scope is
opened or closed. -/
structure Stage.Exchange (R : Stage → Stage → Prop) : Prop extends Stage.Lull R where
  tell : ∀ (s : Stage) {text : String} {x : Session}, s.session.send? text = some x →
    R s { s with session := x }
  hear : ∀ s : Stage, R s { s with session := s.session.receive.2 }

/-- A relation between stages that survives every change that a conversation makes. -/
structure Stage.Course (R : Stage → Stage → Prop) : Prop extends Stage.Lull R where
  session : ∀ (s : Stage) {x : Session}, s.session.Later x → R s { s with session := x }
  witness : ∀ (s : Stage) (k : Option Nat), R s { s with witness := k }

namespace Process

theorem received_answer (p : Process) : p.answer.received = p.received := by
  unfold answer
  split
  · rfl
  · split
    · rfl
    · split <;> rfl

theorem received_foldl_hear (ls : List (List Char)) (p : Process) :
    (ls.foldl hear p).received = p.received := by
  induction ls generalizing p with
  | nil => rfl
  | cons l ls ih =>
    rw [List.foldl_cons, ih]
    unfold hear
    split
    · exact p.received_answer
    · rfl

theorem received_feed (p : Process) (text : String) :
    (p.feed text).received = p.received ++ [text] := by
  unfold feed
  rw [received_foldl_hear]

theorem received_take (p : Process) : p.take.2.received = p.received := by
  unfold take
  split <;> rfl

end Process

namespace Session

theorem Later.refl (x : Session) : x.Later x :=
  ⟨rfl, List.prefix_refl _, fun h => h⟩

theorem Later.trans {x y z : Session} (h : x.Later y) (h' : y.Later z) : x.Later z :=
  ⟨h'.id.trans h.id, h.received.trans h'.received, h'.killed ∘ h.killed⟩

theorem killed_kill (x : Session) : x.kill.killed = true :=
  x.switch.killed_kill

theorem later_kill (x : Session) : x.Later { x.kill with aborted := true } :=
  ⟨rfl, List.prefix_refl _, fun _ => x.killed_kill⟩

theorem later_send {x y : Session} {text : String} (h : x.send? text = some y) : x.Later y := by
  unfold send? at h
  split at h
  · cases h
    exact Later.refl x
  · split at h
    · split at h
      · cases h
        exact Later.refl x
      · cases h
    · cases h
      exact ⟨rfl, ⟨[text], (x.process.received_feed text).symm⟩, fun h => h⟩

/-- Reading from a solver that is not killed. -/
theorem receive_of_alive {x : Session} (h : x.killed = false) :
    x.receive = (x.process.take.1, { x with process := x.process.take.2 }) := by
  simp [receive, h]

/-- A line that is read is one that the process wrote, whether or not the solver is killed. -/
theorem take_of_receive {x : Session} {l : String} (h : x.receive.1 = .line l) :
    x.process.take.1 = .line l ∧ x.receive.2.process = x.process.take.2 := by
  unfold receive at h ⊢
  split at h
  · cases h
  · next hdead =>
    rw [if_neg hdead]
    dsimp only at h ⊢
    split at h
    · cases h
    · exact ⟨h, rfl⟩

theorem later_receive (x : Session) : x.Later x.receive.2 := by
  unfold receive
  split
  · exact Later.refl x
  · exact ⟨rfl, by simp [x.process.received_take], fun h => h⟩

end Session

namespace Stage.Lull

variable {α β : Type} {R : Stage → Stage → Prop} (hR : Lull R)

include hR

theorem bind {w : Work α} {f : α → Work β} (hw : w.Moves R) (hf : ∀ a, (f a).Moves R) :
    (w >>= f).Moves R := by
  intro s
  rw [Work.start_bind]
  have hs := hw s
  split
  · next a s' ha =>
    rw [ha] at hs
    exact hR.trans hs (hf a s')
  · next e s' ha =>
    rw [ha] at hs
    exact hs

theorem pure (a : α) : (Pure.pure a : Work α).Moves R :=
  fun s => hR.refl s

theorem throw (e : Fault) : (MonadExcept.throw e : Work α).Moves R :=
  fun s => hR.refl s

theorem get : (MonadState.get : Work Stage).Moves R :=
  fun s => hR.refl s

theorem guarded {c : Stage → Prop} [DecidablePred c] {stop : Work PUnit} {w : Work α}
    (hstop : stop.Moves R) (hw : w.Moves R) : (Work.guarded c stop w).Moves R := by
  refine hR.bind hR.get fun s => ?_
  split
  · exact hR.bind hstop fun _ => hw
  · exact hw

theorem info (text : String) : (Work.info text).Moves R := by
  intro s
  show R s (s.around (·.info text))
  unfold Arena.info
  by_cases hv : s.verbose = true
  · have harena : s.around (fun a => if a.verbose = true then a.emit text else a) =
        s.around (·.emit text) := by simp [Stage.around, hv]
    exact harena ▸ hR.emit s text
  · have harena : s.around (fun a => if a.verbose = true then a.emit text else a) = s.settle := by
      simp [Stage.around, hv]
    exact harena ▸ hR.settle s

theorem warn (text : String) : (Work.warn text).Moves R :=
  fun s => hR.emit s _

theorem echo (text : String) : (Work.echo text).Moves R := by
  refine hR.bind (fun s => hR.elapse s) fun _ => hR.bind hR.get fun s => ?_
  split
  · exact fun s => hR.emit s text
  · exact hR.pure _

theorem abort (reason : Abort) : (Work.abort reason : Work α).Moves R := by
  refine hR.bind hR.get fun s => hR.bind hR.kill fun _ => ?_
  split
  · exact hR.bind (hR.info _) fun _ => hR.throw _
  · exact hR.bind (hR.warn _) fun _ => hR.throw _

theorem judge (required : Bool) (line : Option String) : (Work.judge required line).Moves R := by
  cases line with
  | none => exact hR.abort _
  | some line =>
    refine hR.bind (hR.echo _) fun _ => ?_
    split
    · exact hR.pure _
    · split
      · exact hR.pure _
      · split
        · exact hR.abort _
        · exact hR.pure _

end Stage.Lull

namespace Stage.Exchange

variable {R : Stage → Stage → Prop} (hR : Exchange R)

include hR

theorem write (text : String) : (Work.write text).Moves R := by
  rw [Work.write_eq]
  refine hR.guarded (hR.abort _) (hR.bind (hR.echo text) fun _ => ?_)
  intro s
  rw [Work.start_bind]
  dsimp only [Work.start_get]
  split
  · exact hR.abort _ s
  · next session hs => exact hR.tell s hs

theorem receive : Work.receive.Moves R := by
  intro s
  have hs : R s s.heard := hR.trans (hR.hear s) (hR.elapse _)
  rw [Work.start_receive]
  split
  · exact hs
  · exact hs
  · split
    · exact hs
    · split
      · exact hR.trans hs (hR.expire _)
      · exact hs

theorem checkSat (required : Bool) : (Work.checkSat required).Moves R := by
  rw [Work.checkSat_eq]
  refine hR.bind (hR.write _) fun _ => hR.bind hR.receive fun line => ?_
  exact hR.guarded (hR.abort _) (hR.judge required line)

end Stage.Exchange

namespace Stage.Course

variable {R : Stage → Stage → Prop} (hR : Course R)

include hR

theorem exchange : Exchange R where
  toLull := hR.toLull
  tell s _ _ h := hR.session s (Session.later_send h)
  hear s := hR.session s s.session.later_receive

theorem write (text : String) : (Work.write text).Moves R :=
  hR.exchange.write text

theorem send (script : Except EncodingError Smt.Script) : (Work.send script).Moves R := by
  cases script with
  | error e => exact hR.throw _
  | ok cs => exact hR.write _

theorem push : Work.push.Moves R :=
  hR.bind (hR.write _) fun _ s => hR.session s ⟨rfl, List.prefix_refl _, id⟩

theorem pop : Work.pop.Moves R := by
  rw [Work.pop_eq]
  refine hR.guarded (hR.throw _) (hR.bind (hR.write _) fun _ s => ?_)
  exact hR.session s ⟨rfl, List.prefix_refl _, id⟩

theorem receive : Work.receive.Moves R :=
  hR.exchange.receive

theorem checkSat (required : Bool) : (Work.checkSat required).Moves R :=
  hR.exchange.checkSat required

end Stage.Course

end PetriReach
