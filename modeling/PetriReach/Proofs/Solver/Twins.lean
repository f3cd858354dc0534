import PetriReach.Proofs.Solver.Transcript

/-!
# Twin conversations

Two conversations that differ only in when they are cancelled. As long as neither is killed they
are the same; from then on the one that was cancelled earlier can still come to an end that was
already settled, or it breaks off.

* `Arena.Milder`: the same surroundings with fewer cancellations.
* `Work.Twin`: conversations that were the same so far.
* `Work.Agree`: what two ends have to do with each other.
* `Work.agree_write`, `Work.agree_checkSat`: a step leads from twins to twins, or to such ends.
-/

namespace PetriReach

/-! ## Surroundings -/

/-- What an event puts into the bound cell. -/
def Event.bound? : Event → Option Int
  | .cancel => none
  | .publish b => some b

namespace Arena

/-- The surroundings with other events, and cancelled or not. -/
def recast (a : Arena) (agenda : List (Nat × Event)) (meanwhile : List (List Event))
    (cancelled : Bool) : Arena :=
  { a with agenda, meanwhile, cohort := { a.cohort with cancelled } }

/-- `a₀` is `a` with some of its cancellations left out. -/
structure Milder (a₀ a : Arena) : Prop where
  rest : a₀ = a.recast a₀.agenda a₀.meanwhile a₀.cohort.cancelled
  published : a₀.agenda.filter (·.2 ≠ .cancel) = a.agenda.filter (·.2 ≠ .cancel)
  cancels : ∀ n, (n, .cancel) ∈ a₀.agenda → (n, .cancel) ∈ a.agenda
  publishedMeanwhile : a₀.meanwhile.map (·.filterMap Event.bound?) =
    a.meanwhile.map (·.filterMap Event.bound?)
  cancelsMeanwhile : ∀ n, .cancel ∈ a₀.meanwhile.getD n [] → .cancel ∈ a.meanwhile.getD n []
  cancelled : a₀.cohort.cancelled = true → a.cohort.cancelled = true

variable {a a₀ : Arena}

theorem foldl_happen (events : List Event) (a : Arena) : events.foldl happen a =
    { a with
      bound := (events.filterMap Event.bound?).foldl Bound.publish a.bound
      cohort := { a.cohort with
        cancelled := a.cohort.cancelled || decide (.cancel ∈ events) } } := by
  induction events generalizing a with
  | nil => simp
  | cons event events ih =>
    rw [List.foldl_cons, ih]
    cases event with
    | cancel => simp [happen, Cohort.cancel, Event.bound?, List.filterMap_cons]
    | publish b => simp [happen, Event.bound?]

/-- What is published with a diagnostic does not depend on cancellations. -/
theorem filterMap_due (agenda : List (Nat × Event)) (n : Nat) :
    ((agenda.filter (·.1 = n)).map (·.2)).filterMap Event.bound? =
      (((agenda.filter (·.2 ≠ .cancel)).filter (·.1 = n)).map (·.2)).filterMap Event.bound? := by
  induction agenda with
  | nil => rfl
  | cons entry agenda ih =>
    obtain ⟨m, event⟩ := entry
    by_cases hm : m = n <;> cases event <;> simp_all [Event.bound?, List.filterMap_cons]

theorem cancel_mem_due {agenda : List (Nat × Event)} {n : Nat} :
    .cancel ∈ (agenda.filter (·.1 = n)).map (·.2) ↔ (n, .cancel) ∈ agenda := by
  simp

/-- What a diagnostic does. -/
theorem emit_eq (a : Arena) (text : String) : a.emit text =
    { a with
      log := a.log ++ [Text.asLine text]
      bound := (((a.agenda.filter (·.1 = a.log.length + 1)).map (·.2)).filterMap
        Event.bound?).foldl Bound.publish a.bound
      cohort := { a.cohort with
        cancelled := a.cohort.cancelled || decide ((a.log.length + 1, .cancel) ∈ a.agenda) } } := by
  unfold emit
  rw [foldl_happen]
  simp only [cancel_mem_due]

/-- What happens while time passes. -/
theorem elapse_eq (a : Arena) : a.elapse =
    { a with
      meanwhile := a.meanwhile.tail
      bound := ((a.meanwhile.headD []).filterMap Event.bound?).foldl Bound.publish a.bound
      cohort := { a.cohort with
        cancelled := a.cohort.cancelled || decide (.cancel ∈ a.meanwhile.headD []) } } := by
  unfold elapse
  cases hmeanwhile : a.meanwhile with
  | nil =>
    have hsame : a = { a with meanwhile := [] } := by rw [← hmeanwhile]
    simpa using hsame
  | cons events rest => exact foldl_happen events _

/-- With other cancellations, a diagnostic does the same but for them. -/
theorem emit_recast {agenda : List (Nat × Event)} (meanwhile : List (List Event))
    (cancelled : Bool) (h : agenda.filter (·.2 ≠ .cancel) = a.agenda.filter (·.2 ≠ .cancel))
    (text : String) : (a.recast agenda meanwhile cancelled).emit text =
      (a.emit text).recast agenda meanwhile
        (cancelled || decide ((a.log.length + 1, .cancel) ∈ agenda)) := by
  rw [emit_eq, emit_eq, filterMap_due a.agenda, ← h, ← filterMap_due]
  rfl

/-- With other cancellations, the same happens but for them. -/
theorem elapse_recast (agenda : List (Nat × Event)) {meanwhile : List (List Event)}
    (cancelled : Bool) (h : meanwhile.map (·.filterMap Event.bound?) =
      a.meanwhile.map (·.filterMap Event.bound?)) :
    (a.recast agenda meanwhile cancelled).elapse = a.elapse.recast agenda meanwhile.tail
      (cancelled || decide (.cancel ∈ meanwhile.headD [])) := by
  have hhead : (meanwhile.headD []).filterMap Event.bound? =
      (a.meanwhile.headD []).filterMap Event.bound? := by
    have hheads := congrArg (List.headD · (List.filterMap Event.bound? [])) h
    rwa [List.headD_map, List.headD_map] at hheads
  rw [elapse_eq, elapse_eq, ← hhead]
  rfl

namespace Milder

theorem log (h : a₀.Milder a) : a₀.log = a.log := by
  rw [h.rest]
  rfl

theorem verbose (h : a₀.Milder a) : a₀.verbose = a.verbose := by
  rw [h.rest]
  rfl

theorem bound (h : a₀.Milder a) : a₀.bound = a.bound := by
  rw [h.rest]
  rfl

theorem watchdog (h : a₀.Milder a) : a₀.watchdog = a.watchdog := by
  rw [h.rest]
  rfl

theorem registered (h : a₀.Milder a) : a₀.cohort.registered = a.cohort.registered := by
  rw [h.rest]
  rfl

theorem emit (h : a₀.Milder a) (text : String) : (a₀.emit text).Milder (a.emit text) := by
  refine ⟨?_, ?_, ?_, ?_, ?_, ?_⟩
  · calc a₀.emit text = (a.recast a₀.agenda a₀.meanwhile a₀.cohort.cancelled).emit text :=
          congrArg (Arena.emit · text) h.rest
      _ = (a.emit text).recast a₀.agenda a₀.meanwhile (a₀.cohort.cancelled ||
          decide ((a.log.length + 1, .cancel) ∈ a₀.agenda)) := emit_recast _ _ h.published text
      _ = (a.emit text).recast (a₀.emit text).agenda (a₀.emit text).meanwhile
          (a₀.emit text).cohort.cancelled := by
          rw [emit_eq a₀, h.log]
  · rw [emit_eq, emit_eq]
    exact h.published
  · rw [emit_eq, emit_eq]
    exact h.cancels
  · rw [emit_eq, emit_eq]
    exact h.publishedMeanwhile
  · rw [emit_eq, emit_eq]
    exact h.cancelsMeanwhile
  · rw [emit_eq, emit_eq, h.log]
    simp only [Bool.or_eq_true, decide_eq_true_eq]
    exact Or.imp h.cancelled (h.cancels _)

theorem elapse (h : a₀.Milder a) : a₀.elapse.Milder a.elapse := by
  refine ⟨?_, ?_, ?_, ?_, ?_, ?_⟩
  · calc a₀.elapse = (a.recast a₀.agenda a₀.meanwhile a₀.cohort.cancelled).elapse :=
          congrArg Arena.elapse h.rest
      _ = a.elapse.recast a₀.agenda a₀.meanwhile.tail (a₀.cohort.cancelled ||
          decide (.cancel ∈ a₀.meanwhile.headD [])) := elapse_recast _ _ h.publishedMeanwhile
      _ = a.elapse.recast a₀.elapse.agenda a₀.elapse.meanwhile a₀.elapse.cohort.cancelled := by
          rw [elapse_eq a₀]
  · rw [elapse_eq, elapse_eq]
    exact h.published
  · rw [elapse_eq, elapse_eq]
    exact h.cancels
  · rw [elapse_eq, elapse_eq, List.map_tail, List.map_tail, h.publishedMeanwhile]
  · rw [elapse_eq, elapse_eq]
    intro n
    simpa using h.cancelsMeanwhile (n + 1)
  · rw [elapse_eq, elapse_eq]
    simp only [Bool.or_eq_true, decide_eq_true_eq]
    have hfirst := h.cancelsMeanwhile 0
    rw [← List.headD_eq_getD, ← List.headD_eq_getD] at hfirst
    exact Or.imp h.cancelled hfirst

theorem info (h : a₀.Milder a) (text : String) : (a₀.info text).Milder (a.info text) := by
  unfold Arena.info
  rw [h.verbose]
  split
  · exact h.emit text
  · exact h

end Milder

theorem registered_emit (a : Arena) (text : String) :
    (a.emit text).cohort.registered = a.cohort.registered := by
  rw [emit_eq]

theorem registered_info (a : Arena) (text : String) :
    (a.info text).cohort.registered = a.cohort.registered :=
  info_cases (p := fun a' => a'.cohort.registered = a.cohort.registered) rfl
    (a.registered_emit ·) text

theorem registered_elapse (a : Arena) : a.elapse.cohort.registered = a.cohort.registered := by
  rw [elapse_eq]

theorem cancelled_elapse (h : a.cohort.cancelled = true) : a.elapse.cohort.cancelled = true := by
  rw [elapse_eq]
  simp [h]

theorem cancelled_emit (h : a.cohort.cancelled = true) (text : String) :
    (a.emit text).cohort.cancelled = true := by
  rw [emit_eq]
  simp [h]

theorem cancelled_info (h : a.cohort.cancelled = true) (text : String) :
    (a.info text).cohort.cancelled = true :=
  info_cases (p := fun a' => a'.cohort.cancelled = true) h (cancelled_emit h ·) text

end Arena

/-! ## Stages -/

namespace Stage

variable {s : Stage}

theorem settle_session (s : Stage) : ∃ switch, s.settle.session = { s.session with switch } := by
  unfold settle
  split
  · exact ⟨_, rfl⟩
  · exact ⟨s.session.switch, rfl⟩

theorem settle_witness (s : Stage) : s.settle.witness = s.witness := by
  unfold settle
  split <;> rfl

/-- A registered solver is killed if and only if the cohort is cancelled. -/
theorem killed_settle (henlisted : s.session.id ∈ s.cohort.registered)
    (hkilled : s.session.killed = true → s.cohort.cancelled = true) :
    s.settle.session.killed = s.cohort.cancelled := by
  unfold settle
  split
  · next h =>
    rw [Bool.and_eq_true] at h
    rw [h.1]
    exact s.session.killed_kill
  · next h =>
    have hcontains : s.cohort.registered.contains s.session.id = true :=
      List.contains_iff_mem.mpr henlisted
    rw [hcontains, Bool.and_true, Bool.not_eq_true] at h
    rw [h, Bool.eq_false_iff]
    exact fun hk => by simp [hkilled hk] at h

/-- The solver is killed and the cohort cancelled. -/
structure CalledOff (s : Stage) : Prop where
  killed : s.session.killed = true
  cancelled : s.cohort.cancelled = true

/-- The stage after time passed. -/
def elapsed (s : Stage) : Stage :=
  s.around (·.elapse)

/-- The stage after a text was written out, if that is asked for. -/
def echoed (s : Stage) (text : String) : Stage :=
  if s.elapsed.session.echo then s.elapsed.around (·.emit text) else s.elapsed

end Stage

namespace Work

/-- Conversations that were the same so far, `s₀` with fewer cancellations than `s`. In each the
solver is killed as soon as its cohort is cancelled. Fewer than `fuel` lines can be read. -/
structure Twin (fuel : Nat) (s₀ s : Stage) : Prop where
  arena : s₀.toArena.Milder s.toArena
  session : ∃ switch, s₀.session = { s.session with switch }
  witness : s₀.witness = s.witness
  enlisted : s.session.id ∈ s.cohort.registered
  killed : s.session.killed = s.cohort.cancelled
  killed₀ : s₀.session.killed = s₀.cohort.cancelled
  stock : s.session.process.stock < fuel

namespace Twin

variable {fuel : Nat} {s₀ s : Stage}

theorem process (h : Twin fuel s₀ s) : s₀.session.process = s.session.process := by
  obtain ⟨switch, hsession⟩ := h.session
  rw [hsession]

theorem depth (h : Twin fuel s₀ s) : s₀.session.depth = s.session.depth := by
  obtain ⟨switch, hsession⟩ := h.session
  rw [hsession]

theorem echo (h : Twin fuel s₀ s) : s₀.session.echo = s.session.echo := by
  obtain ⟨switch, hsession⟩ := h.session
  rw [hsession]

/-- The lines of a process are fewer than its supply and one more. -/
theorem refuel (h : Twin fuel s₀ s) : Twin (s.session.process.supply + 1) s₀ s :=
  ⟨h.arena, h.session, h.witness, h.enlisted, h.killed, h.killed₀,
    Nat.lt_succ_of_le (Process.stock_le_supply _)⟩

/-- The milder one is not killed before the other. -/
theorem alive (h : Twin fuel s₀ s) (halive : s.session.killed = false) :
    s₀.session.killed = false := by
  rw [h.killed] at halive
  rw [h.killed₀, Bool.eq_false_iff]
  exact fun hcancelled => by simp [h.arena.cancelled hcancelled] at halive

/-- Conversations that were the same so far are twins once they are settled. -/
theorem settle (harena : s₀.toArena.Milder s.toArena)
    (hsession : ∃ switch, s₀.session = { s.session with switch })
    (hwitness : s₀.witness = s.witness) (henlisted : s.session.id ∈ s.cohort.registered)
    (hkilled : s.session.killed = true → s.cohort.cancelled = true)
    (hkilled₀ : s₀.session.killed = true → s₀.cohort.cancelled = true)
    (hstock : s.session.process.stock < fuel) : Twin fuel s₀.settle s.settle := by
  obtain ⟨switch, hsession⟩ := hsession
  obtain ⟨sw₀, hs₀⟩ := s₀.settle_session
  obtain ⟨sw, hs⟩ := s.settle_session
  have henlisted₀ : s₀.session.id ∈ s₀.cohort.registered := by
    rw [hsession, harena.registered]
    exact henlisted
  refine ⟨?_, ⟨sw₀, ?_⟩, ?_, ?_, ?_, ?_, ?_⟩
  · rw [Stage.settle_toArena, Stage.settle_toArena]
    exact harena
  · rw [hs₀, hs, hsession]
  · rw [Stage.settle_witness, Stage.settle_witness]
    exact hwitness
  · rw [Stage.settle_toArena, Stage.settle_id]
    exact henlisted
  · rw [Stage.settle_toArena]
    exact Stage.killed_settle henlisted hkilled
  · rw [Stage.settle_toArena]
    exact Stage.killed_settle henlisted₀ hkilled₀
  · rw [Stage.settle_process]
    exact hstock

/-- What happens around twins leaves twins. -/
theorem around (h : Twin fuel s₀ s) {f : Arena → Arena}
    (hmilder : (f s₀.toArena).Milder (f s.toArena))
    (hregistered : ∀ a, (f a).cohort.registered = a.cohort.registered)
    (hcancelled : ∀ {a}, a.cohort.cancelled = true → (f a).cohort.cancelled = true) :
    Twin fuel (s₀.around f) (s.around f) := by
  refine settle hmilder h.session h.witness ?_ (fun hk => ?_) (fun hk => ?_) h.stock
  · rw [hregistered]
    exact h.enlisted
  · exact hcancelled (h.killed ▸ hk)
  · exact hcancelled (h.killed₀ ▸ hk)

theorem emit (h : Twin fuel s₀ s) (text : String) :
    Twin fuel (s₀.around (·.emit text)) (s.around (·.emit text)) :=
  h.around (h.arena.emit text) (Arena.registered_emit · text) (Arena.cancelled_emit · text)

theorem info (h : Twin fuel s₀ s) (text : String) :
    Twin fuel (s₀.around (·.info text)) (s.around (·.info text)) :=
  h.around (h.arena.info text) (Arena.registered_info · text) (Arena.cancelled_info · text)

theorem elapsed (h : Twin fuel s₀ s) : Twin fuel s₀.elapsed s.elapsed :=
  h.around h.arena.elapse Arena.registered_elapse Arena.cancelled_elapse

/-- What both exchange is written out by both or by neither. -/
theorem echoed (h : Twin fuel s₀ s) (text : String) :
    Twin fuel (s₀.echoed text) (s.echoed text) := by
  unfold Stage.echoed
  rw [h.elapsed.echo]
  split
  · exact h.elapsed.emit text
  · exact h.elapsed

/-- A text that one takes in is taken in by both, unless they are killed. -/
theorem send (h : Twin fuel s₀ s) (halive : s.session.killed = false) {text : String}
    {x : Session} (hx : s.session.send? text = some x) : ∃ x₀,
      s₀.session.send? text = some x₀ ∧
      Twin fuel { s₀ with session := x₀ } { s with session := x } := by
  obtain ⟨switch, hsession⟩ := h.session
  have hdead : ¬ s.session.killed = true := by simp [halive]
  have hdead₀ : ¬ s₀.session.killed = true := by simp [h.alive halive]
  rw [Session.send?, if_neg hdead] at hx
  rw [Session.send?, if_neg hdead₀, h.process]
  split at hx
  · next hgone =>
    rw [if_pos hgone]
    split at hx
    · next htext =>
      cases hx
      rw [if_pos htext]
      exact ⟨_, rfl, h⟩
    · cases hx
  · next hgone =>
    cases hx
    rw [if_neg hgone]
    refine ⟨_, rfl, h.arena, ⟨switch, ?_⟩, h.witness, h.enlisted, h.killed, h.killed₀, ?_⟩
    · dsimp only
      rw [hsession]
    · exact Nat.lt_of_le_of_lt (Process.stock_feed _ _) h.stock

end Twin

/-! ## Ends -/

variable {α : Type}

/-- What the end of a conversation, on the right, has to do with that of its milder twin: they are
the same, or the conversation has no verdict. -/
inductive Agree : Except Fault (Option Verdict) × Stage →
    Except Fault (Option Verdict) × Stage → Prop
  | verdict (v : Option Verdict) {s₀ s : Stage} (h : s₀.witness = s.witness) :
    Agree (.ok v, s₀) (.ok v, s)
  | fault (e : Fault) (s₀ s : Stage) : Agree (.error e, s₀) (.error e, s)
  | unsettled (r₀ : Except Fault (Option Verdict) × Stage) (s : Stage) : Agree r₀ (.ok none, s)
  | aborted (r₀ : Except Fault (Option Verdict) × Stage) (reason : Abort) (s : Stage) :
    Agree r₀ (.error (.aborted reason), s)
  | unwritable (reason : Abort) (e : EncodingError) (s₀ s : Stage) :
    Agree (.error (.aborted reason), s₀) (.error (.encoding e), s)

/-- Once it is called off the work has no verdict. -/
def Mute (w : Work (Option Verdict)) : Prop :=
  ∀ s : Stage, s.CalledOff → ∀ r₀, Agree r₀ (w.start s)

/-- Once it is called off the work has no verdict, or a script cannot be written anyway. -/
def Moot (w : Work (Option Verdict)) : Prop :=
  w.Mute ∨ ∃ e, ∀ s, ∃ s', w.start s = (.error (.encoding e), s')

theorem start_abort (reason : Abort) (s : Stage) :
    ∃ s', (abort reason : Work α).start s = (.error (.aborted reason), s') := by
  unfold abort
  rw [start_bind, start_get]
  dsimp only
  rw [start_bind, start_modify]
  dsimp only
  split <;> exact ⟨_, rfl⟩

theorem start_write_of_killed {s : Stage} (h : s.session.killed = true) (text : String) :
    ∃ s', (write text).start s = (.error (.aborted .killed), s') := by
  obtain ⟨s', hs'⟩ := start_abort (α := PUnit) .killed s
  refine ⟨s', ?_⟩
  rw [write_eq, guarded, start_bind, start_get]
  dsimp only
  rw [if_pos h, start_bind, hs']

theorem start_echo (text : String) (s : Stage) :
    (Work.echo text).start s = (.ok (), s.echoed text) := by
  unfold Work.echo Stage.echoed
  rw [start_bind, start_modify]
  show (get >>= fun t => if t.session.echo = true then emit text else pure () : Work Unit).start
    s.elapsed = _
  rw [start_bind, start_get]
  dsimp only
  split <;> rfl

/-- Sending to a solver that is not known to be killed. -/
theorem start_write_of_alive {s : Stage} (h : s.session.killed = false) (text : String) :
    (write text).start s = match (s.echoed text).session.send? text with
      | none => (abort .brokenPipe : Work Unit).start (s.echoed text)
      | some x => (.ok (), { s.echoed text with session := x }) := by
  rw [write_eq, guarded, start_bind, start_get]
  dsimp only
  rw [if_neg (by simp [h]), tell, start_bind, start_echo]
  dsimp only
  rw [start_bind, start_get]
  dsimp only
  cases (s.echoed text).session.send? text <;> rfl

section Mute

variable {f : Unit → Work (Option Verdict)}

theorem agree_of_aborted {w : Work α} {g : α → Work (Option Verdict)} {s s' : Stage}
    {reason : Abort} (h : w.start s = (.error (.aborted reason), s'))
    (r₀ : Except Fault (Option Verdict) × Stage) : Agree r₀ ((w >>= g).start s) := by
  rw [start_bind, h]
  exact .aborted r₀ reason s'

theorem mute_write (text : String) : (write text >>= f).Mute := by
  intro s hoff r₀
  obtain ⟨s', hs'⟩ := start_write_of_killed hoff.killed text
  exact agree_of_aborted hs' r₀

theorem mute_push : (push >>= f).Mute := by
  unfold push
  rw [bind_assoc]
  exact mute_write _

theorem mute_checkSat (required : Bool) {g : Answer → Work (Option Verdict)} :
    (checkSat required >>= g).Mute := by
  rw [checkSat_eq, bind_assoc]
  exact mute_write _

theorem mute_info (text : String) (h : (f ()).Mute) : (info text >>= f).Mute := by
  intro s hoff r₀
  have hinfo : (s.around (·.info text)).CalledOff := by
    refine ⟨(s.later_around _).killed hoff.killed, ?_⟩
    rw [Stage.around, Stage.settle_toArena]
    exact Arena.cancelled_info hoff.cancelled text
  exact h (s.around (·.info text)) hinfo r₀

theorem mute_get {g : Stage → Work (Option Verdict)} (h : ∀ s, (g s).Mute) :
    (get >>= g : Work (Option Verdict)).Mute := by
  intro s hoff r₀
  rw [start_bind, start_get]
  exact h s s hoff r₀

/-- A poll for cancellation ends the work. -/
theorem mute_poll (w : Work (Option Verdict)) :
    (get >>= fun s => if s.cohort.cancelled = true then pure none else w :
      Work (Option Verdict)).Mute := by
  intro s hoff r₀
  rw [start_bind, start_get]
  dsimp only
  rw [if_pos hoff.cancelled]
  exact .unsettled r₀ s

theorem moot_send (script : Except EncodingError Smt.Script) : (send script >>= f).Moot := by
  cases script with
  | ok cs => exact .inl (mute_write _)
  | error e => exact .inr ⟨e, fun s => ⟨s, rfl⟩⟩

theorem moot_modify {g : Stage → Stage} (hg : ∀ s, s.CalledOff → (g s).CalledOff)
    (h : (f ()).Moot) : (modify g >>= f : Work (Option Verdict)).Moot := by
  refine h.imp (fun hmute s hoff => ?_) fun ⟨e, he⟩ => ⟨e, fun s => ?_⟩
  · exact hmute (g s) (hg s hoff)
  · exact he (g s)

end Mute

/-! ## Steps -/

section Agree

variable {fuel : Nat} {s₀ s : Stage} {f : Unit → Work (Option Verdict)}

theorem agree_info (h : Twin fuel s₀ s) (text : String)
    (hf : ∀ {s₀ s}, Twin fuel s₀ s → Agree ((f ()).start s₀) ((f ()).start s)) :
    Agree ((info text >>= f).start s₀) ((info text >>= f).start s) :=
  hf (h.info text)

/-- **Writing leads from twins to twins**, or into the end of the conversation. -/
theorem agree_write (h : Twin fuel s₀ s) (text : String)
    (hf : ∀ {s₀ s}, Twin fuel s₀ s → Agree ((f ()).start s₀) ((f ()).start s))
    (hmoot : (f ()).Moot) :
    Agree ((write text >>= f).start s₀) ((write text >>= f).start s) := by
  by_cases hkilled : s.session.killed = true
  · exact mute_write text s ⟨hkilled, h.killed ▸ hkilled⟩ _
  · have halive : s.session.killed = false := Bool.eq_false_iff.mpr hkilled
    have htwin := h.echoed text
    rw [start_bind, start_bind, start_write_of_alive halive,
      start_write_of_alive (h.alive halive)]
    by_cases hdead : (s.echoed text).session.killed = true
    · -- the text is lost on the killed solver; its twin may have taken it in
      have hsend : (s.echoed text).session.send? text = some (s.echoed text).session := by
        rw [Session.send?, if_pos hdead]
      rw [hsend]
      dsimp only
      by_cases hdead₀ : (s₀.echoed text).session.killed = true
      · have hsend₀ : (s₀.echoed text).session.send? text = some (s₀.echoed text).session := by
          rw [Session.send?, if_pos hdead₀]
        rw [hsend₀]
        exact hf htwin
      · rcases hmoot with hmute | ⟨e, he⟩
        · exact hmute _ ⟨hdead, htwin.killed ▸ hdead⟩ _
        · obtain ⟨t, ht⟩ := he (s.echoed text)
          rw [ht]
          cases hsend₀ : (s₀.echoed text).session.send? text with
          | none =>
            obtain ⟨s', hs'⟩ := start_abort (α := Unit) .brokenPipe (s₀.echoed text)
            dsimp only
            rw [hs']
            exact .unwritable _ _ _ _
          | some x₀ =>
            obtain ⟨t₀, ht₀⟩ := he { s₀.echoed text with session := x₀ }
            dsimp only
            rw [ht₀]
            exact .fault _ _ _
    · have hlive : (s.echoed text).session.killed = false := Bool.eq_false_iff.mpr hdead
      cases hsend : (s.echoed text).session.send? text with
      | none =>
        obtain ⟨s', hs'⟩ := start_abort (α := Unit) .brokenPipe (s.echoed text)
        dsimp only
        rw [hs']
        exact .aborted _ _ _
      | some x =>
        obtain ⟨x₀, hsend₀, htwin'⟩ := htwin.send hlive hsend
        rw [hsend₀]
        exact hf htwin'

theorem agree_send (h : Twin fuel s₀ s) (script : Except EncodingError Smt.Script)
    (hf : ∀ {s₀ s}, Twin fuel s₀ s → Agree ((f ()).start s₀) ((f ()).start s))
    (hmoot : (f ()).Moot) :
    Agree ((send script >>= f).start s₀) ((send script >>= f).start s) := by
  cases script with
  | ok cs => exact agree_write h _ hf hmoot
  | error e => exact .fault (.encoding e) s₀ s

/-- Twins with another number of open scopes. -/
theorem Twin.scoped (h : Twin fuel s₀ s) (g : Nat → Nat) :
    Twin fuel { s₀ with session := { s₀.session with depth := g s₀.session.depth } }
      { s with session := { s.session with depth := g s.session.depth } } := by
  obtain ⟨switch, hsession⟩ := h.session
  refine ⟨h.arena, ⟨switch, ?_⟩, h.witness, h.enlisted, h.killed, h.killed₀, h.stock⟩
  dsimp only
  rw [hsession]

theorem agree_push (h : Twin fuel s₀ s)
    (hf : ∀ {s₀ s}, Twin fuel s₀ s → Agree ((f ()).start s₀) ((f ()).start s))
    (hmoot : (f ()).Moot) : Agree ((push >>= f).start s₀) ((push >>= f).start s) := by
  unfold push
  rw [bind_assoc]
  refine agree_write h _ (fun h' => ?_) (moot_modify (fun _ h => ⟨h.killed, h.cancelled⟩) hmoot)
  exact hf (h'.scoped (· + 1))

theorem agree_pop (h : Twin fuel s₀ s)
    (hf : ∀ {s₀ s}, Twin fuel s₀ s → Agree ((f ()).start s₀) ((f ()).start s))
    (hmoot : (f ()).Moot) : Agree ((pop >>= f).start s₀) ((pop >>= f).start s) := by
  rw [pop_eq, guarded, bind_assoc, start_bind, start_get, start_bind, start_get]
  dsimp only
  rw [h.depth]
  split
  · exact .fault .unmatchedPop s₀ s
  · unfold close
    rw [bind_assoc]
    refine agree_write h _ (fun h' => ?_) (moot_modify (fun _ h => ⟨h.killed, h.cancelled⟩) hmoot)
    exact hf (h'.scoped (· - 1))

/-- What follows the test itself. -/
def hearAnswer (required : Bool) (g : Answer → Work (Option Verdict)) : Work (Option Verdict) :=
  receive >>= fun line =>
    guarded (·.session.killed = true) (abort .killed) (judge required line) >>= g

theorem checkSat_bind (required : Bool) (g : Answer → Work (Option Verdict)) :
    checkSat required >>= g = write ask >>= fun _ => hearAnswer required g := by
  rw [checkSat_eq, bind_assoc]
  simp only [bind_assoc, hearAnswer, ask]

variable {g : Answer → Work (Option Verdict)}

/-- Where no line comes the conversation ends. -/
theorem agree_of_no_line (required : Bool) {t : Stage} (h : receive.start s = (.ok none, t))
    (r₀ : Except Fault (Option Verdict) × Stage) :
    Agree r₀ ((hearAnswer required g).start s) := by
  rw [hearAnswer, start_bind, h]
  dsimp only
  rw [guarded, bind_assoc, start_bind, start_get]
  dsimp only
  split
  · rw [bind_assoc]
    obtain ⟨u, hu⟩ := start_abort (α := PUnit) .killed t
    exact agree_of_aborted hu r₀
  · obtain ⟨u, hu⟩ := start_abort (α := Answer) .closed t
    exact agree_of_aborted hu r₀

/-- Where the solver is killed by the time its line is read the conversation ends. -/
theorem agree_of_killed (required : Bool) {line : Option String} {t : Stage}
    (h : receive.start s = (.ok line, t)) (hkilled : t.session.killed = true)
    (r₀ : Except Fault (Option Verdict) × Stage) :
    Agree r₀ ((hearAnswer required g).start s) := by
  rw [hearAnswer, start_bind, h]
  dsimp only
  rw [guarded, bind_assoc, start_bind, start_get]
  dsimp only
  rw [if_pos hkilled, bind_assoc]
  obtain ⟨u, hu⟩ := start_abort (α := PUnit) .killed t
  exact agree_of_aborted hu r₀

/-- Reading from a killed solver comes to an end. -/
theorem start_receive_of_killed (h : s.session.killed = true) :
    ∃ line, receive.start s = (.ok line, s.heard) ∧ s.heard.session.killed = true := by
  have hkilled : s.heard.session.killed = true :=
    (Stage.later_around _ _).killed (s.session.later_receive.killed h)
  rw [start_receive]
  cases hreply : s.session.receive.1 with
  | line l => exact ⟨some l, rfl, hkilled⟩
  | closed => exact ⟨none, rfl, hkilled⟩
  | silent => exact absurd hreply (receive_ne_silent h)

theorem mute_hearAnswer (required : Bool) : (hearAnswer required g).Mute := by
  intro s hoff r₀
  obtain ⟨line, hline, hkilled⟩ := start_receive_of_killed hoff.killed
  exact agree_of_killed required hline hkilled r₀

/-- What becomes of a line. -/
theorem agree_judge (h : Twin fuel s₀ s) (required : Bool) (line : String)
    (hg : ∀ {s₀ s} (w : Answer), Twin fuel s₀ s → Agree ((g w).start s₀) ((g w).start s)) :
    Agree ((judge required (some line) >>= g).start s₀)
      ((judge required (some line) >>= g).start s) := by
  have htwin := h.echoed ("; " ++ Text.trim line ++ "\n")
  unfold judge
  dsimp only
  rw [bind_assoc, start_bind, start_echo, start_bind, start_echo]
  dsimp only
  split
  · exact hg .sat htwin
  · split
    · exact hg .unsat htwin
    · split
      · obtain ⟨t, ht⟩ := start_abort (α := Answer) (.unexpected (Text.trim line)) (s.echoed _)
        exact agree_of_aborted ht _
      · exact hg .unknown htwin

/-- Twins that are not killed read the same, and are twins afterwards. -/
theorem Twin.heard (h : Twin fuel s₀ s) (halive : s.session.killed = false) {fuel' : Nat}
    (hfewer : s.session.process.take.2.stock < fuel') :
    s.session.receive.1 = s.session.process.take.1 ∧
    s₀.session.receive.1 = s.session.process.take.1 ∧ Twin fuel' s₀.heard s.heard := by
  have hread := Session.receive_of_alive halive
  have hread₀ := Session.receive_of_alive (h.alive halive)
  rw [h.process] at hread₀
  refine ⟨congrArg Prod.fst hread, congrArg Prod.fst hread₀, ?_⟩
  obtain ⟨switch, hsession⟩ := h.session
  have htwin : Twin fuel' { s₀ with session := s₀.session.receive.2 }
      { s with session := s.session.receive.2 } := by
    rw [hread, hread₀]
    refine ⟨h.arena, ⟨switch, ?_⟩, h.witness, h.enlisted, h.killed, h.killed₀, hfewer⟩
    dsimp only
    rw [hsession]
  exact htwin.elapsed

theorem agree_hearAnswer (h : Twin (fuel + 1) s₀ s) (required : Bool)
    (hg : ∀ {s₀ s} (w : Answer), Twin fuel s₀ s → Agree ((g w).start s₀) ((g w).start s)) :
    Agree ((hearAnswer required g).start s₀) ((hearAnswer required g).start s) := by
  by_cases hkilled : s.session.killed = true
  · exact mute_hearAnswer required s ⟨hkilled, h.killed ▸ hkilled⟩ _
  · have halive : s.session.killed = false := Bool.eq_false_iff.mpr hkilled
    cases hreply : s.session.process.take.1 with
    | line l =>
      have hfewer : s.session.process.take.2.stock < fuel := by
        have hstock := Process.stock_take hreply
        have hbelow := h.stock
        omega
      obtain ⟨hread, hread₀, htwin⟩ := h.heard halive hfewer
      rw [hreply] at hread hread₀
      have hstart : receive.start s = (.ok (some l), s.heard) := by rw [start_receive, hread]
      have hstart₀ : receive.start s₀ = (.ok (some l), s₀.heard) := by rw [start_receive, hread₀]
      by_cases hdead : s.heard.session.killed = true
      · exact agree_of_killed required hstart hdead _
      · have hdead₀ : ¬ s₀.heard.session.killed = true := by
          simp [htwin.alive (Bool.eq_false_iff.mpr hdead)]
        rw [hearAnswer, start_bind, start_bind, hstart, hstart₀]
        dsimp only
        rw [guarded, bind_assoc, start_bind, start_get, start_bind, start_get]
        dsimp only
        rw [if_neg hdead, if_neg hdead₀]
        exact agree_judge htwin required l hg
    | closed =>
      have hread := congrArg Prod.fst (Session.receive_of_alive halive)
      refine agree_of_no_line required (t := s.heard) ?_ _
      rw [start_receive, hread, hreply]
    | silent =>
      have hsame : s.session.process.take.2 = s.session.process := Process.take_silent hreply
      obtain ⟨hread, hread₀, htwin⟩ := h.heard halive (hsame.symm ▸ h.stock)
      rw [hreply] at hread hread₀
      by_cases hdead : s.heard.session.killed = true
      · refine agree_of_no_line required (t := s.heard) ?_ _
        rw [start_receive, hread]
        exact if_pos hdead
      · have hdead₀ : ¬ s₀.heard.session.killed = true := by
          simp [htwin.alive (Bool.eq_false_iff.mpr hdead)]
        by_cases harmed : s.heard.watchdog = .armed
        · refine agree_of_no_line required (t := s.heard.around (·.expire)) ?_ _
          rw [start_receive, hread]
          dsimp only
          rw [if_neg hdead, if_pos harmed]
        · have harmed₀ : ¬ s₀.heard.watchdog = .armed := by rwa [htwin.arena.watchdog]
          rw [hearAnswer, start_bind, start_bind, start_receive, start_receive, hread, hread₀]
          dsimp only
          rw [if_neg hdead, if_neg hdead₀, if_neg harmed, if_neg harmed₀]
          exact .fault .stuck _ _

/-- **A test leads from twins to twins**, with the same answer, or into the end. -/
theorem agree_checkSat (h : Twin (fuel + 1) s₀ s) (required : Bool)
    (hg : ∀ {s₀ s} (w : Answer), Twin fuel s₀ s → Agree ((g w).start s₀) ((g w).start s)) :
    Agree ((checkSat required >>= g).start s₀) ((checkSat required >>= g).start s) := by
  rw [checkSat_bind]
  exact agree_write h ask (fun h => agree_hearAnswer h required hg)
    (.inl (mute_hearAnswer required))

end Agree

end Work

end PetriReach
