import PetriReach.Proofs.Solver.Twins

/-!
# Mirrors

A conversation looks at little of its surroundings: the bound cell, whether the cohort is called
off, and the watchdog if its process is silent. Two conversations whose surroundings agree on that,
and go on to agree, go the same way. So the number by which a solver goes makes no difference, nor
does the witness found last.

* `Arena.Mirror`: a relation between surroundings that agree, and go on to agree.
* `Stage.Alike`: conversations in such surroundings that are in the same state.
* `Work.Agrees`: two pieces of work that go the same way.
* `Work.Parallel`: a piece of work that does so from all stages that are alike.
* `Arena.labels`: the same surroundings but for labels.
-/

namespace PetriReach

/-! ## Surroundings -/

/-- A relation between surroundings that makes them the same for those who work in them, and that
survives all that happens there. -/
structure Arena.Mirror where
  rel : Arena → Arena → Prop
  bound : ∀ {a a' : Arena}, rel a a' → a'.bound = a.bound
  cancelled : ∀ {a a' : Arena}, rel a a' → a'.cohort.cancelled = a.cohort.cancelled
  emit : ∀ {a a' : Arena} (text : String), rel a a' → rel (a.emit text) (a'.emit text)
  info : ∀ {a a' : Arena} (text : String), rel a a' → rel (a.info text) (a'.info text)
  elapse : ∀ {a a' : Arena}, rel a a' → rel a.elapse a'.elapse
  timeout : ∀ {a a' : Arena}, rel a a' →
    rel { a with watchdog := .expired, cohort := a.cohort.cancel }
      { a' with watchdog := .expired, cohort := a'.cohort.cancel }
  publish : ∀ {a a' : Arena} (n : Int), rel a a' →
    rel { a with bound := a.bound.publish n } { a' with bound := a'.bound.publish n }
  enlist : ∀ {a a' : Arena} (i i' : Nat), rel a a' →
    rel { a with cohort := a.cohort.enlist i } { a' with cohort := a'.cohort.enlist i' }
  withdraw : ∀ {a a' : Arena} (i i' : Nat), rel a a' →
    rel { a with cohort := a.cohort.withdraw i } { a' with cohort := a'.cohort.withdraw i' }

theorem Arena.watchdog_info (a : Arena) (text : String) : (a.info text).watchdog = a.watchdog := by
  refine info_cases (p := fun b => b.watchdog = a.watchdog) rfl (fun text => ?_) text
  rw [emit_eq]

theorem Arena.Mirror.expire (M : Mirror) {a a' : Arena} (h : M.rel a a') :
    M.rel a.expire a'.expire :=
  M.timeout (M.info _ h)

/-! ## Conversations -/

namespace Session

theorem send?_relabel (x : Session) (id : Nat) (text : String) :
    ({ x with id } : Session).send? text = (x.send? text).map ({ · with id }) := by
  unfold send? killed
  split
  · rfl
  · split
    · split <;> rfl
    · rfl

theorem receive_relabel (x : Session) (id : Nat) :
    ({ x with id } : Session).receive = (x.receive.1, { x.receive.2 with id }) := by
  unfold receive killed
  split <;> rfl

end Session

/-! ## Stages -/

/-- Conversations in the same state, but for the label, whose surroundings agree. Both solvers are
registered, and the watchdogs agree unless they are not needed. -/
structure Stage.Alike (M : Arena.Mirror) (s s' : Stage) : Prop where
  arena : M.rel s.toArena s'.toArena
  session : s'.session = { s.session with id := s'.session.id }
  enlisted : s.session.id ∈ s.cohort.registered
  enlisted' : s'.session.id ∈ s'.cohort.registered
  waits : s.session.killed = true ∨ s'.watchdog = s.watchdog

namespace Stage.Alike

variable {M : Arena.Mirror} {s s' : Stage}

/-- Both solvers are killed, or none is. -/
theorem settle (harena : M.rel s.toArena s'.toArena)
    (hsession : s'.session = { s.session with id := s'.session.id })
    (hmem : s.session.id ∈ s.cohort.registered) (hmem' : s'.session.id ∈ s'.cohort.registered)
    (hwaits : s.cohort.cancelled = true ∨ s.session.killed = true ∨ s'.watchdog = s.watchdog) :
    s.settle.Alike M s'.settle := by
  have hsettle : ∀ {s : Stage}, s.session.id ∈ s.cohort.registered →
      s.settle = if s.cohort.cancelled then { s with session := s.session.kill } else s := by
    intro s hmem
    unfold Stage.settle
    rw [List.contains_iff_mem.mpr hmem, Bool.and_true]
  rw [hsettle hmem, hsettle hmem', M.cancelled harena]
  split
  · refine ⟨harena, ?_, hmem, hmem', .inl (Session.killed_kill _)⟩
    show s'.session.kill = { s.session.kill with id := s'.session.id }
    rw [hsession]
    rfl
  · next hcancelled => exact ⟨harena, hsession, hmem, hmem', hwaits.resolve_left hcancelled⟩

variable (h : s.Alike M s')

include h

theorem killed : s'.session.killed = s.session.killed := by
  rw [h.session]
  rfl

theorem echo : s'.session.echo = s.session.echo := by
  rw [h.session]

theorem depth : s'.session.depth = s.session.depth := by
  rw [h.session]

theorem process : s'.session.process = s.session.process := by
  rw [h.session]

/-- What is done to both conversations alike. -/
theorem update {f : Session → Session} (hf : ∀ (x : Session) (id : Nat),
    f { x with id } = { f x with id }) (hlater : ∀ x : Session, x.Later (f x)) :
    Alike M { s with session := f s.session } { s' with session := f s'.session } := by
  refine ⟨h.arena, ?_, ?_, ?_, h.waits.imp_left (hlater _).killed⟩
  · show f s'.session = { f s.session with id := (f s'.session).id }
    rw [(hlater _).id, h.session, hf]
  · show (f s.session).id ∈ s.cohort.registered
    rw [(hlater _).id]
    exact h.enlisted
  · show (f s'.session).id ∈ s'.cohort.registered
    rw [(hlater _).id]
    exact h.enlisted'

/-- What happens around both alike. -/
theorem around {f : Arena → Arena} (hf : M.rel (f s.toArena) (f s'.toArena))
    (hregistered : ∀ a, (f a).cohort.registered = a.cohort.registered)
    (hwatchdog : ∀ {a a' : Arena}, a'.watchdog = a.watchdog → (f a').watchdog = (f a).watchdog) :
    (s.around f).Alike M (s'.around f) := by
  refine settle hf h.session ?_ ?_ (.inr (h.waits.imp_right hwatchdog))
  · show s.session.id ∈ (f s.toArena).cohort.registered
    rw [hregistered]
    exact h.enlisted
  · show s'.session.id ∈ (f s'.toArena).cohort.registered
    rw [hregistered]
    exact h.enlisted'

theorem elapse : (s.around (·.elapse)).Alike M (s'.around (·.elapse)) :=
  h.around (M.elapse h.arena) Arena.registered_elapse fun h => by
    rwa [Arena.elapse_eq, Arena.elapse_eq]

theorem emit (text : String) : (s.around (·.emit text)).Alike M (s'.around (·.emit text)) :=
  h.around (M.emit text h.arena) (Arena.registered_emit · text) fun h => by
    rwa [Arena.emit_eq, Arena.emit_eq]

theorem info (text : String) : (s.around (·.info text)).Alike M (s'.around (·.info text)) :=
  h.around (M.info text h.arena) (Arena.registered_info · text) fun h => by
    rwa [Arena.watchdog_info, Arena.watchdog_info]

theorem expire : (s.around (·.expire)).Alike M (s'.around (·.expire)) :=
  h.around (M.expire h.arena) (fun a => a.registered_info _) fun _ => rfl

end Stage.Alike

/-! ## Steps -/

namespace Work

variable {α β : Type} {M : Arena.Mirror} {s s' : Stage}

/-- Two pieces of work on two stages have the same result and leave stages that are alike. -/
structure Agrees (M : Arena.Mirror) (s s' : Stage) (w w' : Work α) : Prop where
  result : (w'.start s').1 = (w.start s).1
  alike : (w.start s).2.Alike M (w'.start s').2

/-- The work goes the same way from all stages that are alike. -/
def Parallel (M : Arena.Mirror) (w : Work α) : Prop :=
  ∀ s s', s.Alike M s' → Agrees M s s' w w

theorem Agrees.bind {w w' : Work α} {f f' : α → Work β} (hw : Agrees M s s' w w')
    (hf : ∀ a t t', t.Alike M t' → Agrees M t t' (f a) (f' a)) :
    Agrees M s s' (w >>= f) (w' >>= f') := by
  obtain ⟨hresult, halike⟩ := hw
  rcases hs : w.start s with ⟨r, t⟩
  rcases hs' : w'.start s' with ⟨r', t'⟩
  rw [hs, hs'] at hresult halike
  obtain rfl : r' = r := hresult
  cases r' with
  | error e =>
    refine ⟨?_, ?_⟩
    · rw [start_bind, start_bind, hs, hs']
    · rw [start_bind, start_bind, hs, hs']
      exact halike
  | ok a =>
    have hnext := hf a t t' halike
    refine ⟨?_, ?_⟩
    · rw [start_bind, start_bind, hs, hs']
      exact hnext.result
    · rw [start_bind, start_bind, hs, hs']
      exact hnext.alike

theorem agrees_get {f f' : Stage → Work α} (h : Agrees M s s' (f s) (f' s')) :
    Agrees M s s' (get >>= f) (get >>= f') := by
  refine ⟨?_, ?_⟩
  · rw [start_bind, start_bind, start_get, start_get]
    exact h.result
  · rw [start_bind, start_bind, start_get, start_get]
    exact h.alike

theorem agrees_modify {f f' : Stage → Stage} (h : (f s).Alike M (f' s')) :
    Agrees M s s' (modify f) (modify f') :=
  ⟨rfl, h⟩

namespace Parallel

theorem bind {w : Work α} {f : α → Work β} (hw : w.Parallel M) (hf : ∀ a, (f a).Parallel M) :
    (w >>= f).Parallel M :=
  fun s s' h => (hw s s' h).bind hf

theorem pure (a : α) : (Pure.pure a : Work α).Parallel M :=
  fun _ _ h => ⟨rfl, h⟩

theorem throw (e : Fault) : (MonadExcept.throw e : Work α).Parallel M :=
  fun _ _ h => ⟨rfl, h⟩

/-- A change of the conversation that does not look at the label. -/
theorem update {f : Session → Session} (hf : ∀ (x : Session) (id : Nat),
    f { x with id } = { f x with id }) (hlater : ∀ x : Session, x.Later (f x)) :
    (modify fun s => { s with session := f s.session } : Work PUnit).Parallel M :=
  fun _ _ h => agrees_modify (h.update hf hlater)

/-- A question that stages that are alike answer alike. -/
theorem guarded {c : Stage → Prop} [DecidablePred c] {stop : Work PUnit} {w : Work α}
    (hc : ∀ s s', s.Alike M s' → (c s' ↔ c s)) (hstop : stop.Parallel M) (hw : w.Parallel M) :
    (guarded c stop w).Parallel M := by
  intro s s' h
  refine agrees_get ?_
  simp only [hc s s' h]
  split
  · exact hstop.bind (fun _ => hw) s s' h
  · exact hw s s' h

theorem emit (text : String) : (Work.emit text).Parallel M :=
  fun _ _ h => agrees_modify (h.emit text)

theorem info (text : String) : (Work.info text).Parallel M :=
  fun _ _ h => agrees_modify (h.info text)

theorem warn (text : String) : (Work.warn text).Parallel M :=
  emit _

theorem echo (text : String) : (Work.echo text).Parallel M := by
  refine bind (fun s s' h => agrees_modify h.elapse) fun _ s s' h => agrees_get ?_
  rw [h.echo]
  split
  · exact emit text s s' h
  · exact pure _ s s' h

theorem abort (reason : Abort) : (Work.abort reason : Work α).Parallel M := by
  intro s s' h
  refine agrees_get ?_
  rw [h.killed]
  refine bind (update (f := fun x => { x.kill with aborted := true }) (fun _ _ => rfl)
    fun x => x.later_kill.trans ⟨rfl, List.prefix_refl _, id⟩) (fun _ => ?_) s s' h
  split
  · exact (info _).bind fun _ => throw _
  · exact (warn _).bind fun _ => throw _

theorem unlessKilled {w : Work α} (hw : w.Parallel M) :
    (Work.guarded (·.session.killed = true) (Work.abort .killed) w).Parallel M :=
  guarded (fun _ _ h => by rw [h.killed]) (abort _) hw

theorem tell (text : String) : (Work.tell text).Parallel M := by
  refine (echo text).bind fun _ => ?_
  intro s s' h
  refine agrees_get ?_
  have hsend' : s'.session.send? text =
      (s.session.send? text).map ({ · with id := s'.session.id }) := by
    rw [← Session.send?_relabel, ← h.session]
  rw [hsend']
  cases hsend : s.session.send? text with
  | none => exact abort _ s s' h
  | some x =>
    have hlater := Session.later_send hsend
    have hmem : x.id ∈ s.cohort.registered := by
      rw [hlater.id]
      exact h.enlisted
    show Agrees M s s' (modify fun t => { t with session := x })
      (modify fun t => { t with session := { x with id := s'.session.id } })
    exact agrees_modify ⟨h.arena, rfl, hmem, h.enlisted', h.waits.imp_left hlater.killed⟩

theorem write (text : String) : (Work.write text).Parallel M := by
  rw [write_eq]
  exact unlessKilled (tell text)

theorem send (script : Except EncodingError Smt.Script) : (Work.send script).Parallel M := by
  cases script with
  | error e => exact throw _
  | ok cs => exact write _

theorem push : Work.push.Parallel M :=
  (write _).bind fun _ => update (f := fun x => { x with depth := x.depth + 1 }) (fun _ _ => rfl)
    fun _ => ⟨rfl, List.prefix_refl _, id⟩

theorem pop : Work.pop.Parallel M := by
  rw [pop_eq]
  refine guarded (fun _ _ h => by rw [h.depth]) (throw _) ((write _).bind fun _ => ?_)
  exact update (f := fun x => { x with depth := x.depth - 1 }) (fun _ _ => rfl)
    fun _ => ⟨rfl, List.prefix_refl _, id⟩

theorem receive : Work.receive.Parallel M := by
  intro s s' h
  have hreply : s'.session.receive.1 = s.session.receive.1 := by
    rw [h.session, Session.receive_relabel]
  have hnext : Stage.Alike M { s with session := s.session.receive.2 }
      { s' with session := s'.session.receive.2 } :=
    h.update (f := fun x => x.receive.2) (fun x id => by rw [Session.receive_relabel])
      fun x => x.later_receive
  have hheard : s.heard.Alike M s'.heard := hnext.elapse
  refine ⟨?_, ?_⟩
  · rw [start_receive, start_receive, hreply, hheard.killed]
    cases s.session.receive.1 with
    | line text => rfl
    | closed => rfl
    | silent =>
      dsimp only
      split
      · rfl
      · next hkilled =>
        rw [hheard.waits.resolve_left hkilled]
        split <;> rfl
  · rw [start_receive, start_receive, hreply, hheard.killed]
    cases s.session.receive.1 with
    | line text => exact hheard
    | closed => exact hheard
    | silent =>
      dsimp only
      split
      · exact hheard
      · next hkilled =>
        rw [hheard.waits.resolve_left hkilled]
        split
        · exact hheard.expire
        · exact hheard

theorem judge (required : Bool) (line : Option String) : (Work.judge required line).Parallel M := by
  cases line with
  | none => exact abort _
  | some line =>
    refine (echo _).bind fun _ => ?_
    split
    · exact pure _
    · split
      · exact pure _
      · split
        · exact abort _
        · exact pure _

theorem checkSat (required : Bool) : (Work.checkSat required).Parallel M := by
  rw [checkSat_eq]
  exact (write _).bind fun _ => receive.bind fun line => unlessKilled (judge required line)

end Parallel

end Work

/-! ## Labels -/

namespace Arena

/-- The surroundings with other labels, and another number of starts. -/
def relabel (a : Arena) (registered : List Nat) (started : Nat) : Arena :=
  { a with cohort := { a.cohort with registered }, started }

/-- The same but for labels. -/
def Alike (a a' : Arena) : Prop :=
  a' = a.relabel a'.cohort.registered a'.started

variable {a a' : Arena}

theorem alike_relabel (a : Arena) (registered : List Nat) (started : Nat) :
    a.Alike (a.relabel registered started) :=
  rfl

namespace Alike

/-- What does not look at labels keeps the surroundings alike. -/
theorem map (h : a.Alike a') {f : Arena → Arena}
    (hf : ∀ (a : Arena) (registered : List Nat) (started : Nat),
      f (a.relabel registered started) = (f a).relabel registered started) :
    (f a).Alike (f a') := by
  rw [h, hf]
  exact alike_relabel _ _ _

theorem log (h : a.Alike a') : a'.log = a.log := by
  rw [h]
  rfl

theorem emit (h : a.Alike a') (text : String) : (a.emit text).Alike (a'.emit text) := by
  refine h.map (f := (·.emit text)) fun a registered started => ?_
  rw [emit_eq, emit_eq]
  rfl

theorem info (h : a.Alike a') (text : String) : (a.info text).Alike (a'.info text) := by
  have hverbose : a'.verbose = a.verbose := by
    rw [h]
    rfl
  unfold Arena.info
  rw [hverbose]
  split
  · exact h.emit text
  · exact h

end Alike

/-- Surroundings that are the same but for labels. -/
def labels : Mirror where
  rel := Alike
  bound h := by
    rw [h]
    rfl
  cancelled h := by
    rw [h]
    rfl
  emit text h := h.emit text
  info text h := h.info text
  elapse h := by
    refine h.map (f := (·.elapse)) fun a registered started => ?_
    rw [elapse_eq, elapse_eq]
    rfl
  timeout h := h.map (f := fun a => { a with watchdog := .expired, cohort := a.cohort.cancel })
    fun _ _ _ => rfl
  publish n h := h.map (f := fun a => { a with bound := a.bound.publish n }) fun _ _ _ => rfl
  enlist {a a'} i i' h := by
    rw [h]
    exact alike_relabel { a with cohort := a.cohort.enlist i } _ _
  withdraw {a a'} i i' h := by
    rw [h]
    exact alike_relabel { a with cohort := a.cohort.withdraw i } _ _

end Arena

end PetriReach
