import PetriReach.Proofs.Solver.Transcript
import PetriReach.Proofs.Solver.Twins
import PetriReach.Proofs.Strategy.Moves

/-!
# Waiting

No strategy waits for ever while a time budget is watched. Where a solver stays silent, the budget
runs out, the cohort is called off, and the solver is killed. And every round of a strategy takes a
line from its solver, which has only so many of them.

* `Stage.Awake`: the silence of the solver would be noticed.
* `Work.Lasts`: work that does not get stuck if few lines are left.
* `Strategy.lasts_bmc`, `Strategy.lasts_induction` and their like: no strategy gets stuck.
-/

namespace PetriReach

namespace Session

theorem stock_send {x y : Session} {text : String} (h : x.send? text = some y) :
    y.process.stock ≤ x.process.stock := by
  rcases (Work.process_of_send h).2 with hsame | hfeed
  · exact Nat.le_of_eq (congrArg Process.stock hsame)
  · rw [hfeed]
    exact Process.stock_feed _ _

theorem stock_receive (x : Session) : x.receive.2.process.stock ≤ x.process.stock := by
  unfold receive
  split
  · exact Nat.le_refl _
  · show x.process.take.2.stock ≤ x.process.stock
    cases hpending : x.process.pending with
    | nil => simp [Process.take, hpending]
    | cons l rest => simp [Process.take, Process.stock, hpending]

end Session

namespace Stage

variable {s : Stage}

/-- The solver is killed, or a time budget is watched and will kill it. -/
def Awake (s : Stage) : Prop :=
  s.session.killed = true ∨ s.watchdog = .armed ∧ s.session.id ∈ s.cohort.registered

/-- The stage stays awake, and the lines that can be read do not become more. -/
structure Wanes (s s' : Stage) : Prop where
  awake : s.Awake → s'.Awake
  stock : s'.session.process.stock ≤ s.session.process.stock

theorem Awake.settle (h : s.Awake) : s.settle.Awake := by
  unfold Stage.settle
  split
  · exact .inl s.session.killed_kill
  · exact h

theorem Awake.emit (h : s.Awake) (text : String) : (s.around (·.emit text)).Awake := by
  refine Awake.settle (h.imp_right fun ⟨harmed, hmem⟩ => ?_)
  show (s.toArena.emit text).watchdog = .armed ∧
    s.session.id ∈ (s.toArena.emit text).cohort.registered
  rw [Arena.emit_eq]
  exact ⟨harmed, hmem⟩

theorem Awake.elapse (h : s.Awake) : (s.around (·.elapse)).Awake := by
  refine Awake.settle (h.imp_right fun ⟨harmed, hmem⟩ => ?_)
  show s.toArena.elapse.watchdog = .armed ∧ s.session.id ∈ s.toArena.elapse.cohort.registered
  rw [Arena.elapse_eq]
  exact ⟨harmed, hmem⟩

/-- A budget that runs out kills the solver. -/
theorem Awake.expire (h : s.Awake) : (s.around (·.expire)).Awake := by
  refine .inl ?_
  rcases h with hkilled | ⟨-, hmem⟩
  · exact (s.later_around _).killed hkilled
  · have hmem' : s.session.id ∈ (s.toArena.expire).cohort.registered := by
      show s.session.id ∈ (s.toArena.info _).cohort.registered
      rw [Arena.registered_info]
      exact hmem
    have hkills : (s.toArena.expire).cohort.cancelled = true ∧
        (s.toArena.expire).cohort.registered.contains s.session.id = true :=
      ⟨rfl, List.contains_iff_mem.mpr hmem'⟩
    unfold around Stage.settle
    dsimp only
    rw [hkills.1, hkills.2]
    exact s.session.killed_kill

theorem Awake.later {x : Session} (h : s.Awake) (hx : s.session.Later x) :
    Awake { s with session := x } :=
  h.imp hx.killed fun ⟨harmed, hmem⟩ => ⟨harmed, hx.id.symm ▸ hmem⟩

theorem exchange_wanes : Exchange Wanes where
  refl _ := ⟨id, Nat.le_refl _⟩
  trans h h' := ⟨h'.awake ∘ h.awake, Nat.le_trans h'.stock h.stock⟩
  settle s := ⟨Awake.settle, Nat.le_of_eq (congrArg Process.stock s.settle_process)⟩
  elapse s := ⟨Awake.elapse, Nat.le_of_eq (congrArg Process.stock (Work.around_process _ s))⟩
  emit s text :=
    ⟨fun h => h.emit text, Nat.le_of_eq (congrArg Process.stock (Work.around_process _ s))⟩
  expire s := ⟨Awake.expire, Nat.le_of_eq (congrArg Process.stock (Work.around_process _ s))⟩
  kill s := ⟨fun h => h.later s.session.later_kill, Nat.le_refl _⟩
  tell _ _ _ h := ⟨fun hs => hs.later (Session.later_send h), Session.stock_send h⟩
  hear s := ⟨fun h => h.later s.session.later_receive, s.session.stock_receive⟩

end Stage

/-! ## Steps -/

namespace Work

variable {α β : Type} {w : Work α} {f : α → Work β} {n : Nat}

/-- The work does not get stuck on a stage that is awake, if fewer than `n` lines can be read. -/
def Lasts (n : Nat) (w : Work α) : Prop :=
  ∀ s : Stage, s.Awake → s.session.process.stock < n → (w.start s).1 ≠ .error .stuck

/-- The work never gets stuck, and the stage stays awake. -/
structure Steady (w : Work α) : Prop where
  wanes : w.Moves Stage.Wanes
  throws : w.Throws fun e _ => e ≠ .stuck

theorem Steady.lasts (h : w.Steady) (n : Nat) : w.Lasts n :=
  fun s _ _ hstuck => h.throws s .stuck _ (Prod.ext hstuck rfl) rfl

theorem Steady.bind (h : w.Steady) (hf : ∀ a, (f a).Steady) : (w >>= f).Steady :=
  ⟨Stage.exchange_wanes.bind h.wanes fun a => (hf a).wanes,
    throws_bind h.throws fun a => (hf a).throws⟩

theorem Lasts.bind (h : w.Lasts n) (hf : ∀ s a s', s.Awake → s.session.process.stock < n →
    w.start s = (.ok a, s') → ((f a).start s').1 ≠ .error .stuck) : (w >>= f).Lasts n := by
  intro s hs hstock
  have hlasts := h s hs hstock
  rw [start_bind]
  split
  · next a s' ha => exact hf s a s' hs hstock ha
  · next e s' he =>
    rw [he] at hlasts
    exact fun hstuck => hlasts (congrArg _ (Except.error.inj hstuck))

theorem Steady.lasts_bind (h : w.Steady) (hf : ∀ a, (f a).Lasts n) : (w >>= f).Lasts n := by
  refine (h.lasts n).bind fun s a s' hs hstock ha => ?_
  have hwanes := h.wanes.yields a s' ha
  exact hf a s' (hwanes.awake hs) (Nat.lt_of_le_of_lt hwanes.stock hstock)

theorem steady_pure (a : α) : (pure a : Work α).Steady :=
  ⟨Stage.exchange_wanes.pure a, throws_pure a⟩

theorem steady_get : (get : Work Stage).Steady :=
  ⟨Stage.exchange_wanes.get, throws_get⟩

theorem steady_info (text : String) : (info text).Steady :=
  ⟨Stage.exchange_wanes.info text, throws_modify _⟩

theorem steady_modify {g : Stage → Stage} (h : ∀ s : Stage, s.Wanes (g s)) :
    (modify g : Work PUnit).Steady :=
  ⟨h, throws_modify g⟩

theorem steady_write (text : String) : (write text).Steady :=
  ⟨Stage.exchange_wanes.write text, throws_write (fun _ _ _ => Fault.noConfusion) text⟩

theorem steady_send (script : Except EncodingError Smt.Script) : (send script).Steady := by
  cases script with
  | error e => exact ⟨Stage.exchange_wanes.throw _, throws_throw fun _ => Fault.noConfusion⟩
  | ok cs => exact steady_write _

theorem steady_push : push.Steady :=
  (steady_write _).bind fun _ => steady_modify fun _ => ⟨id, Nat.le_refl _⟩

theorem steady_pop : pop.Steady := by
  have hclose : close.Steady :=
    (steady_write _).bind fun _ => steady_modify fun _ => ⟨id, Nat.le_refl _⟩
  rw [pop_eq]
  exact ⟨Stage.exchange_wanes.guarded (Stage.exchange_wanes.throw _) hclose.wanes,
    throws_guarded (throws_throw fun _ => Fault.noConfusion) hclose.throws⟩

/-- Reading is held up on a stage that is not awake only. -/
theorem lasts_receive (n : Nat) : receive.Lasts n := by
  intro s hs _
  rw [start_receive]
  cases hreply : s.session.receive.1 with
  | line text => simp
  | closed => simp
  | silent =>
    have hawake : s.heard.Awake := Stage.Awake.elapse (hs.later s.session.later_receive)
    dsimp only
    split
    · simp
    · next halive =>
      rw [if_pos (hawake.resolve_left halive).1]
      simp

theorem lasts_checkSat (required : Bool) (n : Nat) : (checkSat required).Lasts n := by
  rw [checkSat_eq]
  refine (steady_write _).lasts_bind fun _ => (lasts_receive n).bind fun s line s' _ _ _ => ?_
  exact (ends_judge required line s').2.1

/-- **A test takes a line.** -/
theorem lasts_test {f : Answer → Work β} (required : Bool) (hf : ∀ w, (f w).Lasts n) :
    (checkSat required >>= f).Lasts (n + 1) := by
  refine (lasts_checkSat required (n + 1)).bind fun s w s' hs hstock hw => ?_
  have hwanes := (Stage.exchange_wanes.checkSat required).yields w s' hw
  have hends := ends_checkSat required s
  unfold Ends at hends
  rw [hw] at hends
  have hfewer : s'.session.process.stock + 1 ≤ s.session.process.stock := (hends.2.2 w rfl).2
  exact hf w s' (hwanes.awake hs) (by omega)

end Work

/-! ## Strategies -/

namespace Strategy

open Work

variable (e : Encoder) (n : Nat)

theorem steady_report (m : Method) (text : String) : (report m text).Steady :=
  steady_info _

theorem lasts_stateEquation : (stateEquation e).Lasts (n + 1) := by
  refine (steady_send _).lasts_bind fun _ => (steady_send _).lasts_bind fun _ =>
    (steady_send _).lasts_bind fun _ => (steady_send _).lasts_bind fun _ =>
    lasts_test false fun w => ?_
  split <;> exact (steady_pure _).lasts n

theorem lasts_inductionStep : (inductionStep e).Lasts (n + 1) := by
  refine (steady_send _).lasts_bind fun _ => (steady_send _).lasts_bind fun _ =>
    (steady_send _).lasts_bind fun _ => (steady_send _).lasts_bind fun _ =>
    lasts_test false fun w => ?_
  split <;> exact (steady_pure _).lasts n

theorem lasts_inductionNext (w : Answer) : (inductionNext e w).Lasts (n + 1) := by
  unfold inductionNext
  split
  · exact (steady_pure _).lasts _
  · refine steady_pop.lasts_bind fun _ => steady_get.lasts_bind fun s => ?_
    split
    · exact (steady_pure _).lasts _
    · exact lasts_inductionStep e n

theorem lasts_induction : (induction e).Lasts (n + 2) := by
  rw [induction_eq]
  exact (steady_send _).lasts_bind fun _ => steady_push.lasts_bind fun _ =>
    (steady_send _).lasts_bind fun _ => (steady_send _).lasts_bind fun _ =>
    lasts_test true fun w => lasts_inductionNext e n w

theorem lasts_bmcNext (heedsBound : Bool) {fuel : Nat}
    (hrec : ∀ k, (bmcFrom e heedsBound fuel k).Lasts fuel) (k : Nat) (w : Answer) :
    (bmcNext e heedsBound fuel k w).Lasts fuel := by
  have hrest : (bmcNext e heedsBound fuel k .unsat).Lasts fuel := by
    refine steady_get.lasts_bind fun s => ?_
    split
    · exact (steady_report _ _).lasts_bind fun _ => (steady_pure _).lasts _
    · refine steady_get.lasts_bind fun s => ?_
      split
      · exact (steady_pure _).lasts _
      · exact steady_pop.lasts_bind fun _ => (steady_send _).lasts_bind fun _ =>
          (steady_send _).lasts_bind fun _ => steady_push.lasts_bind fun _ =>
          (steady_send _).lasts_bind fun _ => hrec (k + 1)
  cases w with
  | sat =>
    have hwitness : ∀ s : Stage, s.Wanes { s with witness := some k } :=
      fun _ => ⟨id, Nat.le_refl _⟩
    exact (steady_report _ _).lasts_bind fun _ => (steady_modify hwitness).lasts_bind fun _ =>
      (steady_pure _).lasts _
  | unsat => exact hrest
  | unknown => exact hrest

theorem lasts_bmcFrom (heedsBound : Bool) (fuel k : Nat) :
    (bmcFrom e heedsBound fuel k).Lasts fuel := by
  induction fuel generalizing k with
  | zero => exact fun s _ hstock => absurd hstock (Nat.not_lt_zero _)
  | succ fuel ih =>
    rw [bmcFrom_succ]
    exact (steady_report _ _).lasts_bind fun _ =>
      lasts_test true fun w => lasts_bmcNext e heedsBound ih k w

/-- The rounds are as many as the lines, so they do not run out. -/
theorem lasts_rounds {rounds : Nat → Work (Option Verdict)} (h : ∀ m, (rounds m).Lasts m) :
    (do rounds ((← get).session.process.supply + 1)).Lasts n := by
  intro s hs _
  rw [start_bind, start_get]
  exact h _ s hs (Nat.lt_succ_of_le (Process.stock_le_supply _))

theorem lasts_bmc (heedsBound : Bool) : (bmc e heedsBound).Lasts n := by
  have hwitness : ∀ s : Stage, s.Wanes { s with witness := none } := fun _ => ⟨id, Nat.le_refl _⟩
  exact (steady_modify hwitness).lasts_bind fun _ => (steady_send _).lasts_bind fun _ =>
    (steady_send _).lasts_bind fun _ => steady_push.lasts_bind fun _ =>
    (steady_send _).lasts_bind fun _ => lasts_rounds n fun m => lasts_bmcFrom e heedsBound m 0

theorem lasts_kNext {fuel : Nat} (hrec : ∀ k, (kInductionFrom e fuel k).Lasts fuel) (k : Nat)
    (w : Answer) : (kNext e fuel k w).Lasts fuel := by
  unfold kNext
  split
  · have hpublish : ∀ s : Stage, s.Wanes { s with bound := s.bound.publish k } :=
      fun _ => ⟨id, Nat.le_refl _⟩
    exact (steady_report _ _).lasts_bind fun _ => (steady_modify hpublish).lasts_bind fun _ =>
      (steady_pure _).lasts _
  · exact steady_pop.lasts_bind fun _ => (steady_send _).lasts_bind fun _ =>
      (steady_send _).lasts_bind fun _ => (steady_send _).lasts_bind fun _ => hrec (k + 1)

theorem lasts_kInductionFrom (fuel k : Nat) : (kInductionFrom e fuel k).Lasts fuel := by
  induction fuel generalizing k with
  | zero => exact fun s _ hstock => absurd hstock (Nat.not_lt_zero _)
  | succ fuel ih =>
    rw [kInductionFrom_succ]
    refine steady_get.lasts_bind fun s => ?_
    split
    · exact (steady_pure _).lasts _
    · exact (steady_report _ _).lasts_bind fun _ => steady_push.lasts_bind fun _ =>
        (steady_send _).lasts_bind fun _ => lasts_test true fun w => lasts_kNext e ih k w

theorem lasts_kInduction : (kInduction e).Lasts n :=
  (steady_send _).lasts_bind fun _ => lasts_rounds n fun m => lasts_kInductionFrom e m 0

end Strategy

end PetriReach
