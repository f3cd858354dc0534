import PetriReach.Proofs.Solver.Steps

/-!
# Transcripts

What a solver is told in any case, whether or not the work succeeds. A step tells it one text or
nothing, and what stands before a test was told by the steps before. Every test that is answered
takes a line from the process, so the lines that are left bound the tests to come.

* `Process.stock`: the lines that can still be read.
* `Work.moves_write`, `Work.ends_checkSat`: what a step tells the process.
* `Work.Posed`: every test stands behind the script of its number.
* `Work.Told`: the script that was told so far.
* `Work.Told.send`, `Work.Told.checkSat`: a script is told, a test is posed.
-/

namespace PetriReach

open Smt

/-! ## Lines that can be read -/

namespace Process

/-- How many lines can still be read: those that wait, and those of the script while the output is
open. -/
def stock (p : Process) : Nat :=
  p.pending.length + if p.closed then 0 else p.script.lines.length

theorem stock_le_supply (p : Process) : p.stock ≤ p.supply := by
  unfold stock supply
  split
  · omega
  · omega

theorem stock_answer (p : Process) : p.answer.stock ≤ p.stock := by
  unfold answer
  by_cases hclosed : p.closed = true
  · exact Nat.le_of_eq (congrArg stock (if_pos hclosed))
  · rw [if_neg hclosed]
    split
    · next a rest hanswers =>
      simp only [stock, Backend.lines, hanswers, hclosed, List.length_append, List.flatMap_cons]
      split <;> simp <;> omega
    · next hanswers =>
      split
      · exact Nat.le_refl _
      · simp [stock, Backend.lines, hanswers, hclosed]

theorem stock_foldl_hear (ls : List (List Char)) (p : Process) :
    (ls.foldl hear p).stock ≤ p.stock := by
  induction ls generalizing p with
  | nil => exact Nat.le_refl _
  | cons l ls ih =>
    have hhear : (p.hear l).stock ≤ p.stock := by
      unfold hear
      split
      · exact p.stock_answer
      · exact Nat.le_refl _
    rw [List.foldl_cons]
    exact Nat.le_trans (ih _) hhear

/-- No text adds to the lines. -/
theorem stock_feed (p : Process) (text : String) : (p.feed text).stock ≤ p.stock := by
  unfold feed
  exact stock_foldl_hear _ _

/-- A line that is read is gone. -/
theorem stock_take {p : Process} {l : String} (h : p.take.1 = .line l) :
    p.take.2.stock + 1 = p.stock := by
  unfold take at h ⊢
  split
  · next hpending =>
    simp only [stock, hpending, List.length_cons]
    omega
  · next hpending =>
    rw [hpending] at h
    dsimp only at h
    split at h <;> cases h

/-- Where no line comes, nothing changes. -/
theorem take_silent {p : Process} (h : p.take.1 = .silent) : p.take.2 = p := by
  unfold take at h ⊢
  split at h
  · cases h
  · rfl

end Process

/-! ## What is left alone -/

/-- Neither the process nor the number of open scopes has changed. -/
structure Stage.Still (s s' : Stage) : Prop where
  process : s'.session.process = s.session.process
  depth : s'.session.depth = s.session.depth

namespace Stage

theorem settle_still (s : Stage) : s.Still s.settle := by
  refine ⟨s.settle_process, ?_⟩
  unfold settle
  split <;> rfl

theorem around_still (s : Stage) (f : Arena → Arena) : s.Still (s.around f) :=
  ⟨Work.around_process f s, (settle_still { s with toArena := f s.toArena }).depth⟩

theorem lull_still : Lull Still where
  refl _ := ⟨rfl, rfl⟩
  trans h h' := ⟨h'.process.trans h.process, h'.depth.trans h.depth⟩
  settle := settle_still
  elapse s := s.around_still _
  emit s _ := s.around_still _
  expire s := s.around_still _
  kill _ := ⟨rfl, rfl⟩

theorem aborted_settle (s : Stage) : s.settle.session.aborted = s.session.aborted := by
  unfold settle
  split <;> rfl

/-- A conversation that was broken off stays so. -/
theorem lull_aborted :
    Lull fun s s' => s.session.aborted = true → s'.session.aborted = true where
  refl _ h := h
  trans h h' := h' ∘ h
  settle s h := s.aborted_settle.trans h
  elapse s h := (aborted_settle { s with toArena := s.toArena.elapse }).trans h
  emit s _ h := (aborted_settle { s with toArena := s.toArena.emit _ }).trans h
  expire s h := (aborted_settle { s with toArena := s.toArena.expire }).trans h
  kill _ _ := rfl

end Stage

namespace Work

variable {α β : Type} {s : Stage}

/-! ## Faults -/

/-- Work that is stopped is stopped by a fault, and leaves a stage, as described. -/
def Throws (F : Fault → Stage → Prop) (w : Work α) : Prop :=
  ∀ s e s', w.start s = (.error e, s') → F e s'

section Throws

variable {F : Fault → Stage → Prop}

theorem throws_bind {w : Work α} {f : α → Work β} (hw : w.Throws F) (hf : ∀ a, (f a).Throws F) :
    (w >>= f).Throws F := by
  intro s e s'' he
  rw [start_bind] at he
  split at he
  · exact hf _ _ e s'' he
  · next e' s' hs =>
    cases he
    exact hw s e s'' hs

theorem throws_pure (a : α) : (pure a : Work α).Throws F := by
  rintro s e s' ⟨⟩

theorem throws_get : (get : Work Stage).Throws F := by
  rintro s e s' ⟨⟩

theorem throws_modify (f : Stage → Stage) : (modify f : Work PUnit).Throws F := by
  rintro s e s' ⟨⟩

theorem throws_throw {e : Fault} (h : ∀ s, F e s) : (throw e : Work α).Throws F := by
  rintro s e' s' ⟨⟩
  exact h s

theorem throws_guarded {c : Stage → Prop} [DecidablePred c] {stop : Work PUnit} {w : Work α}
    (hstop : stop.Throws F) (hw : w.Throws F) : (guarded c stop w).Throws F := by
  refine throws_bind throws_get fun s => ?_
  split
  · exact throws_bind hstop fun _ => hw
  · exact hw

theorem throws_echo (text : String) : (echo text).Throws F := by
  refine throws_bind (throws_modify _) fun _ => throws_bind throws_get fun s => ?_
  split
  · exact throws_modify _
  · exact throws_pure _

theorem throws_receive (hstuck : ∀ s, F .stuck s) : receive.Throws F := by
  intro s e s' he
  rw [start_receive] at he
  split at he
  · cases he
  · cases he
  · split at he
    · cases he
    · split at he
      · cases he
      · cases he
        exact hstuck _

variable (hF : ∀ reason {s : Stage}, s.session.aborted = true → F (.aborted reason) s)

include hF

theorem throws_abort (reason : Abort) : (abort reason : Work α).Throws F := by
  intro s e s' he
  -- What is written of the end leaves the flag up.
  have hflag := fun t (ht : t.session.aborted = true) =>
    And.intro (Stage.lull_aborted.info ("solver aborted: " ++ reason.wording) t ht)
      (Stage.lull_aborted.warn ("solver aborted: " ++ reason.wording) t ht)
  unfold abort at he
  rw [start_bind, start_get] at he
  dsimp only at he
  rw [start_bind, start_modify] at he
  dsimp only at he
  split at he
  · cases he
    exact hF reason (hflag _ rfl).1
  · cases he
    exact hF reason (hflag _ rfl).2

theorem throws_write (text : String) : (write text).Throws F := by
  rw [write_eq]
  refine throws_guarded (throws_abort hF _) (throws_bind (throws_echo text) fun _ => ?_)
  refine throws_bind throws_get fun s => ?_
  split
  · exact throws_abort hF _
  · exact throws_modify _

theorem throws_judge (required : Bool) (line : Option String) :
    (judge required line).Throws F := by
  cases line with
  | none => exact throws_abort hF _
  | some line =>
    refine throws_bind (throws_echo _) fun _ => ?_
    split
    · exact throws_pure _
    · split
      · exact throws_pure _
      · split
        · exact throws_abort hF _
        · exact throws_pure _

theorem throws_checkSat (hstuck : ∀ s, F .stuck s) (required : Bool) :
    (checkSat required).Throws F := by
  rw [checkSat_eq]
  refine throws_bind (throws_write hF _) fun _ => throws_bind (throws_receive hstuck) fun line => ?_
  exact throws_guarded (throws_abort hF _) (throws_judge hF required line)

end Throws

/-! ## What a step tells the process -/

/-- The process has heard the text or nothing; a killed one has heard nothing. -/
structure Hears (text : String) (s s' : Stage) : Prop where
  depth : s'.session.depth = s.session.depth
  process : s'.session.process = s.session.process ∨
    s.session.killed = false ∧ s'.session.process = s.session.process.feed text

/-- Work that may fail, followed by more, where its failure is known. -/
theorem ends_step {T : Except Fault β → Stage → Prop} {w : Work α} {f : α → Work β}
    (hfail : ∀ e s', w.start s = (.error e, s') → T (.error e) s')
    (h : w.Yields s fun a s' => (f a).Ends s' T) : (w >>= f).Ends s T := by
  unfold Ends
  rw [start_bind]
  split
  · next a s' ha => exact h a s' ha
  · next e s' he => exact hfail e s' he

theorem Ends.mono {w : Work α} {T T' : Except Fault α → Stage → Prop} (h : w.Ends s T)
    (hT : ∀ r s', T r s' → T' r s') : w.Ends s T' :=
  hT _ _ h

theorem process_of_send {x y : Session} {text : String} (h : x.send? text = some y) :
    y.depth = x.depth ∧ (y.process = x.process ∨ y.process = x.process.feed text) := by
  unfold Session.send? at h
  split at h
  · cases h
    exact ⟨rfl, .inl rfl⟩
  · split at h
    · split at h
      · cases h
        exact ⟨rfl, .inl rfl⟩
      · cases h
    · cases h
      exact ⟨rfl, .inr rfl⟩

/-- **Writing tells the process the text or nothing.** -/
theorem moves_write (text : String) : (write text).Moves (Hears text) := by
  intro s
  rw [write_eq]
  show (guarded _ _ (tell text)).Ends s fun _ s' => Hears text s s'
  refine ends_bind (does_get ?_)
  by_cases hkilled : s.session.killed = true
  · rw [if_pos hkilled]
    refine ends_step (fun e s' he => ?_) (yields_abort _)
    have hstill := Stage.lull_still.abort (α := PUnit) .killed s
    rw [he] at hstill
    exact ⟨hstill.depth, .inl hstill.process⟩
  · rw [if_neg hkilled]
    have halive : s.session.killed = false := Bool.eq_false_iff.mpr hkilled
    have hecho := Stage.lull_still.echo text s
    refine ends_step (fun e s₁ h₁ => ?_) fun _ s₁ h₁ => ends_bind (does_get ?_)
    · rw [h₁] at hecho
      exact ⟨hecho.depth, .inl hecho.process⟩
    · rw [h₁] at hecho
      split
      · have hstill := Stage.lull_still.trans hecho
          (Stage.lull_still.abort (α := Unit) .brokenPipe s₁)
        exact ⟨hstill.depth, .inl hstill.process⟩
      · next x hx =>
        obtain ⟨hdepth, hprocess⟩ := process_of_send hx
        refine ⟨hdepth.trans hecho.depth, ?_⟩
        rw [hecho.process] at hprocess
        exact hprocess.imp_right fun hfeed => ⟨halive, hfeed⟩

/-- The process has heard a test or nothing; a killed one has heard nothing. -/
structure Asks (s s' : Stage) : Prop where
  depth : s'.session.depth = s.session.depth
  sent : s'.sent = s.sent ∨ s.session.killed = false ∧ s'.sent = s.sent ++ [ask]

theorem Hears.sent {text : String} {s' : Stage} (h : Hears text s s') :
    s'.sent = s.sent ∨ s.session.killed = false ∧ s'.sent = s.sent ++ [text] := by
  refine h.process.imp (fun hsame => ?_) fun ⟨halive, hfeed⟩ => ⟨halive, ?_⟩
  · rw [Stage.sent, hsame, Stage.sent]
  · rw [Stage.sent, hfeed, Process.received_feed, Stage.sent]

theorem Hears.stock {text : String} {s' : Stage} (h : Hears text s s') :
    s'.session.process.stock ≤ s.session.process.stock := by
  rcases h.process with hsame | ⟨-, hfeed⟩
  · exact Nat.le_of_eq (congrArg Process.stock hsame)
  · rw [hfeed]
    exact Process.stock_feed _ _

theorem depth_receive (x : Session) : x.receive.2.depth = x.depth := by
  unfold Session.receive
  split <;> rfl

theorem received_receive (x : Session) : x.receive.2.process.received = x.process.received := by
  unfold Session.receive
  split
  · rfl
  · exact x.process.received_take

/-- A killed solver keeps nobody waiting. -/
theorem receive_ne_silent {x : Session} (h : x.killed = true) : x.receive.1 ≠ .silent := by
  unfold Session.receive
  split
  · simp
  · dsimp only
    split
    · simp
    · next hreply => simpa [h] using hreply

/-- What reading does in any case: only a solver that is not killed keeps one waiting in vain, and a
line that comes is taken away. -/
theorem ends_receive (s : Stage) : receive.Ends s fun r s' =>
    s'.session.depth = s.session.depth ∧ s'.sent = s.sent ∧
      (∀ e, r = .error e → s.session.killed = false) ∧
      (∀ l, r = .ok (some l) → s'.session.process.stock + 1 ≤ s.session.process.stock) := by
  have hheard := Stage.around_still { s with session := s.session.receive.2 } (·.elapse)
  have hdepth : s.heard.session.depth = s.session.depth :=
    hheard.depth.trans (depth_receive s.session)
  have hsent : s.heard.sent = s.sent :=
    (congrArg Process.received hheard.process).trans (received_receive s.session)
  unfold Ends
  rw [start_receive]
  cases hreply : s.session.receive.1 with
  | line l =>
    obtain ⟨htake, hprocess⟩ := Session.take_of_receive hreply
    refine ⟨hdepth, hsent, by simp, fun _ _ => Nat.le_of_eq ?_⟩
    have hleft : s.heard.session.process = s.session.process.take.2 := hheard.process.trans hprocess
    rw [hleft]
    exact Process.stock_take htake
  | closed => exact ⟨hdepth, hsent, by simp, by simp⟩
  | silent =>
    have halive : s.session.killed = false :=
      Bool.eq_false_iff.mpr fun hkilled => receive_ne_silent hkilled hreply
    dsimp only
    split
    · exact ⟨hdepth, hsent, by simp, by simp⟩
    · split
      · have hstill := s.heard.around_still (·.expire)
        refine ⟨hstill.depth.trans hdepth, ?_, by simp, by simp⟩
        rw [Stage.sent, hstill.process]
        exact hsent
      · exact ⟨hdepth, hsent, fun _ _ => halive, by simp⟩

/-- What becomes of a line that was read, in any case. -/
theorem ends_judge (required : Bool) (line : Option String) (s : Stage) :
    (guarded (·.session.killed = true) (abort .killed) (judge required line)).Ends s fun r s' =>
      s.Still s' ∧ r ≠ .error .stuck ∧
        ∀ w, r = .ok w → s.session.killed = false ∧ ∃ l, line = some l := by
  refine ⟨?_, fun hstuck => ?_, fun w hw => ?_⟩
  · exact Stage.lull_still.guarded (Stage.lull_still.abort .killed)
      (Stage.lull_still.judge required line) s
  · have hthrows : (guarded (·.session.killed = true) (abort .killed)
        (judge required line)).Throws fun e _ => e ≠ .stuck :=
      throws_guarded (throws_abort (by simp) _) (throws_judge (by simp) _ _)
    exact hthrows s .stuck _ (Prod.ext hstuck rfl) rfl
  · have hyields : (guarded (·.session.killed = true) (abort .killed)
        (judge required line)).Yields s fun _ _ => s.session.killed = false ∧
          ∃ l, line = some l := by
      refine yields_guarded (yields_abort _) fun halive => (yields_judge required line s).mono ?_
      rintro w s' ⟨l, hl, -⟩
      exact ⟨Bool.eq_false_iff.mpr halive, l, hl⟩
    exact hyields w _ (Prod.ext hw rfl)

/-- **What a test does in any case.** One that is answered, or waits in vain, was heard; one that is
answered takes a line. -/
theorem ends_checkSat (required : Bool) (s : Stage) : (checkSat required).Ends s fun r s' =>
    Asks s s' ∧ (r = .error .stuck → s'.sent = s.sent ++ [ask]) ∧
      ∀ w, r = .ok w → s'.sent = s.sent ++ [ask] ∧
        s'.session.process.stock + 1 ≤ s.session.process.stock := by
  rw [checkSat_eq]
  have hhears := moves_write ask s
  refine ends_step (w := write ask) (fun e s₁ h₁ => ?_) fun _ s₁ h₁ => ?_
  · rw [h₁] at hhears
    refine ⟨⟨hhears.depth, hhears.sent⟩, fun hstuck => ?_, by simp⟩
    exact absurd (Except.error.inj hstuck)
      (throws_write (F := fun e _ => e ≠ .stuck) (by simp) ask s e s₁ h₁)
  · have htells := yields_write ask s _ _ h₁
    rw [h₁] at hhears
    -- a process that is not killed by now has heard the test
    have hheard : s₁.session.killed = false → s₁.sent = s.sent ++ [ask] := by
      intro halive
      rcases htells with hkilled | ⟨hfeed, -⟩ | ⟨-, hempty⟩
      · rw [halive] at hkilled
        cases hkilled
      · rw [Stage.sent, hfeed, Process.received_feed, Stage.sent]
      · exact absurd hempty (by decide)
    have hreceive := ends_receive s₁
    unfold Ends at hreceive
    refine ends_step (fun e s₂ h₂ => ?_) fun line s₂ h₂ => ?_
    · rw [h₂] at hreceive
      obtain ⟨hdepth, hsent, hfault, -⟩ := hreceive
      refine ⟨⟨hdepth.trans hhears.depth, ?_⟩, fun _ => ?_, by simp⟩
      · rw [hsent]
        exact hhears.sent
      · rw [hsent]
        exact hheard (hfault e rfl)
    · have hlater := (Stage.course_later.receive).yields (s := s₁) _ _ h₂
      rw [h₂] at hreceive
      obtain ⟨hdepth, hsent, -, hline⟩ := hreceive
      refine (ends_judge required line s₂).mono ?_
      rintro r s' ⟨hstill, hstuck, hok⟩
      have hsent' : s'.sent = s₁.sent := by
        rw [Stage.sent, hstill.process, ← Stage.sent, hsent]
      refine ⟨⟨?_, ?_⟩, fun h => absurd h hstuck, fun w hw => ?_⟩
      · exact (hstill.depth.trans hdepth).trans hhears.depth
      · rw [hsent']
        exact hhears.sent
      · obtain ⟨halive, l, rfl⟩ := hok w hw
        have halive₁ : s₁.session.killed = false := by
          rw [Bool.eq_false_iff]
          intro hkilled
          rw [hlater.killed hkilled] at halive
          cases halive
        rw [hsent', hstill.process]
        exact ⟨hheard halive₁, Nat.le_trans (hline l rfl) hhears.stock⟩

/-! ## Scripts before tests -/

/-- Every test that was put stands behind the script of its number. -/
def Posed (T : Nat → Option Script) (sent : List String) : Prop :=
  ∀ before, before ++ [ask] <+: sent →
    (T (before.count ask)).map Script.render = some (String.join before)

theorem posed_nil (T : Nat → Option Script) : Posed T [] := by
  intro before h
  simpa using h.length_le

/-- What is told between the tests does not matter to those that were put. -/
theorem Posed.concat {T : Nat → Option Script} {sent : List String} (h : Posed T sent)
    {text : String} (htext : text ≠ ask) : Posed T (sent ++ [text]) := by
  intro before hpre
  rcases List.prefix_concat_iff.mp hpre with heq | hpre
  · have hlast : ask = text := by simpa using congrArg List.getLast? heq
    exact absurd hlast.symm htext
  · exact h before hpre

/-- One more test. -/
theorem Posed.test {T : Nat → Option Script} {sent : List String} (h : Posed T sent)
    (hnow : (T (sent.count ask)).map Script.render = some (String.join sent)) :
    Posed T (sent ++ [ask]) := by
  intro before hpre
  rcases List.prefix_concat_iff.mp hpre with heq | hpre
  · rw [List.append_cancel_right heq]
    exact hnow
  · exact h before hpre

/-- So far the tests were posed as `T` says. `k` tests were put, the solver was told `cs`, unless it
was killed, has `depth` open scopes, and fewer than `fuel` lines can be read from it. -/
structure Told (T : Nat → Option Script) (s : Stage) (k : Nat) (cs : Script) (depth fuel : Nat) :
    Prop where
  posed : Posed T s.sent
  depth : s.session.depth = depth
  stock : s.session.process.stock < fuel
  now : s.session.killed = true ∨ String.join s.sent = Script.render cs ∧ s.sent.count ask = k

/-- How work on tests may fail: they were posed as `T` says, and if it waits in vain, it does so at
a test, with as many open scopes as `D` says. -/
def Fails (T : Nat → Option Script) (D : Nat → Nat) (e : Fault) (s : Stage) : Prop :=
  Posed T s.sent ∧ (e = .stuck → ∃ k, s.sent.count ask = k + 1 ∧ s.session.depth = D k)

/-- Work on tests that leaves `Q` if it succeeds, and else fails as it may. -/
def Keeps (T : Nat → Option Script) (D : Nat → Nat) (w : Work α) (s : Stage)
    (Q : α → Stage → Prop) : Prop :=
  w.Yields s Q ∧ ∀ e s', w.start s = (.error e, s') → Fails T D e s'

section Told

variable {T : Nat → Option Script} {D : Nat → Nat} {k depth fuel : Nat} {cs ds : Script}

theorem Keeps.mono {w : Work α} {Q Q' : α → Stage → Prop} (h : Keeps T D w s Q)
    (hQ : ∀ a s', Q a s' → Q' a s') : Keeps T D w s Q' :=
  ⟨h.1.mono hQ, h.2⟩

theorem keeps_bind {w : Work α} {f : α → Work β} {Q : β → Stage → Prop}
    (h : Keeps T D w s fun a s' => Keeps T D (f a) s' Q) : Keeps T D (w >>= f) s Q := by
  refine ⟨yields_bind (h.1.mono fun a s' ha => ha.1), fun e s'' he => ?_⟩
  rw [start_bind] at he
  split at he
  · next a s' ha => exact (h.1 a s' ha).2 e s'' he
  · next e' s' ha =>
    cases he
    exact h.2 _ _ ha

theorem keeps_pure {a : α} {Q : α → Stage → Prop} (h : Q a s) :
    Keeps T D (pure a : Work α) s Q := by
  refine ⟨yields_pure h, ?_⟩
  rintro e s' ⟨⟩

theorem keeps_get {Q : Stage → Stage → Prop} (h : Q s s) :
    Keeps T D (get : Work Stage) s Q := by
  refine ⟨yields_get h, ?_⟩
  rintro e s' ⟨⟩

theorem keeps_modify {g : Stage → Stage} {Q : PUnit → Stage → Prop} (h : Q ⟨⟩ (g s)) :
    Keeps T D (modify g : Work PUnit) s Q := by
  refine ⟨yields_modify h, ?_⟩
  rintro e s' ⟨⟩

/-- The lines of a process are fewer than its supply and one more. -/
theorem Told.refuel (h : Told T s k cs depth fuel) :
    Told T s k cs depth (s.session.process.supply + 1) :=
  ⟨h.posed, h.depth, Nat.lt_succ_of_le (Process.stock_le_supply _), h.now⟩

/-- A diagnostic changes nothing in what was told. -/
theorem Told.info (h : Told T s k cs depth fuel) (text : String) :
    Keeps T D (Work.info text) s fun _ s' => Told T s' k cs depth fuel := by
  refine keeps_modify ?_
  have hstill := s.around_still (·.info text)
  have hsent : (s.around (·.info text)).sent = s.sent := congrArg Process.received hstill.process
  refine ⟨hsent ▸ h.posed, hstill.depth.trans h.depth, hstill.process ▸ h.stock, ?_⟩
  rw [hsent]
  exact h.now.imp_left (s.later_around _).killed

/-- What was posed before a text that is no test is still posed after it. -/
theorem Posed.hears {text : String} {s' : Stage} (h : Posed T s.sent) (hears : Hears text s s')
    (htext : text ≠ ask) : Posed T s'.sent := by
  rcases hears.sent with hsame | ⟨-, hmore⟩
  · rwa [hsame]
  · rw [hmore]
    exact h.concat htext

theorem Told.write (h : Told T s k cs depth fuel) (hds : Script.render ds ≠ ask) :
    Keeps T D (Work.write (Script.render ds)) s fun _ s' => Told T s' k (cs ++ ds) depth fuel := by
  have hhears := moves_write (Script.render ds) s
  refine ⟨fun _ s' hs' => ?_, fun e s' he => ?_⟩
  · have htells := yields_write _ s _ _ hs'
    have hlater := (Stage.course_later.write _).yields (s := s) _ _ hs'
    rw [hs'] at hhears
    refine ⟨h.posed.hears hhears hds, hhears.depth.trans h.depth,
      Nat.lt_of_le_of_lt hhears.stock h.stock, ?_⟩
    rcases h.now with hkilled | ⟨hjoin, hcount⟩
    · exact .inl (hlater.killed hkilled)
    · rcases htells with hkilled | ⟨hfeed, -⟩ | ⟨hsame, hempty⟩
      · exact .inl hkilled
      · have hsent : s'.sent = s.sent ++ [Script.render ds] := by
          rw [Stage.sent, hfeed, Process.received_feed, Stage.sent]
        rw [hsent, Process.join_concat, hjoin, Script.render_append, List.count_append,
          List.count_singleton, if_neg (by simpa using hds)]
        exact .inr ⟨rfl, hcount⟩
      · -- nothing was written, so nothing is to be added
        obtain rfl := Script.render_eq_empty hempty
        rw [List.append_nil, Stage.sent, hsame]
        exact .inr ⟨hjoin, hcount⟩
  · rw [he] at hhears
    refine ⟨h.posed.hears hhears hds, fun hstuck => ?_⟩
    exact absurd hstuck (throws_write (F := fun e _ => e ≠ .stuck) (by simp) _ s e s' he)

/-- **A script that is sent is told.** -/
theorem Told.send (h : Told T s k cs depth fuel) {script : Except EncodingError Script}
    (hscript : script = .ok ds) (hds : Script.render ds ≠ ask) :
    Keeps T D (Work.send script) s fun _ s' => Told T s' k (cs ++ ds) depth fuel := by
  subst hscript
  exact h.write hds

theorem Told.push (h : Told T s k cs depth fuel) :
    Keeps T D Work.push s fun _ s' => Told T s' k (cs ++ [.push]) (depth + 1) fuel := by
  have hwrite := h.write (D := D) (show Script.render [.push] ≠ ask by decide)
  rw [render_singleton] at hwrite
  refine keeps_bind (hwrite.mono fun _ s' h' => keeps_modify ?_)
  exact ⟨h'.posed, congrArg (· + 1) h'.depth, h'.stock, h'.now⟩

theorem Told.pop (h : Told T s k cs (depth + 1) fuel) :
    Keeps T D Work.pop s fun _ s' => Told T s' k (cs ++ [.pop]) depth fuel := by
  have hwrite := h.write (D := D) (show Script.render [.pop] ≠ ask by decide)
  rw [render_singleton] at hwrite
  rw [pop_eq]
  refine keeps_bind (keeps_get ?_)
  have hopen : ¬ s.session.depth = 0 := by
    rw [h.depth]
    exact Nat.succ_ne_zero depth
  rw [if_neg hopen]
  refine keeps_bind (hwrite.mono fun _ s' h' => keeps_modify ?_)
  refine ⟨h'.posed, ?_, h'.stock, h'.now⟩
  show s'.session.depth - 1 = depth
  rw [h'.depth, Nat.add_sub_cancel]

/-- **A test is posed behind the script of its number.** One that is answered takes a line. -/
theorem Told.checkSat (h : Told T s k cs (D k) (fuel + 1)) (hcs : T k = some cs)
    (required : Bool) : Keeps T D (Work.checkSat required) s fun _ s' =>
      Told T s' (k + 1) (cs ++ [.checkSat]) (D k) fuel := by
  have hends := ends_checkSat required s
  unfold Ends at hends
  -- only a process that is not killed hears the test, and it was told the script
  have hposed : ∀ {s'}, Asks s s' → Posed T s'.sent := by
    intro s' hasks
    rcases hasks.sent with hsame | ⟨halive, hmore⟩
    · rw [hsame]
      exact h.posed
    · obtain ⟨hjoin, hcount⟩ := h.now.resolve_left (by simp [halive])
      rw [hmore]
      refine h.posed.test ?_
      rw [hcount, hcs, hjoin]
      rfl
  have hheard : ∀ {s'}, Asks s s' → s'.sent = s.sent ++ [ask] →
      String.join s'.sent = Script.render (cs ++ [.checkSat]) ∧ s'.sent.count ask = k + 1 := by
    intro s' hasks hmore
    have halive : s.session.killed = false := by
      rcases hasks.sent with hsame | ⟨halive, -⟩
      · rw [hmore] at hsame
        simp at hsame
      · exact halive
    obtain ⟨hjoin, hcount⟩ := h.now.resolve_left (by simp [halive])
    rw [hmore, Process.join_concat, hjoin, ← Script.render_append, render_singleton,
      List.count_append, List.count_singleton_self, hcount]
    exact ⟨rfl, rfl⟩
  refine ⟨fun w s' hs' => ?_, fun e s' he => ?_⟩
  · rw [hs'] at hends
    obtain ⟨hasks, -, hok⟩ := hends
    obtain ⟨hsent, hstock⟩ := hok w rfl
    have hfewer : s'.session.process.stock < fuel :=
      Nat.lt_of_succ_lt_succ (Nat.lt_of_le_of_lt hstock h.stock)
    exact ⟨hposed hasks, hasks.depth.trans h.depth, hfewer, .inr (hheard hasks hsent)⟩
  · rw [he] at hends
    obtain ⟨hasks, hstuck, -⟩ := hends
    refine ⟨hposed hasks, fun heq => ⟨k, ?_, hasks.depth.trans h.depth⟩⟩
    exact (hheard hasks (hstuck (congrArg _ heq))).2

end Told

end Work

end PetriReach
