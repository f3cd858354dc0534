import PetriReach.Proofs.Solver.Twins

/-!
# Lines in order

A process writes its lines in the order of its script, and each test that is answered takes the
first that was not read. So test number `n` is answered by line number `n`, whatever else the
process is told, and however the conversation ends.

* `Process.Delivered`: so many lines were read.
* `Process.Delivered.take`: the next line is the next of the script.
* `Smt.Command.States`: declarations and assertions; a script of them is not the text of a test.
* `Stage.Counted`: so many tests were put and answered, and no witness was found.
* `Work.counted_checkSat`: a test is answered by the line of its number.
-/

namespace PetriReach

open Smt

/-! ## Lines that were read -/

namespace Process

variable {ls : List String} {n : Nat} {p : Process}

/-- Of the lines `ls` the process has delivered `n`. Those that wait come next, and behind them,
while the output is open, those that are left of the script. -/
structure Delivered (ls : List String) (n : Nat) (p : Process) : Prop where
  waiting : p.pending <+: ls.drop n
  left : p.closed = false → p.pending ++ p.script.lines = ls.drop n

theorem delivered_start (b : Backend) : (start b).Delivered b.lines 0 :=
  ⟨List.nil_prefix, fun _ => rfl⟩

theorem Delivered.answer (h : p.Delivered ls n) : p.answer.Delivered ls n := by
  unfold Process.answer
  split
  · exact h
  · next hclosed =>
    have hleft := h.left (Bool.eq_false_iff.mpr hclosed)
    rw [Backend.lines] at hleft
    split
    · next a rest hanswers =>
      rw [hanswers, List.flatMap_cons, List.append_assoc, ← List.append_assoc] at hleft
      exact ⟨⟨_, hleft⟩, fun _ => hleft⟩
    · next hanswers =>
      split
      · exact h
      · rw [hanswers, List.flatMap_nil, List.nil_append] at hleft
        refine ⟨hleft ▸ List.prefix_refl _, fun hopen => ?_⟩
        cases hopen

theorem Delivered.foldl_hear (h : p.Delivered ls n) (lines : List (List Char)) :
    (lines.foldl hear p).Delivered ls n := by
  induction lines generalizing p with
  | nil => exact h
  | cons line lines ih =>
    rw [List.foldl_cons]
    refine ih ?_
    unfold hear
    split
    · exact h.answer
    · exact h

/-- Nothing is delivered by being told something. -/
theorem Delivered.feed (h : p.Delivered ls n) (text : String) : (p.feed text).Delivered ls n := by
  unfold Process.feed
  refine Delivered.foldl_hear ?_ _
  exact ⟨h.waiting, h.left⟩

/-- **The next line is the next of the script.** -/
theorem Delivered.take (h : p.Delivered ls n) {l : String} (hl : p.take.1 = .line l) :
    ls[n]? = some l ∧ p.take.2.Delivered ls (n + 1) := by
  unfold Process.take at hl ⊢
  cases hpending : p.pending with
  | nil =>
    rw [hpending] at hl
    dsimp only at hl
    split at hl <;> cases hl
  | cons l' rest =>
    rw [hpending] at hl
    cases hl
    have hnext : ∀ {tail}, l :: tail = ls.drop n → ls[n]? = some l ∧ tail = ls.drop (n + 1) := by
      intro tail htail
      refine ⟨?_, ?_⟩
      · rw [← List.head?_drop, ← htail, List.head?_cons]
      · rw [← List.tail_drop, ← htail, List.tail_cons]
    obtain ⟨tail, htail⟩ := h.waiting
    rw [hpending] at htail
    obtain ⟨hline, hrest⟩ := hnext htail
    refine ⟨hline, ⟨_, hrest⟩, fun hopen => ?_⟩
    have hleft := h.left hopen
    rw [hpending] at hleft
    exact (hnext hleft).2

end Process

/-! ## Texts that are no tests -/

/-- A declaration or an assertion. -/
def Smt.Command.States : Command → Prop
  | .declare _ _ => True
  | .assert _ => True
  | _ => False

/-- Whatever it declares or asserts, a script is not the text of a test. -/
theorem Smt.Script.render_ne_ask_of_states {cs : Script} (h : ∀ c ∈ cs, c.States) :
    Script.render cs ≠ ask := by
  intro heq
  cases cs with
  | nil => exact absurd heq (by decide)
  | cons c cs =>
    have hsecond : (Script.render (c :: cs)).toList[1]? = some 'c' := by
      rw [heq]
      decide
    rw [toList_render_cons] at hsecond
    have hc := h c List.mem_cons_self
    -- the second character tells a test from the others
    cases c with
    | declare s sort => cases hsecond
    | assert t => cases hsecond
    | push => exact hc
    | pop => exact hc
    | checkSat => exact hc

/-! ## Tests that were answered -/

namespace Stage

/-- The witness has not changed. -/
theorem exchange_witness : Exchange fun s s' => s'.witness = s.witness where
  refl _ := rfl
  trans h h' := h'.trans h
  settle := settle_witness
  elapse s := settle_witness { s with toArena := s.toArena.elapse }
  emit s _ := settle_witness { s with toArena := s.toArena.emit _ }
  expire s := settle_witness { s with toArena := s.toArena.expire }
  kill _ := rfl
  tell _ _ _ _ := rfl
  hear _ := rfl

/-- `n` tests were put and answered, by the first `n` of the lines, and no witness was found. -/
structure Counted (ls : List String) (n : Nat) (s : Stage) : Prop where
  delivered : s.session.process.Delivered ls n
  tests : s.sent.count ask = n
  witness : s.witness = none

/-- Work that changes nothing in this, whether or not it succeeds. -/
def Quiet {α : Type} (w : Work α) : Prop :=
  ∀ ls n, w.Moves fun s s' => Counted ls n s → Counted ls n s'

end Stage

namespace Work

open Stage

variable {α β : Type} {ls : List String} {n : Nat} {s : Stage}

theorem quiet_throw (e : Fault) : Quiet (throw e : Work α) :=
  fun _ _ _ h => h

theorem quiet_get : Quiet (get : Work Stage) :=
  fun _ _ _ h => h

theorem quiet_bind {w : Work α} {f : α → Work β} (hw : Quiet w) (hf : ∀ a, Quiet (f a)) :
    Quiet (w >>= f) := by
  intro ls n s h
  have hs := hw ls n s h
  rw [start_bind]
  split
  · next a s' ha =>
    rw [ha] at hs
    exact hf a ls n s' hs
  · next e s' ha =>
    rw [ha] at hs
    exact hs

/-- What leaves the process and the witness alone is quiet. -/
theorem quiet_of_still {w : Work α} (hstill : w.Moves Still)
    (hwitness : w.Moves fun s s' => s'.witness = s.witness) : Quiet w := by
  intro ls n s h
  refine ⟨(hstill s).process ▸ h.delivered, ?_, (hwitness s).trans h.witness⟩
  rw [Stage.sent, (hstill s).process]
  exact h.tests

theorem quiet_info (text : String) : Quiet (info text) :=
  quiet_of_still (lull_still.info text) (exchange_witness.info text)

/-- Writing is quiet, but for a test. -/
theorem quiet_write {text : String} (htext : text ≠ ask) : Quiet (write text) := by
  intro ls n s h
  have hhears := moves_write text s
  refine ⟨?_, ?_, (exchange_witness.write text s).trans h.witness⟩
  · rcases hhears.process with hsame | ⟨-, hfeed⟩
    · rw [hsame]
      exact h.delivered
    · rw [hfeed]
      exact h.delivered.feed text
  · rcases hhears.sent with hsame | ⟨-, hmore⟩
    · rw [hsame]
      exact h.tests
    · rw [hmore, List.count_append, List.count_singleton, if_neg (by simpa using htext)]
      exact h.tests

theorem quiet_send {script : Except EncodingError Script}
    (h : ∀ cs, script = .ok cs → ∀ c ∈ cs, c.States) : Quiet (send script) := by
  cases script with
  | error e => exact quiet_throw _
  | ok cs => exact quiet_write (Script.render_ne_ask_of_states (h cs rfl))

theorem quiet_scope (g : Nat → Nat) : Quiet (modify fun s =>
    { s with session := { s.session with depth := g s.session.depth } } : Work PUnit) :=
  fun _ _ _ h => ⟨h.delivered, h.tests, h.witness⟩

theorem quiet_push : Quiet push :=
  quiet_bind (quiet_write (by decide)) fun _ => quiet_scope (· + 1)

theorem quiet_pop : Quiet pop := by
  rw [pop_eq]
  refine quiet_bind quiet_get fun s => ?_
  have hclose : Quiet close := quiet_bind (quiet_write (by decide)) fun _ => quiet_scope (· - 1)
  split
  · exact quiet_bind (quiet_throw _) fun _ => hclose
  · exact hclose

/-- A line that is read is the next that the process wrote. -/
theorem yields_receive_line (s : Stage) : receive.Yields s fun line s' => ∀ l, line = some l →
    s.session.process.take.1 = .line l ∧ s'.session.process = s.session.process.take.2 := by
  intro line s' hstart l hl
  subst hl
  obtain ⟨hreply, rfl⟩ := heard_of_line hstart
  obtain ⟨htake, hprocess⟩ := Session.take_of_receive hreply
  exact ⟨htake, (around_process _ _).trans hprocess⟩

/-- **A test is answered by the line of its number**; in any case it finds no witness. -/
theorem counted_checkSat (h : Counted ls n s) (required : Bool) :
    (checkSat required).Ends s fun r s' => s'.witness = none ∧ ∀ w, r = .ok w →
      Counted ls (n + 1) s' ∧ (∃ l, ls[n]? = some l ∧ Text.trim l = w.text) ∧
        (required = true → w ≠ .unknown) := by
  have hwitness : ((checkSat required).start s).2.witness = none :=
    (exchange_witness.checkSat required s).trans h.witness
  have hyields : (checkSat required).Yields s fun w s' =>
      s'.session.process.Delivered ls (n + 1) ∧ s'.sent.count ask = n + 1 ∧
        (∃ l, ls[n]? = some l ∧ Text.trim l = w.text) ∧ (required = true → w ≠ .unknown) := by
    rw [checkSat_eq]
    refine yields_bind ((yields_write ask s).mono fun _ s₁ htells => ?_)
    refine yields_bind (((yields_receive_line s₁).and (course_later.receive).yields).mono ?_)
    rintro line s₂ ⟨hline, hlater⟩
    refine yields_guarded (yields_abort _) fun halive => (yields_judge required line s₂).mono ?_
    rintro w s' ⟨l, rfl, htrim, hdefinite, hsame⟩
    obtain ⟨htake, hprocess⟩ := hline l rfl
    -- the test was heard, as the process was not killed
    have hfeed : s₁.session.process = s.session.process.feed ask := by
      rcases htells with hkilled | ⟨hfeed, -⟩ | ⟨-, hempty⟩
      · exact absurd (hlater.killed hkilled) halive
      · exact hfeed
      · exact absurd hempty (by decide)
    rw [hfeed] at htake hprocess
    obtain ⟨hl, hdelivered⟩ := (h.delivered.feed ask).take htake
    refine ⟨?_, ?_, ⟨l, hl, htrim⟩, hdefinite⟩
    · rw [hsame, hprocess]
      exact hdelivered
    · rw [Stage.sent, hsame, hprocess, Process.received_take, Process.received_feed,
        List.count_append, List.count_singleton_self]
      exact congrArg (· + 1) h.tests
  refine ⟨hwitness, fun w hw => ?_⟩
  obtain ⟨hdelivered, htests, hanswer⟩ := hyields w _ (Prod.ext hw rfl)
  exact ⟨⟨hdelivered, htests, hwitness⟩, hanswer⟩

/-- Work whose end is known, followed by more. -/
theorem Ends.bind {P : Except Fault α → Stage → Prop} {T : Except Fault β → Stage → Prop}
    {w : Work α} {f : α → Work β} (h : w.Ends s P)
    (hfail : ∀ e s', P (.error e) s' → T (.error e) s')
    (hrest : ∀ a s', P (.ok a) s' → (f a).Ends s' T) : (w >>= f).Ends s T := by
  unfold Ends at h
  refine ends_step (fun e s' he => hfail e s' ?_) fun a s' ha => hrest a s' ?_
  · rwa [he] at h
  · rwa [ha] at h

/-- Quiet work, followed by more, where every failure that finds no witness is allowed. -/
theorem ends_after_quiet {T : Except Fault β → Stage → Prop} {w : Work α} {f : α → Work β}
    (hw : Quiet w) (h : Counted ls n s) (hfail : ∀ e s', s'.witness = none → T (.error e) s')
    (hrest : ∀ a s', Counted ls n s' → (f a).Ends s' T) : (w >>= f).Ends s T :=
  Ends.bind (P := fun _ s' => Counted ls n s') (hw ls n s h)
    (fun e s' h' => hfail e s' h'.witness) hrest

end Work

end PetriReach
