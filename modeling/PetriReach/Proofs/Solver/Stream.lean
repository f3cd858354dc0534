import PetriReach.Proofs.Cohort.Results
import PetriReach.Proofs.Net.WellFormed
import PetriReach.Proofs.Solver.Twins

/-!
# Streams of answers

A process that does not hang answers the tests of a calm conversation by the lines of its script,
one each, and closes its output behind the last. Until then every step succeeds; where no line is
left, the conversation is broken off before the next test is answered. The number of diagnostics
that were written says what is in the bound cell.

* `Answer.ofLine?`: what a line is taken for.
* `Process.Due`: the lines that answer the tests to come.
* `Arena.cellAfter`: the bound cell after some more diagnostics.
* `Work.Ready`: a calm conversation, with the lines that are due and the diagnostics so far.
* `Work.Ready.ends_send`, `Work.Ready.ends_checkSat`: a step of it.
-/

namespace PetriReach

open Smt

/-- What a line is taken for. If a definite answer is required, `unknown` is none. -/
def Answer.ofLine? (required : Bool) (line : String) : Option Answer :=
  if Text.trim line = "sat" then some .sat
  else if Text.trim line = "unsat" then some .unsat
  else if required || Text.trim line ≠ "unknown" then none
  else some .unknown

/-- What the first of some lines is taken for. -/
def Answer.heard? (required : Bool) (ls : List String) : Option Answer :=
  ls.head?.bind (Answer.ofLine? required)

@[simp] theorem Answer.heard?_cons (required : Bool) (l : String) (ls : List String) :
    heard? required (l :: ls) = ofLine? required l := by
  rw [heard?, List.head?_cons, Option.bind_some]

/-- **What a line is taken for is what it says.** -/
theorem Answer.ofLine?_eq_some {required : Bool} {l : String} {w : Answer} :
    ofLine? required l = some w ↔ Text.trim l = w.text ∧ (required = true → w ≠ .unknown) := by
  unfold ofLine?
  by_cases hsat : Text.trim l = "sat"
  · rw [if_pos hsat, hsat]
    cases w <;> simp [Answer.text]
  rw [if_neg hsat]
  by_cases hunsat : Text.trim l = "unsat"
  · rw [if_pos hunsat, hunsat]
    cases w <;> simp [Answer.text]
  rw [if_neg hunsat]
  by_cases hunknown : Text.trim l = "unknown"
  · rw [hunknown]
    cases required <;> cases w <;> simp [Answer.text]
  · rw [if_pos (by simp [hunknown])]
    cases w <;> simp [Answer.text, hsat, hunsat, hunknown]

/-- Where a definite answer is required, none other is heard. -/
theorem Answer.ne_unknown {ls : List String} {w : Answer} (h : heard? true ls = some w) :
    w ≠ .unknown := by
  obtain ⟨l, -, hl⟩ := Option.bind_eq_some_iff.mp h
  exact (ofLine?_eq_some.mp hl).2 rfl

theorem Answer.length_tail {required : Bool} {ls : List String} {w : Answer}
    (h : heard? required ls = some w) : ls.tail.length + 1 = ls.length := by
  cases ls with
  | nil => cases h
  | cons l ls => rfl

/-! ## Processes -/

namespace Process

/-- The tests to come are answered by the lines `ls`, and then the output is closed. A process that
may exit by itself has heard whole lines only. -/
structure Due (exits : Bool) (p : Process) (ls : List String) : Prop where
  valid : p.Valid
  prompt : p.script.hangs = false
  future : p.future = ls
  unbroken : '\n' ∉ p.line
  whole : exits = true → p.line = []
  stays : exits = false → p.script.exitAfter = none

variable {exits : Bool} {p : Process} {ls : List String}

theorem due_start {b : Backend} (hprompt : b.hangs = false) (hexits : exits = false →
    b.exitAfter = none) : Due exits (start b) b.replies where
  valid := valid_start b
  prompt := hprompt
  future := future_start b
  unbroken := List.not_mem_nil
  whole _ := rfl
  stays := hexits

theorem Due.received (h : Due exits p ls) (texts : List String) :
    Due exits { p with received := texts } ls :=
  ⟨h.valid, h.prompt, h.future, h.unbroken, h.whole, h.stays⟩

theorem hangs_answer (p : Process) : p.answer.script.hangs = p.script.hangs := by
  unfold answer
  split
  · rfl
  · split
    · rfl
    · split <;> rfl

theorem exitAfter_answer (h : p.script.exitAfter = none) : p.answer.script.exitAfter = none := by
  unfold answer
  split
  · exact h
  · split
    · simp [h]
    · split <;> exact h

theorem line_answer (p : Process) : p.answer.line = p.line := by
  unfold answer
  split
  · rfl
  · split
    · rfl
    · split <;> rfl

theorem script_take (p : Process) : p.take.2.script = p.script := by
  unfold take
  split <;> rfl

/-- A process that does not exit loses no line by an answer that nobody waits for. -/
theorem future_answer (hvalid : p.Valid) (hprompt : p.script.hangs = false)
    (hstays : p.script.exitAfter = none) : p.answer.Valid ∧ p.answer.future = p.future := by
  have hgone : p.gone = false := by
    rw [Bool.eq_false_iff]
    intro hgone
    simp [hvalid.mp hgone] at hstays
  have hexit : p.script.exitAfter ≠ some 0 := by simp [hstays]
  by_cases hclosed : p.closed = true
  · rw [answer, if_pos hclosed]
    exact ⟨hvalid, rfl⟩
  · unfold answer
    rw [if_neg hclosed]
    cases hanswers : p.script.answers with
    | cons a as =>
      dsimp only
      refine ⟨by simp [Valid, hstays], ?_⟩
      simp [future, hgone, hclosed, hstays, Backend.repliesBehind, Backend.spoken, hanswers,
        List.append_assoc]
    | nil =>
      dsimp only
      rw [if_neg (by simp [hprompt])]
      refine ⟨hvalid, ?_⟩
      simp [future, hgone, hclosed, repliesBehind_nil hanswers hexit, hprompt]

theorem Due.hear (h : Due false p ls) (line : List Char) : Due false (p.hear line) ls := by
  unfold Process.hear
  split
  · obtain ⟨hvalid, hfuture⟩ := future_answer h.valid h.prompt (h.stays rfl)
    exact ⟨hvalid, (hangs_answer p).trans h.prompt, hfuture.trans h.future,
      p.line_answer ▸ h.unbroken, nofun, fun _ => exitAfter_answer (h.stays rfl)⟩
  · exact h

/-- A process that does not exit answers the tests to come as before, whatever text it hears. -/
theorem Due.feed_any (h : Due false p ls) (text : String) : Due false (p.feed text) ls := by
  have hfold : ∀ (lines : List (List Char)) {p : Process}, Due false p ls →
      Due false (lines.foldl Process.hear p) ls := by
    intro lines
    induction lines with
    | nil => exact fun h => h
    | cons line lines ih => exact fun h => ih (h.hear line)
  refine hfold _ ⟨h.valid, h.prompt, h.future, ?_, nofun, h.stays⟩
  intro hmem
  cases hlast : (Text.pieces (· = '\n') (p.line ++ text.toList)).getLast? with
  | none => simp [hlast] at hmem
  | some piece =>
    rw [hlast, Option.getD_some] at hmem
    exact absurd (Text.not_of_mem_pieces (List.mem_of_getLast? hlast) '\n' hmem) (by simp)

/-- A script that a process which may exit can take for nothing else: its lines are its commands,
and none of them is a test. -/
def Tidy (exits : Bool) (cs : Script) : Prop :=
  exits = true → ∀ c ∈ cs, c.Written ∧ c ≠ .checkSat

/-- **A text between the tests changes no answer.** -/
theorem Due.feed (h : Due exits p ls) {cs : Script} (hcs : Tidy exits cs) :
    Due exits (p.feed (Script.render cs)) ls := by
  cases exits with
  | false => exact h.feed_any _
  | true =>
    rw [feed_script (h.whole rfl) (fun c hc => (hcs rfl c hc).1) fun c hc => (hcs rfl c hc).2]
    exact h.received _

/-- A test makes the process answer, even if another line was begun. -/
theorem feed_ask (h : '\n' ∉ p.line) :
    p.feed ask = { p with line := [], received := p.received ++ [ask] }.answer := by
  have hline : ∀ c ∈ p.line ++ askEnd, decide (c = '\n') = false := by
    intro c hc
    refine decide_eq_false ?_
    rintro rfl
    rcases List.mem_append.mp hc with hc | hc
    · exact h hc
    · exact absurd hc (by decide)
  have hpieces : Text.pieces (· = '\n') (p.line ++ ask.toList) = [p.line ++ askEnd, []] := by
    have hask : ask.toList = askEnd ++ ['\n'] := by decide
    rw [hask, ← List.append_assoc, Text.pieces_append_cons hline (by simp)]
    rfl
  have hsuffix : "(check-sat)".toList.isSuffixOf (p.line ++ askEnd) = true :=
    List.isSuffixOf_iff_suffix.mpr (List.suffix_append _ _)
  unfold Process.feed
  rw [hpieces]
  simp only [List.dropLast_cons_cons, List.dropLast_singleton, List.foldl_cons, List.foldl_nil,
    List.getLast?_cons_cons, List.getLast?_singleton, Option.getD_some]
  rw [Process.hear, if_pos hsuffix]

theorem Due.not_gone (h : Due exits p ls) (hls : ls ≠ []) : p.gone = false := by
  obtain ⟨l, rest, rfl⟩ := List.exists_cons_of_ne_nil hls
  exact not_gone_of_future h.future

/-- **A test is answered by the next line.** -/
theorem Due.take {l : String} (h : Due exits p (l :: ls)) :
    ∃ q, (p.feed ask).take = (.line l, q) ∧ Due exits q ls := by
  obtain ⟨q, htake, hfuture, hvalid, hline, -⟩ :=
    take_answer (p := { p with line := [], received := p.received ++ [ask] }) h.valid h.future
  have hscript : q.script = (p.feed ask).script := by
    rw [← script_take (p.feed ask), feed_ask h.unbroken, htake]
  rw [← feed_ask h.unbroken] at htake
  refine ⟨q, htake, hvalid, ?_, hfuture, ?_, fun _ => hline, fun hstays => ?_⟩
  · rw [hscript, feed_ask h.unbroken, hangs_answer]
    exact h.prompt
  · rw [hline]
    exact List.not_mem_nil
  · rw [hscript, feed_ask h.unbroken]
    exact exitAfter_answer (h.stays hstays)

/-- **Behind the last line the output is closed.** -/
theorem Due.closed (h : Due exits p []) (hgone : p.gone = false) :
    (p.feed ask).take.1 = .closed := by
  have hline := not_line_of_future_nil
    (p := { p with line := [], received := p.received ++ [ask] }) h.valid hgone h.future
  rw [← feed_ask h.unbroken] at hline
  cases hreply : (p.feed ask).take.1 with
  | line l => exact absurd hreply (hline l)
  | closed => rfl
  | silent =>
    -- a process that does not hang writes something or closes its output
    exfalso
    rw [feed_ask h.unbroken] at hreply
    have hprompt : ({ p with line := [], received := p.received ++ [ask] } : Process).script.hangs =
        false := h.prompt
    generalize ({ p with line := [], received := p.received ++ [ask] } : Process) = q at *
    have hends : q.answer.closed = true ∨ q.answer.pending ≠ [] := by
      unfold answer
      split
      · next hclosed => exact .inl hclosed
      · split
        · exact .inr (by simp [lines_ne_nil])
        · rw [if_neg (by simp [hprompt])]
          exact .inl rfl
    unfold Process.take at hreply
    rcases hends with hclosed | hpending
    · split at hreply
      · cases hreply
      · simp [hclosed] at hreply
    · obtain ⟨l, rest, hcons⟩ := List.exists_cons_of_ne_nil hpending
      simp [hcons] at hreply

end Process

/-! ## Diagnostics -/

namespace Arena

/-- What is published right after the diagnostic with this number. -/
def published (a : Arena) (number : Nat) : List Int :=
  ((a.agenda.filter (·.1 = number)).map (·.2)).filterMap Event.bound?

/-- The bound cell after `n` more diagnostics. -/
def cellAfter (a : Arena) : Nat → Bound
  | 0 => a.bound
  | n + 1 => (a.published (a.log.length + n + 1)).foldl Bound.publish (a.cellAfter n)

/-- What a conversation that no hanging process holds up leaves of its surroundings. -/
structure Aged (a b : Arena) : Prop where
  verbose : b.verbose = a.verbose
  agenda : b.agenda = a.agenda
  watchdog : b.watchdog = a.watchdog
  cohort : a.cohort.NoResult b.cohort
  calm : a.Calm → b.Calm
  meanwhile : a.meanwhile = [] → b.meanwhile = []
  programs : b.programs = a.programs

/-- `b` is `a` after `n` more diagnostics, whose events alone changed the bound cell. -/
structure After (a : Arena) (n : Nat) (b : Arena) : Prop extends Aged a b where
  log : b.log.length = a.log.length + n
  bound : b.bound = a.cellAfter n

/-- Nothing but the events of the diagnostics changed the bound cell. -/
def Untouched (a b : Arena) : Prop :=
  ∃ n, a.After n b

variable {a b c : Arena} {m n : Nat}

theorem Aged.trans (h : a.Aged b) (h' : b.Aged c) : a.Aged c where
  verbose := h'.verbose.trans h.verbose
  agenda := h'.agenda.trans h.agenda
  watchdog := h'.watchdog.trans h.watchdog
  cohort := h.cohort.trans h'.cohort
  calm := h'.calm ∘ h.calm
  meanwhile := h'.meanwhile ∘ h.meanwhile
  programs := h'.programs.trans h.programs

theorem After.refl (a : Arena) : a.After 0 a :=
  ⟨⟨rfl, rfl, rfl, .refl _, id, id, rfl⟩, rfl, rfl⟩

theorem After.cellAfter (h : a.After n b) (m : Nat) : b.cellAfter m = a.cellAfter (n + m) := by
  induction m with
  | zero => exact h.bound
  | succ m ih =>
    rw [Arena.cellAfter, ih, ← Nat.add_assoc, Arena.cellAfter, published, published, h.agenda,
      h.log]
    rw [Nat.add_assoc a.log.length n m]

theorem After.trans (h : a.After n b) (h' : b.After m c) : a.After (n + m) c where
  toAged := h.toAged.trans h'.toAged
  log := by rw [h'.log, h.log, Nat.add_assoc]
  bound := h'.bound.trans (h.cellAfter m)

theorem after_emit (a : Arena) (text : String) : a.After 1 (a.emit text) := by
  have hcalm : a.Calm → (a.emit text).Calm := fun h => h.emit text
  have hcancelled := fun h => cancelled_emit (a := a) h text
  rw [emit_eq] at hcalm hcancelled ⊢
  exact ⟨⟨rfl, rfl, rfl, ⟨rfl, hcancelled⟩, hcalm, id, rfl⟩, by simp, rfl⟩

theorem After.info (h : a.After n b) (text : String) :
    a.After (n + a.verbose.toNat) (b.info text) := by
  unfold Arena.info
  rw [h.verbose]
  cases a.verbose with
  | true => exact h.trans (b.after_emit text)
  | false => exact h

/-- Registrations and the backends are not looked at. -/
theorem After.beside (h : a.After n b) {cohort : Cohort Nat} (hcohort : b.cohort.NoResult cohort)
    (hcancelled : cohort.cancelled = b.cohort.cancelled) (backends : List (Option Backend))
    (started : Nat) : a.After n { b with cohort, backends, started } where
  verbose := h.verbose
  agenda := h.agenda
  watchdog := h.watchdog
  cohort := h.cohort.trans hcohort
  calm hcalm := ⟨hcancelled.trans (h.calm hcalm).1, (h.calm hcalm).2, (h.calm hcalm).meanwhile⟩
  meanwhile := h.meanwhile
  programs := h.programs
  log := h.log
  bound := h.bound

theorem Untouched.trans (h : a.Untouched b) (h' : b.Untouched c) : a.Untouched c := by
  obtain ⟨n, hn⟩ := h
  obtain ⟨m, hm⟩ := h'
  exact ⟨n + m, hn.trans hm⟩

theorem Untouched.info (h : a.Untouched b) (text : String) : a.Untouched (b.info text) := by
  obtain ⟨n, hn⟩ := h
  exact ⟨_, hn.info text⟩

theorem Untouched.aged (h : a.Untouched b) : a.Aged b := by
  obtain ⟨n, hn⟩ := h
  exact hn.toAged

/-- The bound cell, where nothing else changed it. -/
theorem Untouched.bound (h : a.Untouched b) :
    b.bound = a.cellAfter (b.log.length - a.log.length) := by
  obtain ⟨n, hn⟩ := h
  rw [hn.log, Nat.add_sub_cancel_left]
  exact hn.bound

end Arena

/-- The stage with another state of its process. -/
def Stage.beside (s : Stage) (p : Process) : Stage :=
  { s with session := { s.session with process := p } }

/-- The stage after its process heard a text. -/
def Stage.told (s : Stage) (text : String) : Stage :=
  s.beside (s.session.process.feed text)

theorem Stage.echoed_process (s : Stage) (text : String) :
    (s.echoed text).session.process = s.session.process := by
  unfold echoed
  split
  · exact (s.elapsed.around_still _).process.trans (s.around_still _).process
  · exact (s.around_still _).process

/-- What is read next from a process that heard a text. -/
theorem Stage.receive_told {s : Stage} (h : s.session.killed = false) (text : String) :
    (s.told text).session.receive = ((s.session.process.feed text).take.1,
      (s.beside (s.session.process.feed text).take.2).session) := by
  have halive : (s.told text).session.killed = false := h
  exact Session.receive_of_alive halive

namespace Work

variable {α β : Type}

/-- Breaking off only writes a diagnostic. -/
theorem start_abort_untouched (reason : Abort) (s : Stage) : ∃ s',
    (abort reason : Work α).start s = (.error (.aborted reason), s') ∧
      s.toArena.Untouched s'.toArena ∧ s'.session.process = s.session.process := by
  unfold abort
  rw [start_bind, start_get]
  dsimp only
  rw [start_bind, start_modify]
  dsimp only
  split
  · refine ⟨_, rfl, ⟨0 + s.verbose.toNat, ?_⟩, (Stage.around_still _ _).process⟩
    dsimp only
    rw [Stage.around, Stage.settle_toArena]
    exact (Arena.After.refl s.toArena).info _
  · refine ⟨_, rfl, ⟨1, ?_⟩, (Stage.around_still _ _).process⟩
    dsimp only
    rw [Stage.around, Stage.settle_toArena]
    exact s.after_emit _

/-! ## Calm conversations -/

/-- A calm conversation with `depth` open scopes, `n` diagnostics after `a`: the tests to come are
answered by the lines `ls`. -/
structure Ready (a : Arena) (echo exits : Bool) (n depth : Nat) (ls : List String) (s : Stage) :
    Prop where
  calm : s.Calm
  after : a.After n s.toArena
  echo : s.session.echo = echo
  depth : s.session.depth = depth
  due : s.session.process.Due exits ls

/-- `T` holds of every end that comes from breaking off, if the bound cell is left alone. -/
def Cut (a : Arena) (T : Except Fault β → Stage → Prop) : Prop :=
  ∀ reason (s : Stage), a.Untouched s.toArena → T (.error (.aborted reason)) s

namespace Ready

variable {a : Arena} {echo exits : Bool} {n depth : Nat} {ls : List String} {s : Stage}
  {f : Unit → Work β} {T : Except Fault β → Stage → Prop}

theorem emit (h : Ready a echo exits n depth ls s) (text : String) :
    Ready a echo exits (n + 1) depth ls (s.around (·.emit text)) := by
  rw [Stage.around_of_calm (h.calm.1.emit text)]
  exact ⟨⟨h.calm.1.emit text, h.calm.2⟩, h.after.trans (s.after_emit text), h.echo, h.depth, h.due⟩

theorem echoed (h : Ready a echo exits n depth ls s) (text : String) :
    Ready a echo exits (n + echo.toNat) depth ls (s.echoed text) := by
  have helapsed : s.elapsed = s := h.calm.elapse
  unfold Stage.echoed
  rw [helapsed, h.echo]
  cases echo with
  | true => exact h.emit text
  | false => exact h

/-- A diagnostic that is wanted counts. -/
theorem ends_info (h : Ready a echo exits n depth ls s) (text : String)
    (hf : ∀ {s'}, Ready a echo exits (n + a.verbose.toNat) depth ls s' → (f ()).Ends s' T) :
    (info text >>= f).Ends s T := by
  refine ends_bind ⟨(), s.around (·.info text), rfl, hf ?_⟩
  have hcalm : (s.info text).Calm := Arena.info_cases h.calm.1 (h.calm.1.emit ·) text
  rw [Stage.around_of_calm (f := (·.info text)) hcalm]
  exact ⟨⟨hcalm, h.calm.2⟩, h.after.info text, h.echo, h.depth, h.due⟩

/-- Work that breaks the conversation off ends the whole. -/
theorem ends_abort (hcut : Cut a T) {w : Work α} {g : α → Work β}
    (habort : ∃ reason s', w.start s = (.error (.aborted reason), s') ∧ a.Untouched s'.toArena) :
    (w >>= g).Ends s T := by
  obtain ⟨reason, s', hs', huntouched⟩ := habort
  unfold Ends
  rw [start_bind, hs']
  exact hcut reason s' huntouched

/-- The work breaks the conversation off. -/
theorem aborts (h : Ready a echo exits n depth ls s) (reason : Abort) : ∃ reason' s',
    (abort reason : Work α).start s = (.error (.aborted reason'), s') ∧ a.Untouched s'.toArena := by
  obtain ⟨s', hs', huntouched, -⟩ := start_abort_untouched (α := α) reason s
  exact ⟨reason, s', hs', Arena.Untouched.trans ⟨n, h.after⟩ huntouched⟩

theorem not_gone (h : Ready a echo exits n depth ls s) (hls : ls ≠ []) :
    s.session.process.gone = false :=
  h.due.not_gone hls

/-- A process that is there hears what is written. -/
theorem start_write (h : Ready a echo exits n depth ls s) (hgone : s.session.process.gone = false)
    (text : String) : (write text).start s = (.ok (), (s.echoed text).told text) := by
  have hsend : (s.echoed text).session.send? text = some ((s.echoed text).told text).session := by
    simp [Session.send?, (h.echoed text).calm.2, s.echoed_process, hgone, Stage.told, Stage.beside]
  rw [start_write_of_alive h.calm.2, hsend]
  rfl

/-- A process that is gone breaks off what is written to it. -/
theorem aborts_write (h : Ready a echo exits n depth ls s) (hgone : s.session.process.gone = true)
    {text : String} (htext : text ≠ "") : ∃ reason s',
      (write text).start s = (.error (.aborted reason), s') ∧ a.Untouched s'.toArena := by
  have hsend : (s.echoed text).session.send? text = none := by
    simp [Session.send?, (h.echoed text).calm.2, s.echoed_process, hgone, htext]
  rw [start_write_of_alive h.calm.2, hsend]
  exact (h.echoed text).aborts _

/-- **A script is taken in**, unless no line is left and the process is gone. -/
theorem ends_write (h : Ready a echo exits n depth ls s) {cs : Script}
    (hcs : Process.Tidy exits cs) (hcut : ls = [] → Cut a T)
    (hf : ∀ {s'}, Ready a echo exits (n + echo.toNat) depth ls s' → (f ()).Ends s' T) :
    (write cs.render >>= f).Ends s T := by
  have h₁ := h.echoed cs.render
  by_cases hgone : s.session.process.gone = true
  · have hls : ls = [] := by
      by_contra hls
      simp [h.not_gone hls] at hgone
    by_cases hempty : cs.render = ""
    · refine ends_bind ⟨(), s.echoed cs.render, ?_, hf h₁⟩
      rw [start_write_of_alive h.calm.2]
      simp [Session.send?, s.echoed_process, hgone, hempty]
    · exact ends_abort (hcut hls) (h.aborts_write hgone hempty)
  · refine ends_bind ⟨(), _, h.start_write (by simpa using hgone) _, hf ?_⟩
    exact ⟨h₁.calm, h₁.after, h₁.echo, h₁.depth, h₁.due.feed hcs⟩

theorem ends_send (h : Ready a echo exits n depth ls s) {script : Except EncodingError Script}
    (hok : ∃ cs, script = .ok cs ∧ Process.Tidy exits cs) (hcut : ls = [] → Cut a T)
    (hf : ∀ {s'}, Ready a echo exits (n + echo.toNat) depth ls s' → (f ()).Ends s' T) :
    (send script >>= f).Ends s T := by
  obtain ⟨cs, rfl, hcs⟩ := hok
  exact h.ends_write hcs hcut hf

theorem ends_push (h : Ready a echo exits n depth ls s) (hcut : ls = [] → Cut a T)
    (hf : ∀ {s'}, Ready a echo exits (n + echo.toNat) (depth + 1) ls s' → (f ()).Ends s' T) :
    (push >>= f).Ends s T := by
  unfold push
  rw [bind_assoc, ← render_singleton]
  refine h.ends_write (by simp [Process.Tidy, Command.Written, Command.Within]) hcut fun h' => ?_
  refine ends_bind (does_modify (hf ?_))
  exact ⟨h'.calm, h'.after, h'.echo, congrArg (· + 1) h'.depth, h'.due⟩

theorem ends_pop (h : Ready a echo exits n (depth + 1) ls s) (hcut : ls = [] → Cut a T)
    (hf : ∀ {s'}, Ready a echo exits (n + echo.toNat) depth ls s' → (f ()).Ends s' T) :
    (pop >>= f).Ends s T := by
  have hclose : (close >>= f).Ends s T := by
    unfold close
    rw [bind_assoc, ← render_singleton]
    refine h.ends_write (by simp [Process.Tidy, Command.Written, Command.Within]) hcut fun h' => ?_
    refine ends_bind (does_modify (hf ?_))
    refine ⟨h'.calm, h'.after, h'.echo, ?_, h'.due⟩
    show _ - 1 = depth
    rw [h'.depth, Nat.add_sub_cancel]
  rw [pop_eq, guarded, bind_assoc]
  refine ends_bind (does_get ?_)
  rwa [if_neg (by simp [h.depth])]

variable {required : Bool} {l : String} {g : Answer → Work β}

/-- The stage after its process heard a text and was read from. -/
theorem heard_told (h : Ready a echo exits n depth ls s) (text : String) :
    (s.told text).heard = s.beside (s.session.process.feed text).take.2 := by
  have hcalm : (s.beside (s.session.process.feed text).take.2).Calm := h.calm
  rw [Stage.heard, Stage.receive_told h.calm.2]
  exact hcalm.elapse

/-- What is read after a test is judged. -/
theorem start_checkSat (h : Ready a echo exits n depth ls s)
    (hgone : s.session.process.gone = false) (required : Bool) {line : Option String} {p : Process}
    (hreceive : receive.start ((s.echoed ask).told ask) =
      (.ok line, (s.echoed ask).beside p)) :
    (checkSat required).start s = (judge required line).start ((s.echoed ask).beside p) := by
  have hkilled : ((s.echoed ask).beside p).session.killed = false := (h.echoed ask).calm.2
  rw [checkSat_eq, start_bind, show write Command.checkSat.render = write ask from rfl,
    h.start_write hgone]
  dsimp only
  rw [start_bind, hreceive]
  dsimp only
  unfold guarded
  rw [start_bind, start_get]
  dsimp only
  rw [if_neg (by simp [hkilled])]

theorem beside (h : Ready a echo exits n depth ls s) {p : Process} {ls' : List String}
    (hp : p.Due exits ls') : Ready a echo exits n depth ls' (s.beside p) :=
  ⟨h.calm, h.after, h.echo, h.depth, hp⟩

/-- A test that no line answers breaks the conversation off. -/
theorem aborts_checkSat_nil (h : Ready a echo exits n depth [] s) (required : Bool) : ∃ reason s',
    (checkSat required).start s = (.error (.aborted reason), s') ∧ a.Untouched s'.toArena := by
  by_cases hgone : s.session.process.gone = true
  · obtain ⟨reason, s', hs', huntouched⟩ := h.aborts_write hgone (show ask ≠ "" by decide)
    refine ⟨reason, s', ?_, huntouched⟩
    rw [checkSat_eq, start_bind, show write Command.checkSat.render = write ask from rfl, hs']
  · rw [Bool.not_eq_true] at hgone
    have h₁ := h.echoed ask
    have hclosed := h₁.due.closed (s.echoed_process ask ▸ hgone)
    have hreceive := start_receive ((s.echoed ask).told ask)
    rw [Stage.receive_told h₁.calm.2, hclosed, h₁.heard_told] at hreceive
    obtain ⟨s', hs', huntouched, -⟩ := start_abort_untouched (α := Answer) .closed
      ((s.echoed ask).beside ((s.echoed ask).session.process.feed ask).take.2)
    refine ⟨.closed, s', ?_, Arena.Untouched.trans ⟨_, h₁.after⟩ huntouched⟩
    rw [h.start_checkSat hgone required hreceive]
    exact hs'

/-- What a line is taken for, once it is written out. -/
theorem start_judge (h : Ready a echo exits n depth ls s) (required : Bool) (l : String) :
    (∀ w, Answer.ofLine? required l = some w →
      (judge required (some l)).start s = (.ok w, s.echoed ("; " ++ Text.trim l ++ "\n"))) ∧
    (Answer.ofLine? required l = none → ∃ reason s',
      (judge required (some l)).start s = (.error (.aborted reason), s') ∧
        a.Untouched s'.toArena) := by
  unfold judge Answer.ofLine?
  rw [start_bind, start_echo]
  dsimp only
  by_cases hsat : Text.trim l = "sat"
  · rw [if_pos hsat, if_pos hsat]
    exact ⟨fun w hw => by cases hw; rfl, fun hnone => by cases hnone⟩
  rw [if_neg hsat, if_neg hsat]
  by_cases hunsat : Text.trim l = "unsat"
  · rw [if_pos hunsat, if_pos hunsat]
    exact ⟨fun w hw => by cases hw; rfl, fun hnone => by cases hnone⟩
  rw [if_neg hunsat, if_neg hunsat]
  split
  · refine ⟨fun w hw => ?_, fun _ => (h.echoed _).aborts _⟩
    cases hw
  · exact ⟨fun w hw => by cases hw; rfl, fun hnone => by cases hnone⟩

/-- The next line answers a test. -/
theorem receives (h : Ready a echo exits n depth (l :: ls) s) : ∃ q,
    receive.start ((s.echoed ask).told ask) = (.ok (some l), (s.echoed ask).beside q) ∧
      Ready a echo exits (n + echo.toNat) depth ls ((s.echoed ask).beside q) := by
  have h₁ := h.echoed ask
  obtain ⟨q, htake, hdue⟩ := h₁.due.take
  refine ⟨q, ?_, h₁.beside hdue⟩
  rw [start_receive, Stage.receive_told h₁.calm.2, h₁.heard_told, htake]

/-- **A test takes the answer of the next line**, and without one the conversation ends. -/
theorem ends_checkSat (h : Ready a echo exits n depth ls s)
    (hcut : Answer.heard? required ls = none → Cut a T)
    (hg : ∀ w, Answer.heard? required ls = some w → ∀ {s'},
      Ready a echo exits (n + 2 * echo.toNat) depth ls.tail s' → (g w).Ends s' T) :
    (checkSat required >>= g).Ends s T := by
  cases ls with
  | nil => exact ends_abort (hcut rfl) (h.aborts_checkSat_nil _)
  | cons l ls =>
    rw [Answer.heard?_cons] at hcut hg
    obtain ⟨q, hreceive, h₂⟩ := h.receives
    have hstart := h.start_checkSat (h.not_gone (by simp)) required hreceive
    obtain ⟨hsome, hnone⟩ := h₂.start_judge required l
    cases hw : Answer.ofLine? required l with
    | none =>
      refine ends_abort (hcut hw) ?_
      rw [hstart]
      exact hnone hw
    | some w =>
      rw [hsome w hw] at hstart
      refine ends_bind ⟨w, _, hstart, hg w hw ?_⟩
      rw [Nat.two_mul, ← Nat.add_assoc]
      exact h₂.echoed _

end Ready

end Work

end PetriReach
