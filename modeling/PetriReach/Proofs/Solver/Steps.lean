import PetriReach.Proofs.Solver.Dialogue

/-!
# Steps of a conversation

What each step of a conversation does to the meaning of what was sent and to the tests and answers
so far. A solver may be killed at any moment; from then on it hears nothing, and no test succeeds.

* `Work.At`: the meaning of what was sent, and the tests and answers so far.
* `Work.At.send`, `Work.At.checkSat`: a script adds to the meaning, a test to the answers.
* `Stage.Calm`: nothing from outside breaks in.
* `Work.does_send`, `Work.does_checkSat`: on a calm stage the steps succeed while lines are due.
-/

namespace PetriReach

open Smt

/-! ## The bound cell -/

/-- The bound in the cell satisfies `P`, and so does every bound that is published later. -/
structure Arena.Bounded (P : Int → Prop) (a : Arena) : Prop where
  cell : P a.bound.value
  agenda : ∀ event ∈ a.agenda, ∀ b, event.2 = .publish b → P b
  meanwhile : ∀ events ∈ a.meanwhile, ∀ b, .publish b ∈ events → P b

namespace Arena

variable {P : Int → Prop} {a : Arena}

/-- What a diagnostic keeps, whether or not it is wanted. -/
theorem info_cases {p : Arena → Prop} (h : p a) (hemit : ∀ text, p (a.emit text)) (text : String) :
    p (a.info text) := by
  unfold info
  split
  · exact hemit text
  · exact h

theorem Bounded.happen (h : a.Bounded P) {event : Event}
    (hevent : ∀ b, event = .publish b → P b) : (a.happen event).Bounded P := by
  cases event with
  | cancel => exact ⟨h.cell, h.agenda, h.meanwhile⟩
  | publish b => exact ⟨hevent b rfl, h.agenda, h.meanwhile⟩

theorem Bounded.foldl (h : a.Bounded P) {events : List Event}
    (hevents : ∀ event ∈ events, ∀ b, event = .publish b → P b) :
    (events.foldl Arena.happen a).Bounded P := by
  induction events generalizing a with
  | nil => exact h
  | cons event events ih =>
    rw [List.forall_mem_cons] at hevents
    exact ih (h.happen hevents.1) hevents.2

theorem Bounded.elapse (h : a.Bounded P) : a.elapse.Bounded P := by
  have hmeanwhile := h.meanwhile
  unfold Arena.elapse
  cases hm : a.meanwhile with
  | nil => exact h
  | cons events rest =>
    rw [hm, List.forall_mem_cons] at hmeanwhile
    refine Bounded.foldl (a := { a with meanwhile := rest })
      ⟨h.cell, h.agenda, hmeanwhile.2⟩ fun event hevent b hb => ?_
    exact hmeanwhile.1 b (hb ▸ hevent)

theorem Bounded.emit (h : a.Bounded P) (text : String) : (a.emit text).Bounded P := by
  refine Bounded.foldl (a := { a with log := a.log ++ [Text.asLine text] })
    ⟨h.cell, h.agenda, h.meanwhile⟩ ?_
  intro event hevent
  obtain ⟨entry, hentry, rfl⟩ := List.mem_map.mp hevent
  exact h.agenda entry (List.mem_of_mem_filter hentry)

theorem Bounded.expire (h : a.Bounded P) : a.expire.Bounded P := by
  have hinfo : (a.info "time budget exhausted").Bounded P := by
    unfold info
    split
    · exact h.emit _
    · exact h
  exact ⟨hinfo.cell, hinfo.agenda, hinfo.meanwhile⟩

end Arena

namespace Stage

variable {s : Stage}

/-- All that the process was sent. -/
def sent (s : Stage) : List String :=
  s.session.process.received

theorem settle_toArena (s : Stage) : s.settle.toArena = s.toArena := by
  unfold settle
  split <;> rfl

theorem settle_process (s : Stage) : s.settle.session.process = s.session.process := by
  unfold settle
  split <;> rfl

theorem settle_id (s : Stage) : s.settle.session.id = s.session.id := by
  unfold settle
  split <;> rfl

theorem settle_killed (h : s.session.killed = true) : s.settle.session.killed = true := by
  unfold settle
  split
  · exact s.session.killed_kill
  · exact h

/-- Bounds survive every change of the stage. -/
theorem course_bounded (P : Int → Prop) :
    Course fun s s' => s.toArena.Bounded P → s'.toArena.Bounded P where
  refl _ h := h
  trans h h' := h' ∘ h
  settle s h := by rwa [settle_toArena]
  elapse s h := by
    rw [around, settle_toArena]
    exact h.elapse
  emit s text h := by
    rw [around, settle_toArena]
    exact h.emit text
  expire s h := by
    rw [around, settle_toArena]
    exact h.expire
  kill _ h := h
  session _ _ _ h := h
  witness _ _ h := h

theorem later_around (s : Stage) (f : Arena → Arena) :
    s.session.Later (s.around f).session := by
  have hprocess : (s.around f).session.process = s.session.process := settle_process _
  exact ⟨settle_id _, hprocess.symm ▸ List.prefix_refl _, fun h => settle_killed h⟩

/-- A conversation only adds to what was sent. -/
theorem course_later : Course fun s s' => s.session.Later s'.session where
  refl s := Session.Later.refl s.session
  trans := Session.Later.trans
  settle s := s.later_around id
  elapse s := s.later_around _
  emit s _ := s.later_around _
  expire s := s.later_around _
  kill s := s.session.later_kill
  session _ _ h := h
  witness s _ := Session.Later.refl s.session

end Stage

namespace Work

variable {α : Type} {s : Stage} {Q : α → Stage → Prop}

/-! ## Telling -/

theorem yields_abort (reason : Abort) : (abort reason : Work α).Yields s Q := by
  refine yields_bind (yields_get (yields_bind (yields_modify ?_)))
  dsimp only
  split <;> exact yields_bind fun _ _ _ => yields_throw _

/-- What becomes of a text: a killed process does not hear it, one that is gone takes only nothing,
and any other takes it in. -/
def Tells (text : String) (s s' : Stage) : Prop :=
  s'.session.killed = true ∨
    (s'.session.process = s.session.process.feed text ∧ s.session.process.gone = false) ∨
    (s'.session.process = s.session.process ∧ text = "")

theorem around_process (f : Arena → Arena) (s : Stage) :
    (s.around f).session.process = s.session.process := by
  rw [Stage.around, Stage.settle_process]

theorem yields_info (text : String) (s : Stage) : (info text).Yields s fun _ s' =>
    s'.session.process = s.session.process := by
  rintro _ _ ⟨⟩
  exact around_process _ s

theorem yields_echo (text : String) (s : Stage) : (echo text).Yields s fun _ s' =>
    s'.session.process = s.session.process := by
  refine yields_bind (yields_modify (yields_bind (yields_get ?_)))
  have helapse := around_process (·.elapse) s
  split
  · rintro _ _ ⟨⟩
    exact (around_process _ _).trans helapse
  · exact yields_pure helapse

theorem yields_write (text : String) (s : Stage) :
    (write text).Yields s fun _ s' => Tells text s s' := by
  rw [write_eq]
  refine yields_guarded (yields_abort _) fun _ => ?_
  refine yields_bind ((yields_echo text s).mono fun _ s₁ h₁ => yields_bind (yields_get ?_))
  split
  · exact yields_abort _
  · next x hx =>
    refine yields_modify ?_
    unfold Session.send? at hx
    split at hx
    · next hk =>
      cases hx
      exact .inl hk
    · split at hx
      · split at hx
        · next htext =>
          cases hx
          exact .inr (.inr ⟨h₁, htext⟩)
        · cases hx
      · next hgone =>
        cases hx
        refine .inr (.inl ⟨by rw [h₁], ?_⟩)
        rw [← h₁]
        simpa using hgone

section Fed

variable {rs : List String} {i : Nat} {cs : Script}

/-- A process that was not killed takes in a script. -/
theorem yields_tell (h : s.session.killed = true ∨ Process.Fed rs i s.session.process cs)
    {ds : Script} (hds : ∀ c ∈ ds, c.Written) (hask : ∀ c ∈ ds, c ≠ .checkSat) :
    (write (Script.render ds)).Yields s fun _ s' =>
      s'.session.killed = true ∨ Process.Fed rs i s'.session.process (cs ++ ds) := by
  refine ((yields_write _ s).and (Stage.course_later.write _).yields).mono ?_
  rintro _ s' ⟨htells, hlater⟩
  rcases h with hk | hfed
  · exact .inl (hlater.killed hk)
  · rcases htells with hk | ⟨hfeed, -⟩ | ⟨hsame, hempty⟩
    · exact .inl hk
    · exact .inr (hfeed ▸ hfed.tell hds hask)
    · -- nothing was written, so nothing is to be added
      obtain rfl := Script.render_eq_empty hempty
      rw [List.append_nil, hsame]
      exact .inr hfed

end Fed

/-! ## The conversation so far -/

/-- The tests so far were about `past`, with these answers. -/
def Past (rs : List String) (s : Stage) (past : List (Scopes × Answer)) : Prop :=
  ∀ j test w, past[j]? = some (test, w) → Answered rs s.sent j test w

/-- Of what comes before a test, the number of earlier tests says which it is. -/
theorem eq_of_count_eq {before before' sent : List String} (h : before ++ [ask] <+: sent)
    (h' : before' ++ [ask] <+: sent) (hcount : before.count ask = before'.count ask) :
    before = before' := by
  have hne : ∀ {xs ys : List String}, xs ++ [ask] <+: ys ++ [ask] →
      xs.count ask = ys.count ask → xs = ys := by
    intro xs ys hpre hcount
    rcases List.prefix_concat_iff.mp hpre with heq | hpre
    · exact List.append_cancel_right heq
    · have hle := hpre.sublist.count_le ask
      rw [List.count_append, List.count_singleton_self] at hle
      omega
  rcases List.prefix_or_prefix_of_prefix h h' with hpre | hpre
  · exact hne hpre hcount
  · exact (hne hpre hcount.symm).symm

theorem text_inj {w w' : Answer} (h : w.text = w'.text) : w = w' := by
  revert h
  cases w <;> cases w' <;> decide

/-- The answer is right about the test. -/
def Right (x : Scopes × Answer) : Prop :=
  (x.2 = .sat → x.1.Satisfiable) ∧ (x.2 = .unsat → ¬ x.1.Satisfiable)

theorem right_sat {t : Scopes} (h : t.Satisfiable) : Right (t, .sat) :=
  ⟨fun _ => h, nofun⟩

theorem right_unsat {t : Scopes} (h : ¬ t.Satisfiable) : Right (t, .unsat) :=
  ⟨nofun, fun _ => h⟩

/-- Answers are true if they are right about the tests they belong to. -/
theorem truthful_of_past {rs : List String} {past : List (Scopes × Answer)} (h : Past rs s past)
    (hcount : s.sent.count ask ≤ past.length) (htrue : ∀ x ∈ past, Right x) :
    Truthful rs s.sent := by
  intro before line hpre hline
  have hlt : before.count ask < past.length := by
    have hle := hpre.sublist.count_le ask
    rw [List.count_append, List.count_singleton_self] at hle
    omega
  obtain ⟨before', line', hpre', hcount', hline', htrim, htext⟩ :=
    h _ _ _ (List.getElem?_eq_getElem hlt)
  obtain rfl := eq_of_count_eq hpre hpre' hcount'.symm
  rw [hline, Option.some.injEq] at hline'
  subst hline'
  have hright := htrue _ (List.getElem_mem hlt)
  exact ⟨fun hsat => ⟨_, htext, hright.1 (text_inj (htrim.symm.trans hsat))⟩,
    fun hunsat => ⟨_, htext, hright.2 (text_inj (htrim.symm.trans hunsat))⟩⟩

/-- What was sent means `t`, unless the solver was killed; `past` are the tests so far with their
answers; the bounds that can be seen satisfy `P`. -/
structure At (rs : List String) (P : Int → Prop) (s : Stage) (past : List (Scopes × Answer))
    (t : Scopes) : Prop where
  bounded : s.toArena.Bounded P
  answered : Past rs s past
  now : s.session.killed = true ∨ Process.Heard rs past.length s.session.process t

variable {rs : List String} {P : Int → Prop} {past : List (Scopes × Answer)} {t t' : Scopes}

/-- A piece of work that succeeds leaves the past as it was. -/
theorem At.yields (h : At rs P s past t) {w : Work α} (hw : ∀ {R}, Stage.Course R → w.Moves R)
    (hnow : w.Yields s fun _ s' =>
      s'.session.killed = true ∨ Process.Heard rs past.length s'.session.process t') :
    w.Yields s fun _ s' => At rs P s' past t' := by
  refine (((hw (Stage.course_bounded P)).yields.and (hw Stage.course_later).yields).and
    hnow).mono ?_
  rintro a s' ⟨⟨hbounded, hlater⟩, hnow⟩
  exact ⟨hbounded h.bounded, fun j test w hj => (h.answered j test w hj).mono hlater.received, hnow⟩

theorem At.quiet (h : At rs P s past t) {w : Work α} (hw : ∀ {R}, Stage.Course R → w.Moves R)
    (hsame : w.Yields s fun _ s' => s'.session.process = s.session.process) :
    w.Yields s fun _ s' => At rs P s' past t := by
  refine h.yields hw ((hsame.and (hw Stage.course_later).yields).mono ?_)
  rintro a s' ⟨hprocess, hlater⟩
  rcases h.now with hk | hheard
  · exact .inl (hlater.killed hk)
  · exact .inr (hprocess ▸ hheard)

/-- A diagnostic changes nothing in the conversation. -/
theorem At.info (h : At rs P s past t) (text : String) :
    (Work.info text).Yields s fun _ s' => At rs P s' past t :=
  h.quiet (fun hR => hR.info text) (yields_info text s)

/-- A text of legal commands adds to what the text so far means. -/
theorem At.write (h : At rs P s past t) {cs : Script} (haccept : t.acceptAll cs = some t')
    (hdecl : ∀ x τ, Command.declare x τ ∈ cs → x.Readable) (hask : ∀ c ∈ cs, c ≠ .checkSat) :
    (Work.write (Script.render cs)).Yields s fun _ s' => At rs P s' past t' := by
  refine h.yields (fun hR => hR.write _) ?_
  rcases h.now with hk | ⟨cs₀, hfed, hmeans⟩
  · exact (Stage.course_later.write _).yields.mono fun _ _ hlater => .inl (hlater.killed hk)
  · have hmeans' := hmeans.append haccept hdecl
    have hwritten : ∀ c ∈ cs, c.Written := fun c hc =>
      (hmeans'.readable c (List.mem_append_right _ hc)).written
    exact (yields_tell (.inr hfed) hwritten hask).mono fun _ _ hs' =>
      hs'.imp_right fun hfed' => ⟨_, hfed', hmeans'⟩

/-- **A script adds to the meaning of what was sent.** -/
theorem At.send (h : At rs P s past t) {script : Except EncodingError Script} {cs : Script}
    (hscript : script = .ok cs) (haccept : t.acceptAll cs = some t')
    (hdecl : ∀ x τ, Command.declare x τ ∈ cs → x.Readable) (hask : ∀ c ∈ cs, c ≠ .checkSat) :
    (Work.send script).Yields s fun _ s' => At rs P s' past t' := by
  subst hscript
  exact h.write haccept hdecl hask

theorem render_singleton (c : Command) : Script.render [c] = c.render := by
  simp [Script.render]

theorem At.push (h : At rs P s past t) :
    Work.push.Yields s fun _ s' => At rs P s' past t.opened := by
  have hwrite := h.write t.acceptAll_push (by simp) (by simp)
  rw [render_singleton] at hwrite
  refine yields_bind (hwrite.mono fun _ s' h' => yields_modify ?_)
  exact ⟨h'.bounded, h'.answered, h'.now⟩

theorem At.pop {ds : List (Symbol × VarSort)} {ts : List Term}
    (h : At rs P s past (t.opened.extend ds ts)) :
    Work.pop.Yields s fun _ s' => At rs P s' past t := by
  have hwrite := h.write (t.acceptAll_pop ds ts) (by simp) (by simp)
  rw [render_singleton] at hwrite
  rw [pop_eq]
  refine yields_guarded (yields_throw _) fun _ => yields_bind (hwrite.mono ?_)
  exact fun _ s' h' => yields_modify ⟨h'.bounded, h'.answered, h'.now⟩

/-! ## Testing -/

/-- A line that is read is one that the process wrote. -/
theorem heard_of_line {l : String} {s' : Stage} (h : receive.start s = (.ok (some l), s')) :
    s.session.receive.1 = .line l ∧ s' = s.heard := by
  rw [start_receive] at h
  split at h
  · next hreply =>
    cases h
    exact ⟨hreply, rfl⟩
  · cases h
  · split at h
    · cases h
    · split at h <;> cases h

/-- A line that is read after a test is the line of the test's number. -/
theorem yields_receive {i : Nat} {p : Process} {cs : Script} (hp : Process.Fed rs i p cs)
    (hgone : p.gone = false) (hs : s.session.process = p.feed ask) :
    receive.Yields s fun line s' => ∀ l, line = some l → rs[i]? = some l ∧
      Process.Fed rs (i + 1) s'.session.process (cs ++ [.checkSat]) := by
  intro line s' hstart l hl
  subst hl
  obtain ⟨hreply, rfl⟩ := heard_of_line hstart
  obtain ⟨htake, hprocess⟩ := Session.take_of_receive hreply
  rw [hs] at htake hprocess
  have hi := hp.line_of_take hgone htake
  obtain ⟨q, hq, hfed, -⟩ := hp.take hi
  refine ⟨hi, ?_⟩
  rw [Stage.heard, around_process]
  exact (hprocess.trans (congrArg Prod.snd hq)) ▸ hfed

/-- What a line is taken for is what it says. -/
theorem yields_judge (required : Bool) (line : Option String) (s : Stage) :
    (judge required line).Yields s fun w s' => ∃ l, line = some l ∧ Text.trim l = w.text ∧
      (required = true → w ≠ .unknown) ∧ s'.session.process = s.session.process := by
  cases line with
  | none => exact yields_abort _
  | some l =>
    refine yields_bind ((yields_echo _ s).mono fun _ s' hs' => ?_)
    split
    · next h => exact yields_pure ⟨l, rfl, h, by simp, hs'⟩
    · split
      · next h => exact yields_pure ⟨l, rfl, h, by simp, hs'⟩
      · split
        · exact yields_abort _
        · next h =>
          simp only [Bool.or_eq_true, decide_eq_true_eq, not_or, ne_eq, not_not] at h
          exact yields_pure ⟨l, rfl, h.2, fun hr => absurd hr h.1, hs'⟩

/-- A test that succeeds was heard, and answered by the line of its number. -/
theorem yields_checkSat {i : Nat} {cs : Script}
    (h : s.session.killed = true ∨ Process.Fed rs i s.session.process cs) (required : Bool) :
    (checkSat required).Yields s fun w s' => s.session.killed = false ∧
      Process.Fed rs i s.session.process cs ∧ s.sent ++ [ask] <+: s'.sent ∧
        (∃ l, rs[i]? = some l ∧ Text.trim l = w.text) ∧ (required = true → w ≠ .unknown) ∧
        Process.Fed rs (i + 1) s'.session.process (cs ++ [.checkSat]) := by
  rw [checkSat_eq]
  refine yields_bind (((yields_write _ s).and (Stage.course_later.write _).yields).mono ?_)
  rintro _ s₁ ⟨htells, hlater₁⟩
  by_cases hk : s₁.session.killed = true
  · refine yields_bind ((Stage.course_later.receive).yields.mono fun line s₂ hlater₂ => ?_)
    exact yields_guarded (yields_abort _) fun hk₂ => absurd (hlater₂.killed hk) hk₂
  · have hk₀ : ¬ s.session.killed = true := fun hk' => hk (hlater₁.killed hk')
    have hfed : Process.Fed rs i s.session.process cs := h.resolve_left hk₀
    obtain ⟨hfeed, hgone⟩ : s₁.session.process = s.session.process.feed ask ∧
        s.session.process.gone = false := by
      rcases htells with hk' | htold | ⟨-, hempty⟩
      · exact absurd hk' hk
      · exact htold
      · exact absurd hempty (by decide)
    have hsent : s.sent ++ [ask] = s₁.sent := by
      rw [Stage.sent, Stage.sent, hfeed, Process.received_feed]
    refine yields_bind (((yields_receive hfed hgone hfeed).and
      (Stage.course_later.receive).yields).mono ?_)
    rintro line s₂ ⟨hline, hlater₂⟩
    refine yields_guarded (yields_abort _) fun _ => (yields_judge required line s₂).mono ?_
    rintro w s' ⟨l, rfl, hw, hdefinite, hsame⟩
    obtain ⟨hl, hfed₂⟩ := hline l rfl
    refine ⟨by simpa using hk₀, hfed, ?_, ⟨l, hl, hw⟩, hdefinite, hsame ▸ hfed₂⟩
    rw [hsent, Stage.sent, Stage.sent, hsame]
    exact hlater₂.received

/-- **A test adds to the answers.** -/
theorem At.checkSat (h : At rs P s past t) (required : Bool) :
    (Work.checkSat required).Yields s fun w s' =>
      At rs P s' (past ++ [(t, w)]) t ∧ (required = true → w ≠ .unknown) := by
  rcases h.now with hk | ⟨cs, hfed, hmeans⟩
  · have hdead : s.session.killed = true ∨ Process.Fed rs 0 s.session.process [] := .inl hk
    exact (yields_checkSat hdead required).mono fun _ _ hs' => absurd hk (by simp [hs'.1])
  · refine (((Stage.course_bounded P).checkSat required).yields.and
      ((Stage.course_later.checkSat required).yields.and
        (yields_checkSat (.inr hfed) required))).mono ?_
    rintro w s' ⟨hbounded, hlater, -, -, hsent, ⟨l, hl, hw⟩, hdefinite, hfed'⟩
    refine ⟨⟨hbounded h.bounded, fun j test u hj => ?_, .inr ⟨_, ?_, hmeans.checkSat⟩⟩, hdefinite⟩
    · rcases Nat.lt_or_ge j past.length with hlt | hge
      · rw [List.getElem?_append_left hlt] at hj
        exact (h.answered j test u hj).mono hlater.received
      · rw [List.getElem?_append_right hge] at hj
        have hj0 : j - past.length = 0 := by
          by_contra hne
          rw [List.getElem?_eq_none (by simp; omega)] at hj
          cases hj
        rw [hj0] at hj
        cases hj
        obtain rfl : j = past.length := by omega
        exact ⟨s.sent, l, hsent, hfed.tests, hl, hw, hfed.text ▸ hmeans.text⟩
    · rw [List.length_append, List.length_singleton]
      exact hfed'

end Work

/-! ## Calm stages -/

/-- The cohort is not cancelled, now or later, and nothing happens but at diagnostics. -/
structure Arena.Calm (a : Arena) : Prop where
  running : a.cohort.cancelled = false
  agenda : ∀ event ∈ a.agenda, event.2 ≠ .cancel
  meanwhile : a.meanwhile = []

/-- Nothing from outside breaks in. -/
def Stage.Calm (s : Stage) : Prop :=
  s.toArena.Calm ∧ s.session.killed = false

/-- A calm stage, with the scopes and the witness of another. -/
structure Stage.CalmAs (s s' : Stage) : Prop where
  calm : s'.Calm
  depth : s'.session.depth = s.session.depth
  witness : s'.witness = s.witness

theorem Arena.Calm.emit {a : Arena} (h : a.Calm) (text : String) : (a.emit text).Calm := by
  have hfold : ∀ (events : List Event) {a : Arena}, a.Calm → (∀ event ∈ events, event ≠ .cancel) →
      (events.foldl Arena.happen a).Calm := by
    intro events
    induction events with
    | nil => exact fun h _ => h
    | cons event events ih =>
      intro a h hevents
      rw [List.forall_mem_cons] at hevents
      refine ih ?_ hevents.2
      cases event with
      | cancel => exact absurd rfl hevents.1
      | publish b => exact ⟨h.running, h.agenda, h.meanwhile⟩
  refine hfold _ (a := { a with log := a.log ++ [Text.asLine text] })
    ⟨h.running, h.agenda, h.meanwhile⟩ fun event hevent => ?_
  obtain ⟨entry, hentry, rfl⟩ := List.mem_map.mp hevent
  exact h.agenda entry (List.mem_of_mem_filter hentry)

theorem Arena.Calm.elapse {a : Arena} (h : a.Calm) : a.elapse = a := by
  rw [Arena.elapse, h.meanwhile]

namespace Stage

variable {s s' : Stage}

/-- On a calm stage nothing is killed by what happens around. -/
theorem around_of_calm {f : Arena → Arena} (hf : (f s.toArena).Calm) :
    s.around f = { s with toArena := f s.toArena } := by
  unfold Stage.around settle
  simp [hf.running]

theorem Calm.calmAs (h : s.Calm) {f : Arena → Arena} (hf : (f s.toArena).Calm) :
    s.CalmAs (s.around f) := by
  rw [around_of_calm hf]
  exact ⟨⟨hf, h.2⟩, rfl, rfl⟩

end Stage

theorem Stage.Calm.elapse {s : Stage} (h : s.Calm) : s.around (·.elapse) = s := by
  rw [Stage.around_of_calm (f := (·.elapse)) (h.1.elapse.symm ▸ h.1), h.1.elapse]

namespace Work

variable {s : Stage}

theorem does_info (h : s.Calm) (text : String) : (info text).Does s fun _ s' => s.CalmAs s' := by
  refine ⟨⟨⟩, _, rfl, h.calmAs ?_⟩
  unfold Arena.info
  split
  · exact h.1.emit text
  · exact h.1

theorem does_echo (h : s.Calm) (text : String) : (echo text).Does s fun _ s' => s.CalmAs s' := by
  refine does_bind (does_modify (does_bind (does_get ?_)))
  rw [h.elapse]
  split
  · exact ⟨⟨⟩, _, rfl, h.calmAs (h.1.emit text)⟩
  · exact does_pure ⟨h, rfl, rfl⟩

/-- A process that is not gone takes in what it is sent. -/
theorem does_write (h : s.Calm) (hgone : s.session.process.gone = false) (text : String) :
    (write text).Does s fun _ s' => s.CalmAs s' := by
  rw [write_eq]
  refine does_guarded (by simp [h.2]) (does_bind ?_)
  refine (((does_echo h text).and (yields_echo text s))).mono ?_
  rintro _ s₁ ⟨h₁, hprocess⟩
  have hsend : s₁.session.send? text =
      some { s₁.session with process := s₁.session.process.feed text } := by
    simp [Session.send?, h₁.calm.2, hprocess, hgone]
  refine does_bind (does_get ?_)
  rw [hsend]
  exact does_modify ⟨h₁.calm, h₁.depth, h₁.witness⟩

theorem does_send (h : s.Calm) (hgone : s.session.process.gone = false)
    {script : Except EncodingError Script} {cs : Script} (hscript : script = .ok cs) :
    (send script).Does s fun _ s' => s.CalmAs s' := by
  subst hscript
  exact does_write h hgone _

theorem does_push (h : s.Calm) (hgone : s.session.process.gone = false) :
    push.Does s fun _ s' => s'.Calm ∧ s'.session.depth = s.session.depth + 1 ∧
      s'.witness = s.witness := by
  refine does_bind ((does_write h hgone _).mono fun _ s' h' => does_modify ?_)
  exact ⟨h'.calm, congrArg (· + 1) h'.depth, h'.witness⟩

theorem does_pop (h : s.Calm) (hgone : s.session.process.gone = false) {d : Nat}
    (hdepth : s.session.depth = d + 1) :
    pop.Does s fun _ s' => s'.Calm ∧ s'.session.depth = d ∧ s'.witness = s.witness := by
  rw [pop_eq]
  refine does_guarded (by omega) (does_bind ?_)
  refine (does_write h hgone _).mono fun _ s' h' => does_modify ?_
  refine ⟨h'.calm, ?_, h'.witness⟩
  show s'.session.depth - 1 = d
  rw [h'.depth, hdepth, Nat.add_sub_cancel]

variable {rs : List String} {i : Nat} {t t' : Scopes}

/-- A test succeeds if a definite answer is due. -/
theorem does_checkSat (h : s.Calm) {cs : Script} (hfed : Process.Fed rs i s.session.process cs)
    {l : String} (hl : rs[i]? = some l) (hdefinite : Text.trim l = "sat" ∨ Text.trim l = "unsat")
    (required : Bool) : (checkSat required).Does s fun _ s' => s.CalmAs s' := by
  obtain ⟨q, htake, -, -⟩ := hfed.take hl
  have hgone := hfed.not_gone (List.getElem?_eq_some_iff.mp hl).1
  rw [checkSat_eq]
  refine does_bind (((does_write h hgone _).and (yields_write _ s)).mono ?_)
  rintro _ s₁ ⟨h₁, htells⟩
  have hfeed : s₁.session.process = s.session.process.feed ask := by
    rcases htells with hk | ⟨hfeed, -⟩ | ⟨-, hempty⟩
    · exact absurd hk (by simp [h₁.calm.2])
    · exact hfeed
    · exact absurd hempty (by decide)
  have hreceive : s₁.session.receive = (.line l, { s₁.session with process := q }) := by
    rw [Session.receive_of_alive h₁.calm.2, hfeed, htake]
  have h₂ : ({ s₁ with session := { s₁.session with process := q } } : Stage).Calm := h₁.calm
  have hheard : s₁.heard = { s₁ with session := { s₁.session with process := q } } := by
    rw [Stage.heard, hreceive]
    exact h₂.elapse
  refine does_bind ⟨some l, { s₁ with session := { s₁.session with process := q } }, ?_, ?_⟩
  · rw [start_receive, hreceive, hheard]
  · refine does_guarded (by simp [h₂.2]) (does_bind ?_)
    refine (does_echo h₂ _).mono fun _ s' h' => ?_
    have hfinal : s.CalmAs s' := ⟨h'.calm, h'.depth.trans h₁.depth, h'.witness.trans h₁.witness⟩
    by_cases hsat : Text.trim l = "sat"
    · rw [if_pos hsat]
      exact does_pure hfinal
    · rw [if_neg hsat, if_pos (hdefinite.resolve_left hsat)]
      exact does_pure hfinal

/-- The conversation so far, on a calm stage with `depth` open scopes. -/
structure Live (rs : List String) (P : Int → Prop) (s : Stage) (past : List (Scopes × Answer))
    (t : Scopes) (depth : Nat) : Prop where
  calm : s.Calm
  depth : s.session.depth = depth
  now : At rs P s past t

variable {α : Type} {P : Int → Prop} {past past' : List (Scopes × Answer)} {depth : Nat}

theorem Live.fed (h : Live rs P s past t depth) :
    ∃ cs, Process.Fed rs past.length s.session.process cs := by
  obtain ⟨cs, hfed, -⟩ := h.now.now.resolve_left (by simp [h.calm.2])
  exact ⟨cs, hfed⟩

theorem Live.count_ask (h : Live rs P s past t depth) : s.sent.count ask = past.length := by
  obtain ⟨cs, hfed⟩ := h.fed
  exact hfed.tests

theorem Live.not_gone (h : Live rs P s past t depth) (hdue : past.length < rs.length) :
    s.session.process.gone = false := by
  obtain ⟨cs, hfed⟩ := h.fed
  exact hfed.not_gone hdue

/-- Before the first test, no more lines are due than the process can still give. -/
theorem Live.length_le_supply (h : Live rs P s [] t depth) :
    rs.length ≤ s.session.process.supply := by
  obtain ⟨cs, hfed⟩ := h.fed
  have hfuture : s.session.process.future = rs := hfed.future
  rw [← hfuture]
  exact s.session.process.length_future_le

/-- Work that succeeds takes the conversation as far as is known of its success. -/
theorem Live.does (h : Live rs P s past t depth) {w : Work α}
    (hdoes : w.Does s fun _ s' => s.CalmAs s')
    (hyields : w.Yields s fun _ s' => At rs P s' past' t') :
    w.Does s fun _ s' => Live rs P s' past' t' depth :=
  (hdoes.and hyields).mono fun _ _ ⟨hcalm, hat⟩ =>
    ⟨hcalm.calm, hcalm.depth.trans h.depth, hat⟩

theorem Live.info (h : Live rs P s past t depth) (text : String) :
    (Work.info text).Does s fun _ s' => Live rs P s' past t depth :=
  h.does (does_info h.calm text) (h.now.info text)

theorem Live.push (h : Live rs P s past t depth) (hdue : past.length < rs.length) :
    Work.push.Does s fun _ s' => Live rs P s' past t.opened (depth + 1) :=
  ((does_push h.calm (h.not_gone hdue)).and h.now.push).mono fun _ _ ⟨hcalm, hat⟩ =>
    ⟨hcalm.1, hcalm.2.1.trans (by rw [h.depth]), hat⟩

theorem Live.pop {ds : List (Symbol × VarSort)} {ts : List Term}
    (h : Live rs P s past (t.opened.extend ds ts) (depth + 1)) (hdue : past.length < rs.length) :
    Work.pop.Does s fun _ s' => Live rs P s' past t depth :=
  ((does_pop h.calm (h.not_gone hdue) h.depth).and h.now.pop).mono fun _ _ ⟨hcalm, hat⟩ =>
    ⟨hcalm.1, hcalm.2.1, hat⟩

/-- A script that can be written is sent while a line is due. -/
theorem Live.send (h : Live rs P s past t depth) (hdue : past.length < rs.length)
    {script : Except EncodingError Script} {cs : Script} (hscript : script = .ok cs)
    (hyields : (Work.send script).Yields s fun _ s' => At rs P s' past t') :
    (Work.send script).Does s fun _ s' => Live rs P s' past t' depth :=
  h.does (does_send h.calm (h.not_gone hdue) hscript) hyields

end Work

end PetriReach
