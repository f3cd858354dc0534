import PetriReach.Proofs.Cohort.Registry
import PetriReach.Proofs.Race.Sequence
import PetriReach.Proofs.Strategy.Encoded

/-!
# Errors of the encoder in a race

An encoder is made without a look at the names of its net. So a name that cannot be written comes up
only in a run, where it ends the run, and with it the race, in an error of the encoder. No other
error of the encoder ever comes up there.

* `Checker.exists_run_encoding_iff`: when some run ends in an error of the encoder.
* `Race.exists_race_encoding_iff`: when some race does.
* `Race.encoding_error_iff_unwritable`: what an encoder that was made can write, and when runs and
  races end so.
-/

namespace PetriReach

open Smt Work

namespace SolverConfig

/-- A solver can be started: that of the library always, a command unless it is empty. -/
def Starts (config : SolverConfig) : Prop :=
  config.kind = .embedded ∨ config.command ≠ []

variable {config : SolverConfig}

theorem starts_of_takes (h : config.takes = true) : config.Starts := by
  simpa [takes, Starts] using h

/-- What can be started starts where its program is there. -/
theorem Starts.exists_launch (h : config.Starts) :
    ∃ programs, config.launch programs (some {}) = .ok {} := by
  obtain ⟨kind, command, debug⟩ := config
  cases kind with
  | embedded => exact ⟨[], rfl⟩
  | process =>
    cases command with
    | nil => exact absurd h (by simp [Starts])
    | cons program args => exact ⟨[Text.beforeNul program], if_pos List.mem_cons_self⟩

end SolverConfig

/-! ## Runs -/

namespace Work

/-- A process that has not exited takes what it is told. -/
theorem exists_write {s : Stage} (halive : s.session.killed = false)
    (hgone : s.session.process.gone = false) (text : String) :
    ∃ s', (write text).start s = (.ok (), s') := by
  have hprocess := s.echoed_process text
  have hsend : ∃ x, (s.echoed text).session.send? text = some x := by
    unfold Session.send?
    rw [hprocess, hgone]
    split
    · exact ⟨_, rfl⟩
    · exact ⟨_, rfl⟩
  obtain ⟨x, hx⟩ := hsend
  rw [start_write_of_alive halive, hx]
  exact ⟨_, rfl⟩

end Work

namespace Checker

variable {c : Checker} {a : Arena}

/-- A run that ends in an error of the encoder had a solver, and its strategy ended so. -/
theorem run_encoding {x : EncodingError} (h : (c.run a).outcome = .error (.encoding x)) :
    c.config.Starts ∧ ∃ s, (c.prove.start s).1 = .error (.encoding x) := by
  cases hstart : (a.info (c.label "RUNNING")).start c.config with
  | mk result a' =>
    cases result with
    | error reason =>
      rw [run, hstart] at h
      cases h
    | ok session =>
      rw [run_of_start hstart] at h
      refine ⟨?_, _, leave_error _ _ _ _ h⟩
      obtain ⟨b, hb, -⟩ := Arena.start_ok hstart
      exact SolverConfig.starts_of_takes (SolverConfig.takes_of_launch hb)

theorem exists_ran_of_launch (hlaunch : c.config.launch a.programs (some {}) = .ok {})
    (hb : a.backends.head?.getD (some {}) = some {}) : ∃ session s, c.Ran a {} session s := by
  have hsome : (c.run a).session.isSome = true := by
    rw [(c.run_starts a).2.2, Arena.backend?_eq, hb, hlaunch]
    rfl
  obtain ⟨session, hsession⟩ := Option.isSome_iff_exists.mp hsome
  obtain ⟨s, hs⟩ := exists_ran hb hsession
  exact ⟨session, s, hs⟩

/-- A place whose name cannot be written ends every run that starts a solver. -/
theorem run_of_not_writable (hlaunch : c.config.launch a.programs (some {}) = .ok {})
    (hb : a.backends.head?.getD (some {}) = some {}) (hw : ¬ c.encoder.Writable) :
    ∃ x, (c.run a).outcome = .error (.encoding x) := by
  obtain ⟨session, s, hran⟩ := exists_ran_of_launch hlaunch hb
  obtain ⟨x, hx, -⟩ := start_of_not_writable hw s
  exact ⟨x, hran.encoding x hx⟩

/-- A transition whose name cannot be written ends every run of the state equation that is not
called off before. -/
theorem run_of_not_countable (hlaunch : c.config.launch a.programs (some {}) = .ok {})
    (hb : a.backends.head?.getD (some {}) = some {}) (hcalm : a.Calm)
    (hmethod : c.method = .stateEquation) (hw : c.encoder.Writable) (hc : ¬ c.encoder.Countable) :
    ∃ x, (c.run a).outcome = .error (.encoding x) := by
  obtain ⟨session, s, hran⟩ := exists_ran_of_launch hlaunch hb
  have hgone : s.session.process.gone = false := by rw [hran.process]; rfl
  cases hts : c.encoder.declareTransitions with
  | ok ts => exact absurd (Encoder.countable_of_declareTransitions hts) hc
  | error x =>
    obtain ⟨ps, hps⟩ : ∃ ps, c.encoder.declarePlaces none = .ok ps :=
      ⟨_, Encoder.declarePlaces_eq hw none⟩
    obtain ⟨s', hs'⟩ := exists_write (hran.calm hcalm).2 hgone ps.render
    have hplaces : (send (c.encoder.declarePlaces none)).start s = (.ok (), s') := by
      rw [hps]
      exact hs'
    refine ⟨x, hran.encoding x ?_⟩
    rw [prove, hmethod]
    dsimp only
    rw [Strategy.stateEquation, start_bind, hplaces]
    dsimp only
    rw [hts]
    rfl

section Parsed

variable {text goal : String} {net : Net} {f : Formula} {method : Method} {encoding : Encoding}
  {config : SolverConfig} {heedsBound : Bool}

/-- **No error of the encoder stops a strategy** if the names that it needs can be written. -/
theorem encoded_prove (hnet : Net.parse text = .ok net)
    (hc : make method net f encoding config heedsBound = .ok c) (hw : c.encoder.Writable)
    (hcount : method = .stateEquation → c.encoder.Countable) : c.prove.Encoded := by
  have hn := Net.wellFormed_of_parse hnet
  obtain ⟨enc, henc, rfl, hover, -⟩ := make_ok hc
  have hunrolls := Encoder.unrollable_of_writable hw hn rfl hover
  unfold prove
  cases method with
  | stateEquation =>
    have hint : enc = .integer := henc
    have htotal := (Encoder.total_iff hn rfl hover).mpr ⟨hw, fun _ => hcount rfl⟩
    exact Strategy.encoded_stateEquation htotal hint
  | induction => exact Strategy.encoded_induction hunrolls
  | bmc => exact Strategy.encoded_bmc hunrolls heedsBound
  | kInduction => exact Strategy.encoded_kInduction hunrolls

/-- **When a run can end in an error of the encoder.** -/
theorem exists_run_encoding_iff (hnet : Net.parse text = .ok net)
    (hc : make method net f encoding config heedsBound = .ok c) :
    (∃ a x, (c.run a).outcome = .error (.encoding x)) ↔
      config.Starts ∧ ((∃ p ∈ net.places, isQuotable p.id = false) ∨
        method = .stateEquation ∧ ∃ t ∈ net.transitions, isQuotable t.id = false) := by
  have hprove := encoded_prove hnet hc
  obtain ⟨enc, -, rfl, -, -⟩ := make_ok hc
  constructor
  · rintro ⟨a, x, hx⟩
    obtain ⟨hstarts, s, hs⟩ := run_encoding hx
    refine ⟨hstarts, ?_⟩
    by_contra hnames
    simp only [not_or, not_exists, not_and, Bool.not_eq_false] at hnames
    exact hprove hnames.1 hnames.2 s _ _ (Prod.ext hs rfl) x rfl
  · rintro ⟨hstarts, hnames⟩
    obtain ⟨programs, hlaunch⟩ := hstarts.exists_launch
    refine ⟨.alone programs (some {}), ?_⟩
    by_cases hw : ∀ p ∈ net.places, isQuotable p.id = true
    · obtain ⟨p, hp, hq⟩ | ⟨hmethod, t, ht, hq⟩ := hnames
      · rw [hw p hp] at hq
        cases hq
      · have hcalm := Arena.alone_calm programs (some {})
        refine run_of_not_countable hlaunch rfl hcalm hmethod hw fun hcount => ?_
        have htrue := hcount t ht
        rw [hq] at htrue
        cases htrue
    · exact run_of_not_writable hlaunch rfl hw

end Parsed

end Checker

/-! ## Races -/

namespace Method

variable {selected : List Method} {m : Method}

theorem mem_lineUp (h : m ∈ selected) : m ∈ lineUp selected := by
  refine List.mem_filter.mpr ⟨?_, by simp [h]⟩
  cases m <;> decide

/-- The state equation comes first. -/
theorem head?_lineUp (h : .stateEquation ∈ selected) :
    (lineUp selected).head? = some .stateEquation := by
  rw [lineUp, all, List.filter_cons_of_pos (by simp [h])]
  rfl

end Method

namespace Race

variable {s : State} {c : Checker} {cs : List Checker} {x : Fault}

theorem fault_step_error (h : (c.run s.arena).outcome = .error x) :
    (s.step c).fault = s.fault.or (some x) := by
  rw [State.step, h]

/-- The first fault of a race is kept. -/
theorem fault_foldl_of_some (h : s.fault = some x) : (cs.foldl State.step s).fault = some x := by
  induction cs generalizing s with
  | nil => exact h
  | cons c cs ih =>
    refine ih ?_
    cases hrun : (c.run s.arena).outcome with
    | ok v =>
      obtain ⟨b, -, -, hstep⟩ := step_ok hrun
      rw [hstep]
      exact h
    | error y =>
      rw [fault_step_error hrun, h]
      rfl

/-- The fault of a race is that of one of its runs. -/
theorem fault_foldl (h : (cs.foldl State.step s).fault = some x) :
    s.fault = some x ∨ ∃ c ∈ cs, ∃ a, (c.run a).outcome = .error x := by
  induction cs generalizing s with
  | nil => exact .inl h
  | cons c cs ih =>
    obtain hfirst | ⟨d, hd, a, hrun⟩ := ih h
    · cases hrun : (c.run s.arena).outcome with
      | ok v =>
        obtain ⟨b, -, -, hstep⟩ := step_ok hrun
        rw [hstep] at hfirst
        exact .inl hfirst
      | error y =>
        rw [fault_step_error hrun] at hfirst
        cases hs : s.fault with
        | some z =>
          rw [hs] at hfirst
          exact .inl hfirst
        | none =>
          rw [hs] at hfirst
          cases hfirst
          exact .inr ⟨c, List.mem_cons_self, s.arena, hrun⟩
    · exact .inr ⟨d, List.mem_cons_of_mem c hd, a, hrun⟩

/-- A race that is called off has no fault, if only the names of places can be written. -/
theorem fault_foldl_of_cancelled (hcancelled : s.arena.cohort.cancelled = true)
    (hw : ∀ c ∈ cs, c.encoder.Writable) : (cs.foldl State.step s).fault = s.fault := by
  induction cs generalizing s with
  | nil => rfl
  | cons c cs ih =>
    obtain ⟨hnone, -⟩ := Checker.run_late hcancelled (hw c List.mem_cons_self)
    have huntouched := Checker.run_untouched hcancelled c
    obtain ⟨b, hb, -, hstep⟩ := step_ok hnone
    have hstill : b.cohort.cancelled = true :=
      (huntouched.trans hb).aged.cohort.cancelled hcancelled
    rw [List.foldl_cons, ih ?_ fun d hd => hw d (List.mem_cons_of_mem c hd), hstep]
    rw [hstep]
    exact (b.cohort.finish_cases _ _).2.mpr (.inl hstill)

/-- A race ends in the fault of its checkers. -/
theorem run_eq_error_iff {r : Race} {a : Arena} : (r.run a).1 = .error x ↔
    (r.checkers.foldl State.step { arena := r.prepare a }).fault = some x := by
  unfold Race.run
  split
  · next hempty =>
    rw [List.isEmpty_iff.mp hempty]
    constructor
    · intro h
      cases h
    · intro h
      cases h
  · dsimp only
    cases (r.checkers.foldl State.step { arena := r.prepare a }).fault with
    | none => simp
    | some y => simp

/-- The fault of the first checker is that of the race. -/
theorem run_of_first {r : Race} {a : Arena} (hfirst : r.checkers = c :: cs)
    (h : (c.run (r.prepare a)).outcome = .error x) : (r.run a).1 = .error x := by
  rw [run_eq_error_iff, hfirst, List.foldl_cons]
  exact fault_foldl_of_some (fault_step_error (s := { arena := r.prepare a }) h)

theorem cancelled_prepare {r : Race} (hbudget : r.budget ≤ 0) (a : Arena) :
    (r.prepare a).cohort.cancelled = true := by
  unfold prepare
  dsimp only
  rw [if_pos hbudget]
  rfl

theorem prepare_leaves (r : Race) (a : Arena) :
    (r.prepare a).backends = a.backends ∧ (r.prepare a).programs = a.programs := by
  unfold prepare
  dsimp only
  split
  · unfold Arena.expire Arena.info
    dsimp only
    split
    · rw [Arena.emit_eq]
      exact ⟨rfl, rfl⟩
    · exact ⟨rfl, rfl⟩
  · exact ⟨rfl, rfl⟩

theorem next_prepare_alone (r : Race) (programs : List String) (b : Option Backend) :
    (r.prepare (.alone programs b)).backends.head?.getD (some {}) = b := by
  rw [(r.prepare_leaves _).1]
  rfl

theorem launch_prepare_alone (r : Race) {programs : List String} (b : Option Backend)
    {config config' : SolverConfig} (hconfig : config' = config)
    (h : config.launch programs (some {}) = .ok {}) :
    config'.launch (r.prepare (.alone programs b)).programs (some {}) = .ok {} := by
  rw [(r.prepare_leaves _).2, hconfig]
  exact h

section Parsed

variable {text : String} {net : Net} {f : Formula} {o : RaceOptions} {r : Race}

theorem budget_of_make (h : make net f o = .ok r) : r.budget = o.budget := by
  obtain ⟨cs, -, h⟩ := exists_of_bind_ok h
  cases h
  rfl

theorem net_of_make {m : Method} {encoding : Encoding} {config : SolverConfig} {heedsBound : Bool}
    (h : Checker.make m net f encoding config heedsBound = .ok c) : c.encoder.net = net := by
  obtain ⟨enc, -, rfl, -, -⟩ := Checker.make_ok h
  rfl

/-- A race with a method has a first checker; if the state equation takes part, it comes first. -/
theorem exists_first (h : make net f o = .ok r) (hsome : o.methods ≠ []) : ∃ c cs,
    r.checkers = c :: cs ∧ c.config = o.config ∧ c.encoder.net = net ∧
      (.stateEquation ∈ o.methods → c.method = .stateEquation) := by
  obtain ⟨hmethods, hmake⟩ := make_ok h
  cases hchecks : r.checkers with
  | nil =>
    obtain ⟨m, hm⟩ := List.exists_mem_of_ne_nil _ hsome
    have hmem := Method.mem_lineUp hm
    rw [← hmethods, hchecks] at hmem
    cases hmem
  | cons c cs =>
    have hc := hmake c (hchecks ▸ List.mem_cons_self)
    refine ⟨c, cs, rfl, config_of_make hc, net_of_make hc, fun hmem => ?_⟩
    have hhead := congrArg List.head? hmethods
    rw [hchecks, Method.head?_lineUp hmem] at hhead
    exact Option.some.inj hhead

theorem race_of_not_writable (hrace : make net f o = .ok r) {programs : List String}
    (hlaunch : o.config.launch programs (some {}) = .ok {})
    (hsome : o.methods ≠ []) (hplaces : ∃ p ∈ net.places, isQuotable p.id = false) :
    ∃ x, (r.run (.alone programs (some {}))).1 = .error (.encoding x) := by
  obtain ⟨c, cs, hfirst, hconfig, hnet, -⟩ := exists_first hrace hsome
  have hw : ¬ c.encoder.Writable := by
    rw [Encoder.Writable, hnet]
    simpa using hplaces
  obtain ⟨x, hx⟩ := Checker.run_of_not_writable
    (launch_prepare_alone r (some {}) hconfig hlaunch) (next_prepare_alone r _ _) hw
  exact ⟨x, run_of_first hfirst hx⟩

theorem race_of_not_countable (hrace : make net f o = .ok r) {programs : List String}
    (hlaunch : o.config.launch programs (some {}) = .ok {})
    (hmem : .stateEquation ∈ o.methods) (hbudget : 0 < o.budget)
    (hplaces : ∀ p ∈ net.places, isQuotable p.id = true)
    (hcounts : ∃ t ∈ net.transitions, isQuotable t.id = false) :
    ∃ x, (r.run (.alone programs (some {}))).1 = .error (.encoding x) := by
  obtain ⟨c, cs, hfirst, hconfig, hnet, hmethod⟩ := exists_first hrace (List.ne_nil_of_mem hmem)
  have hw : c.encoder.Writable := by
    rw [Encoder.Writable, hnet]
    exact hplaces
  have hc : ¬ c.encoder.Countable := by
    rw [Encoder.Countable, hnet]
    simpa using hcounts
  have hcalm : (r.prepare (.alone programs (some {}))).Calm :=
    (prepare_follows (r := r) (a := .alone programs (some {})) ⟨rfl, rfl⟩
      (budget_of_make hrace ▸ hbudget) o.config).1.calm rfl
  obtain ⟨x, hx⟩ := Checker.run_of_not_countable
    (launch_prepare_alone r (some {}) hconfig hlaunch) (next_prepare_alone r _ _) hcalm
    (hmethod hmem) hw hc
  exact ⟨x, run_of_first hfirst hx⟩

/-- A race that is called off at once gets no further than to the names of places. -/
theorem names_of_race {a : Arena} {x : EncodingError} (hnet : Net.parse text = .ok net)
    (hrace : make net f o = .ok r) (h : (r.run a).1 = .error (.encoding x)) :
    o.config.Starts ∧ (o.methods ≠ [] ∧ (∃ p ∈ net.places, isQuotable p.id = false) ∨
      .stateEquation ∈ o.methods ∧ 0 < o.budget ∧
        ∃ t ∈ net.transitions, isQuotable t.id = false) := by
  obtain ⟨hmethods, hmake⟩ := make_ok hrace
  rw [run_eq_error_iff] at h
  obtain hnone | ⟨c, hc, a', hrun⟩ := fault_foldl h
  · cases hnone
  obtain ⟨hstarts, hnames⟩ := (Checker.exists_run_encoding_iff hnet (hmake c hc)).mp ⟨a', x, hrun⟩
  have hmem : c.method ∈ Method.lineUp o.methods := hmethods ▸ List.mem_map_of_mem hc
  refine ⟨hstarts, ?_⟩
  by_cases hplaces : ∃ p ∈ net.places, isQuotable p.id = false
  · refine .inl ⟨fun hempty => ?_, hplaces⟩
    rw [hempty] at hmem
    cases hmem
  · obtain ⟨hmethod, hcounts⟩ := hnames.resolve_left hplaces
    rw [hmethod] at hmem
    refine .inr ⟨by simpa [Method.lineUp, Method.all] using hmem, ?_, hcounts⟩
    by_contra hbudget
    have hcancelled := cancelled_prepare (r := r) (by rw [budget_of_make hrace]; omega) a
    have hw : ∀ d ∈ r.checkers, d.encoder.Writable := by
      intro d hd
      rw [Encoder.Writable, net_of_make (hmake d hd)]
      simpa using hplaces
    rw [fault_foldl_of_cancelled hcancelled hw] at h
    cases h

/-- **When a race can end in an error of the encoder.** -/
theorem exists_race_encoding_iff (hnet : Net.parse text = .ok net) (hrace : make net f o = .ok r) :
    (∃ a x, (r.run a).1 = .error (.encoding x)) ↔
      o.config.Starts ∧ (o.methods ≠ [] ∧ (∃ p ∈ net.places, isQuotable p.id = false) ∨
        .stateEquation ∈ o.methods ∧ 0 < o.budget ∧
          ∃ t ∈ net.transitions, isQuotable t.id = false) := by
  constructor
  · rintro ⟨a, x, hx⟩
    exact names_of_race hnet hrace hx
  · rintro ⟨hstarts, hnames⟩
    obtain ⟨programs, hlaunch⟩ := hstarts.exists_launch
    refine ⟨.alone programs (some {}), ?_⟩
    by_cases hplaces : ∃ p ∈ net.places, isQuotable p.id = false
    · have hsome : o.methods ≠ [] := hnames.elim (·.1) fun h => List.ne_nil_of_mem h.1
      exact race_of_not_writable hrace hlaunch hsome hplaces
    · obtain ⟨hmem, hbudget, hcounts⟩ := hnames.resolve_left fun h => hplaces h.2
      exact race_of_not_countable hrace hlaunch hmem hbudget (by simpa using hplaces) hcounts

/-- **Errors of the encoder come up because of names only.** An encoder that was made can write all
that it can be asked if and only if all names can be written that it uses. A run can end in an error
of the encoder if and only if a solver can be started and its strategy uses a name that cannot be
written, and a race if and only if one of its strategies gets to such a name before the race is
called off. -/
theorem encoding_error_iff_unwritable (hnet : Net.parse text = .ok net) (f : Formula) :
    (∀ encoding e, Encoder.make net (some (.formula f)) encoding = .ok e →
      (e.Total ↔ (∀ p ∈ net.places, isQuotable p.id = true) ∧
        (encoding = .integer → ∀ t ∈ net.transitions, isQuotable t.id = true))) ∧
    (∀ method encoding config heedsBound c,
      Checker.make method net f encoding config heedsBound = .ok c →
      ((∃ a x, (c.run a).outcome = .error (.encoding x)) ↔
        config.Starts ∧ ((∃ p ∈ net.places, isQuotable p.id = false) ∨
          method = .stateEquation ∧ ∃ t ∈ net.transitions, isQuotable t.id = false))) ∧
    ∀ o r, make net f o = .ok r →
      ((∃ a x, (r.run a).1 = .error (.encoding x)) ↔
        o.config.Starts ∧ (o.methods ≠ [] ∧ (∃ p ∈ net.places, isQuotable p.id = false) ∨
          .stateEquation ∈ o.methods ∧ 0 < o.budget ∧
            ∃ t ∈ net.transitions, isQuotable t.id = false)) := by
  refine ⟨fun encoding e he => ?_, fun _ _ _ _ _ => Checker.exists_run_encoding_iff hnet,
    fun _ _ => exists_race_encoding_iff hnet⟩
  obtain ⟨rfl, hplaces, -⟩ := Encoder.make_ok he
  exact Encoder.total_iff (Net.wellFormed_of_parse hnet) rfl (Encoder.over_of_checkPlaces hplaces)

end Parsed

/-- A place has a bar in its name. -/
def barred : Net :=
  .ofPlaces [⟨"a|b", 1⟩]

/-- An encoder is made for a place with a bar in its name, but it cannot write all that it can be
asked, and some race about it ends in an error of the encoder. Where a token is handed from `p` to
`q`, no race does. -/
theorem barred_found_late :
    (∃ e, Encoder.make barred (some (.formula .tt)) .integer = .ok e ∧ ¬ e.Total) ∧
    (∃ r, make barred .tt {} = .ok r ∧ ∃ a x, (r.run a).1 = .error (.encoding x)) ∧
    ∃ r, make Encoder.handOver .tt {} = .ok r ∧ ∀ a x, (r.run a).1 ≠ .error (.encoding x) := by
  have hparse : Net.parse "pl a|b (1)\n" = .ok barred := by decide +kernel
  obtain ⟨htotal, -, hraces⟩ := encoding_error_iff_unwritable hparse .tt
  refine ⟨⟨_, rfl, fun h => ?_⟩, ⟨_, rfl, ?_⟩, ⟨_, rfl, fun a x hx => ?_⟩⟩
  · exact absurd (((htotal .integer _ rfl).mp h).1 _ List.mem_cons_self) (by decide)
  · exact (hraces {} _ rfl).mpr ⟨.inr (by decide), .inl ⟨by decide, by decide⟩⟩
  · obtain ⟨-, hplace | hcount⟩ :=
      ((encoding_error_iff_unwritable Encoder.handOver_parse .tt).2.2 {} _ rfl).mp ⟨a, x, hx⟩
    · exact absurd hplace.2 (by decide)
    · exact absurd hcount.2.2 (by decide)

end Race

end PetriReach
