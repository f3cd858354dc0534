import PetriReach.Proofs.Checker.Inductiveness
import PetriReach.Proofs.Checker.Relaxation
import PetriReach.Proofs.Checker.Surroundings
import PetriReach.Proofs.Encoder.Safe
import PetriReach.Race

/-!
# Agreement

The checkers of a race do not contradict each other if their solvers tell the truth, with one
exception: in the boolean encoding the state equation counts tokens where the others look at marks.
Where that makes no difference, the order of the checkers makes none for the verdict.

* `Race.Reports`: what a checker of a race can come to.
* `Race.Decides`: what a race can come to.
* `Race.verdicts_agree`: when verdicts agree.
-/

namespace PetriReach

open Smt Work

/-- No bound comes from outside. -/
structure Arena.Quiet (a : Arena) : Prop where
  agenda : ∀ event ∈ a.agenda, ∀ n, event.2 ≠ .publish n
  meanwhile : ∀ events ∈ a.meanwhile, ∀ n, .publish n ∉ events

namespace Race

variable {text goal : String} {net : Net} {f : Formula} {o : RaceOptions} {r : Race}

/-- The checkers of a race are those of its methods. -/
theorem make_ok (h : make net f o = .ok r) :
    r.checkers.map (·.method) = Method.lineUp o.methods ∧ ∀ c ∈ r.checkers,
      Checker.make c.method net f o.encoding o.config (.kInduction ∈ o.methods) = .ok c := by
  have hmethod : ∀ m c, Checker.make m net f o.encoding o.config (.kInduction ∈ o.methods) = .ok c →
      c.method = m := by
    intro m c hc
    obtain ⟨enc, -, rfl, -, -⟩ := Checker.make_ok hc
    rfl
  obtain ⟨cs, hcs, h⟩ := exists_of_bind_ok h
  cases h
  refine ⟨map_of_mapM_ok hmethod hcs, fun c hc => ?_⟩
  obtain ⟨m, -, hm⟩ := exists_of_mapM_ok hcs c hc
  rwa [hmethod m c hm]

/-! ## What a checker can come to -/

/-- A bound that k-induction publishes in the race if its solver tells the truth. -/
def Publishes (r : Race) (n : Int) : Prop :=
  ∃ c ∈ r.checkers, c.method = .kInduction ∧ ∃ a b, a.Bounded (· < 0) ∧ c.TrueRun a b ∧
    (c.run a).arena.bound.poll = some n

/-- A verdict that a checker of the race comes to if its solver tells the truth and it sees no bound
but one of k-induction, at whatever time. -/
def Reports (r : Race) (m : Method) (v : Verdict) : Prop :=
  ∃ c ∈ r.checkers, c.method = m ∧ ∃ a b, a.Bounded (fun n => n < 0 ∨ r.Publishes n) ∧
    c.TrueRun a b ∧ (c.run a).outcome = .ok (some v)

section Reports

variable (hnet : Net.parse text = .ok net) (hgoal : Formula.parse goal = .ok f)
  (hrace : make net f o = .ok r) {m m' : Method}

include hnet hgoal hrace

/-- A goal that is reported reachable is, in the encoding of the race. -/
theorem Reports.witness (h : r.Reports m .reachable) :
    m ≠ .stateEquation ∧ ∃ k, (net.system f o.encoding).Witness k := by
  obtain ⟨c, hc, rfl, a, b, hseen, hrun, hv⟩ := h
  have hmake := (make_ok hrace).2 c hc
  cases hm : c.method with rw [hm] at hmake
  | stateEquation => exact absurd hv (Checker.stateEquation_verdict hnet hgoal hrun hmake).1
  | induction =>
    exact ⟨by simp, 0, (Checker.induction_verdict hnet hgoal hrun hmake).1 hv⟩
  | bmc => exact ⟨by simp, (Checker.bmc_verdict hnet hgoal hrun hmake hseen).1 hv⟩
  | kInduction => exact absurd hv (Checker.kInduction_verdict hrun hmake _)

/-- There is no first entry whose length was published. -/
theorem Publishes.not_entry {k : Nat} (h : r.Publishes k) :
    ¬ (net.system f o.encoding).Entry k := by
  obtain ⟨c, hc, hm, a, b, hempty, hrun, hpoll⟩ := h
  have hmake := (make_ok hrace).2 c hc
  rw [hm] at hmake
  obtain ⟨k', hk, hentry, -⟩ := Checker.kInduction_bound hnet hgoal hrun hmake hempty hpoll
  obtain rfl : k = k' := Int.ofNat_inj.mp hk
  exact hentry

/-- A goal that is reported not reachable is not: in tokens, by the state equation; in the encoding
of the race, by any other strategy. -/
theorem Reports.no_witness (h : r.Reports m .notReachable) :
    if m = .stateEquation then ∀ k, ¬ net.Witness f k
    else ∀ k, ¬ (net.system f o.encoding).Witness k := by
  obtain ⟨c, hc, rfl, a, b, hseen, hrun, hv⟩ := h
  have hmake := (make_ok hrace).2 c hc
  cases hm : c.method with rw [hm] at hmake
  | stateEquation =>
    exact Net.no_witness_iff.mpr ((Checker.stateEquation_verdict hnet hgoal hrun hmake).2 hv)
  | induction => exact (Checker.induction_verdict hnet hgoal hrun hmake).2 hv
  | bmc =>
    obtain ⟨k, hk, hshort⟩ := (Checker.bmc_verdict hnet hgoal hrun hmake hseen).2.1 hv
    have hentry := Publishes.not_entry hnet hgoal hrace (hk.resolve_left (by omega))
    exact System.no_witness_of_bound hentry hshort
  | kInduction => exact absurd hv (Checker.kInduction_verdict hrun hmake _)

/-- Verdicts contradict each other only if the state equation counts tokens where another strategy
looks at marks, and these meet the goal. -/
theorem Reports.contradiction (h : r.Reports m .notReachable) (h' : r.Reports m' .reachable) :
    o.encoding = .boolean ∧ m = .stateEquation ∧ net.Overstated f := by
  have hno := h.no_witness hnet hgoal hrace
  obtain ⟨hm', k, hk⟩ := h'.witness hnet hgoal hrace
  by_cases hm : m = .stateEquation
  · rw [if_pos hm] at hno
    cases henc : o.encoding with rw [henc] at hk
    | boolean => exact ⟨rfl, hm, ⟨k, hk⟩, hno⟩
    | integer =>
      obtain ⟨c, hc, -⟩ := h'
      obtain ⟨-, -, -, hover, -⟩ := Checker.make_ok ((make_ok hrace).2 c hc)
      exact absurd ((Net.tokens_witness_iff (Net.wellFormed_of_parse hnet) hover k).mp hk) (hno k)
  · rw [if_neg hm] at hno
    exact absurd hk (hno k)

omit hgoal in
/-- Where marks are used, they do not overstate a plain formula on a safe net. -/
theorem not_overstated (hsafe : net.Safe) (hplain : f.Plain net) {c : Checker}
    (hc : c ∈ r.checkers) (hbool : c.encoder.encoding = .boolean) : ¬ net.Overstated f := by
  obtain ⟨enc, -, hmade, hover, hcheck⟩ := Checker.make_ok ((make_ok hrace).2 c hc)
  rw [hmade] at hbool
  obtain ⟨hchecked, hformula⟩ := hcheck hbool
  rintro ⟨⟨k, hk⟩, hno⟩
  exact hno k ((Net.marks_witness_iff hchecked (Net.wellFormed_of_parse hnet) hsafe hover hformula
    hplain k).mp hk)

end Reports

/-! ## Races -/

/-- Every solver that the checkers start, one after another, tells the truth. -/
def TrueFrom : List Checker → State → Prop
  | [], _ => True
  | c :: cs, s => (∀ session, (c.run s.arena).session = some session → ∃ b, c.TrueRun s.arena b) ∧
      TrueFrom cs (s.step c)

/-- What holds while a race runs: bounds come from k-induction, and a decision from a checker. -/
structure State.Sound (r : Race) (s : State) : Prop where
  seen : s.arena.Bounded fun n => n < 0 ∨ r.Publishes n
  decided : ∀ v, s.arena.cohort.conclusive = some v → ∃ m, r.Reports m v

theorem conclusive_finish {c : Cohort Nat} {name : String} {verdict : Option Verdict} {v : Verdict}
    (h : (c.finish name verdict).conclusive = some v) :
    c.conclusive = some v ∨ verdict = some v := by
  unfold Cohort.finish at h
  cases verdict with
  | none => exact .inl h
  | some w =>
    dsimp only at h
    split at h
    · exact .inl h
    · split at h
      · exact .inr h
      · split at h <;> exact .inl h

/-- The surroundings after a checker, but for what it reports to the cohort. -/
theorem step_arena {R : Arena → Arena → Prop} (hR : Arena.Passage R)
    (hcancel : ∀ a : Arena, R a { a with cohort := a.cohort.cancel }) (s : State) (c : Checker) :
    ∃ a, R (c.run s.arena).arena a ∧ (s.step c).arena =
      { a with cohort := a.cohort.finish c.method.name (c.run s.arena).verdict } := by
  unfold State.step Checker.Run.verdict
  dsimp only
  cases (c.run s.arena).outcome with
  | ok verdict =>
    refine ⟨_, ?_, rfl⟩
    split
    · exact hR.info _ _
    · exact hR.refl _
  | error fault =>
    refine ⟨{ (c.run s.arena).arena.warn ("[" ++ c.method.name ++ "] " ++ fault.message) with
        cohort := ((c.run s.arena).arena.warn
          ("[" ++ c.method.name ++ "] " ++ fault.message)).cohort.cancel }, ?_, rfl⟩
    exact hR.trans (hR.emit _ _) (hcancel _)

variable {s : State} {c : Checker}

theorem step_bounded {P : Int → Prop} (h : (c.run s.arena).arena.Bounded P) :
    (s.step c).arena.Bounded P := by
  have hP := Arena.drift_bounded P
  obtain ⟨a, ha, heq⟩ := step_arena hP.passage (fun a => hP.cohort a _ rfl) s c
  rw [heq]
  exact ⟨(ha h).cell, (ha h).agenda, (ha h).meanwhile⟩

/-- A run of k-induction with an empty cell leaves a bound that counts as published. -/
theorem bounded_of_kInduction (hc : c ∈ r.checkers) (hm : c.method = .kInduction) {a : Arena}
    (hempty : a.Bounded (· < 0))
    (htrue : ∀ session, (c.run a).session = some session → ∃ b, c.TrueRun a b) :
    (c.run a).arena.Bounded fun n => n < 0 ∨ r.Publishes n := by
  have hkeeps : a.Keeps (c.run a).arena := Checker.run_keeps
  refine ⟨?_, fun event hevent n hn => .inl ?_, fun events hevents n hn => .inl ?_⟩
  · by_cases hneg : (c.run a).arena.bound.value < 0
    · exact .inl hneg
    · refine .inr ?_
      cases hs : (c.run a).session with
      | none =>
        have hsame := (Checker.run_of_no_session hs).2 (Arena.drift_bounded (· < 0)) hempty
        exact absurd hsame.1 hneg
      | some session =>
        obtain ⟨b, hrun⟩ := htrue session hs
        exact ⟨c, hc, hm, a, b, hempty, hrun, if_neg hneg⟩
  · rw [hkeeps.agenda] at hevent
    exact hempty.agenda event hevent n hn
  · exact hempty.meanwhile events (hkeeps.meanwhile.subset hevents) n hn

/-- **One checker of a race.** -/
theorem State.Sound.step (h : s.Sound r) (hc : c ∈ r.checkers)
    (hempty : c.method = .kInduction → s.arena.Bounded (· < 0))
    (htrue : ∀ session, (c.run s.arena).session = some session → ∃ b, c.TrueRun s.arena b) :
    (s.step c).Sound r := by
  constructor
  · refine step_bounded ?_
    by_cases hm : c.method = .kInduction
    · exact bounded_of_kInduction hc hm (hempty hm) htrue
    · exact Checker.run_bounded hm h.seen
  · intro v hv
    obtain ⟨a, ha, heq⟩ := step_arena Arena.drift_keeps.passage
      (fun a => Arena.drift_keeps.cohort a _ rfl) s c
    rw [heq] at hv
    rcases conclusive_finish hv with hbefore | hnow
    · rw [ha.conclusive, Checker.run_keeps.conclusive] at hbefore
      exact h.decided v hbefore
    · have hout := Checker.Run.verdict_eq_some.mp hnow
      cases hs : (c.run s.arena).session with
      | none =>
        rw [(Checker.run_of_no_session hs).1] at hout
        cases hout
      | some session =>
        obtain ⟨b, hrun⟩ := htrue session hs
        exact ⟨c.method, c, hc, rfl, s.arena, b, h.seen, hrun, hout⟩

/-- **A whole race**, in any order of its checkers. -/
theorem State.Sound.foldl {cs : List Checker} (h : s.Sound r) (hcs : ∀ c ∈ cs, c ∈ r.checkers)
    (hnodup : (cs.map (·.method)).Nodup)
    (hempty : .kInduction ∈ cs.map (·.method) → s.arena.Bounded (· < 0)) (htrue : TrueFrom cs s) :
    (cs.foldl State.step s).Sound r := by
  induction cs generalizing s with
  | nil => exact h
  | cons c cs ih =>
    rw [List.forall_mem_cons] at hcs
    rw [List.map_cons, List.nodup_cons] at hnodup
    have hfirst : c.method = .kInduction → s.arena.Bounded (· < 0) := fun hm =>
      hempty (hm ▸ List.mem_cons_self)
    refine ih (h.step hcs.1 hfirst htrue.1) hcs.2 hnodup.2 (fun hlater => ?_) htrue.2
    -- k-induction is still to come, so it was not this one
    have hm : c.method ≠ .kInduction := fun hm => hnodup.1 (hm ▸ hlater)
    exact step_bounded (Checker.run_bounded hm (hempty (List.mem_cons_of_mem _ hlater)))

theorem prepare_bounded {a : Arena} (hquiet : a.Quiet) : (r.prepare a).Bounded (· < 0) := by
  unfold prepare
  dsimp only
  generalize hb : ({ a with
    cohort := { workers := r.checkers.length }
    bound := a.bound.reset
    watchdog := .armed } : Arena) = b
  have hempty : b.Bounded (· < 0) := by
    subst hb
    have hreset : (-1 : Int) < 0 := by decide
    exact ⟨hreset, fun event hevent n hn => absurd hn (hquiet.agenda event hevent n),
      fun events hevents n hn => absurd hn (hquiet.meanwhile events hevents n)⟩
  split
  · exact hempty.expire
  · exact hempty

theorem prepare_conclusive (a : Arena) : (r.prepare a).cohort.conclusive = none := by
  unfold prepare
  dsimp only
  split
  · exact (Arena.drift_keeps.expire _).conclusive
  · rfl

/-- With its checkers in the order `cs`, the race comes to a conclusive verdict; every solver tells
the truth, and no bound comes from outside. -/
structure Decides (r : Race) (cs : List Checker) (a : Arena) (v : Verdict) : Prop where
  order : cs.Perm r.checkers
  quiet : a.Quiet
  truth : TrueFrom cs { arena := { r with checkers := cs }.prepare a }
  verdict : ∃ result, ({ r with checkers := cs }.run a).1 = .ok result ∧ result.verdict = some v
  conclusive : v.isConclusive = true

/-- A race comes to what one of its checkers comes to. -/
theorem Decides.reports (hrace : make net f o = .ok r) {cs : List Checker} {a : Arena} {v : Verdict}
    (h : r.Decides cs a v) : ∃ m, r.Reports m v := by
  have hnodup : (cs.map (·.method)).Nodup := by
    rw [(h.order.map _).nodup_iff, (make_ok hrace).1]
    exact List.Nodup.filter _ (by decide)
  have hempty := prepare_bounded (r := { r with checkers := cs }) h.quiet
  have hstart : State.Sound r { arena := { r with checkers := cs }.prepare a } := by
    refine ⟨⟨.inl hempty.cell, fun event hevent n hn => .inl (hempty.agenda event hevent n hn),
      fun events hevents n hn => .inl (hempty.meanwhile events hevents n hn)⟩, ?_⟩
    intro w hw
    rw [prepare_conclusive] at hw
    cases hw
  have hsound := hstart.foldl (fun c hc => h.order.mem_iff.mp hc) hnodup (fun _ => hempty) h.truth
  obtain ⟨result, hresult, hv⟩ := h.verdict
  unfold run at hresult
  split at hresult
  · cases hresult
    cases hv
  · dsimp only at hresult
    split at hresult
    · cases hresult
    · cases hresult
      refine hsound.decided v ?_
      -- a conclusive outcome is not that of a checker that gave up
      rw [Cohort.outcome, Option.or_eq_some_iff] at hv
      refine hv.resolve_right fun hunknown => ?_
      have hv : v = .unknown := by
        have hsome := hunknown.2
        split at hsome
        · exact (Option.some.inj hsome).symm
        · cases hsome
      rw [hv] at h
      exact absurd h.conclusive (by decide)

/-! ## A pair of places -/

section Told

variable {a : Arena} {b : Backend} {w : Option Nat} {n : Int}

/-- A run without tests was told nothing else than the truth. -/
theorem trueRun_of_silence (hb : a.backends.head?.getD (some {}) = some b)
    {o : Except Fault (Option Verdict)} (hdigest : (c.run a).digest = (o, w, some 0, n)) :
    c.TrueRun a b := by
  obtain ⟨-, -, -, session, hs, hcount⟩ := Checker.Run.of_digest hdigest
  refine ⟨hb, session, hs, fun before line hpre _ => ?_⟩
  have hle := hpre.sublist.count_le ask
  rw [List.count_append, List.count_singleton_self] at hle
  omega

end Told

/-- Two places with a token each, and nothing that moves them. -/
def pair : Net :=
  .ofPlaces [⟨"p", 1⟩, ⟨"q", 1⟩]

/-- The two places hold one token together. -/
def pairOne : Formula :=
  .atom ⟨[⟨"p", 1⟩, ⟨"q", 1⟩], 0⟩ .eq ⟨[], 1⟩

/-- A checker for this goal. -/
def pairChecker (method : Method) (encoding : Encoding) : Checker where
  method
  encoder := ⟨pair, some (.formula pairOne), encoding⟩
  config := {}
  heedsBound := false

/-- A race between the state equation and induction. -/
def pairRace (encoding : Encoding) : Race where
  checkers := [pairChecker .stateEquation .integer, pairChecker .induction encoding]
  budget := 225

theorem make_pairRace (encoding : Encoding) :
    make pair pairOne { methods := [.stateEquation, .induction], encoding } =
      .ok (pairRace encoding) := by
  cases encoding <;> rfl

theorem pair_parse : Net.parse "pl p (1)\npl q (1)\n" = .ok pair :=
  rfl

theorem pairOne_parse : Formula.parse "p + q = 1" = .ok pairOne :=
  rfl

theorem pairOne_holds (m : Marking) : pairOne.holds m = true ↔ m "p" + m "q" = 1 := by
  show decide (1 * (m "p" : Int) + (1 * (m "q" : Int) + 0) = 1) = true ↔ _
  rw [decide_eq_true_eq]
  omega

theorem pair_unsolvable (m : Marking) (x : String → Int) (h : pair.Solves (fun p => m p) x) :
    pairOne.holds m = false := by
  have hp : (m "p" : Int) = 1 := h.balance ⟨"p", 1⟩ (by decide)
  have hq : (m "q" : Int) = 1 := h.balance ⟨"q", 1⟩ (by decide)
  rw [← Bool.not_eq_true, pairOne_holds]
  omega

theorem pair_closed : (pair.tokens pairOne).Closed := by
  rintro m m' - ⟨t, ht, -⟩
  exact absurd ht List.not_mem_nil

theorem pair_base : ¬ (pair.tokens pairOne).Witness 0 := by
  rintro ⟨xs, hinit, -, hgoal⟩
  have hp : xs 0 "p" = 1 := hinit ⟨"p", 1⟩ (by decide)
  have hq : xs 0 "q" = 1 := hinit ⟨"q", 1⟩ (by decide)
  have hone := (pairOne_holds (xs 0)).mp hgoal
  omega

/-- The two places hold different numbers of tokens. -/
def pairApart : Formula :=
  .atom ⟨[⟨"p", 1⟩], 0⟩ .ne ⟨[⟨"q", 1⟩], 0⟩

/-- A race of induction alone for this goal. -/
def apartRace : Race where
  checkers := [{ pairChecker .induction .boolean with
    encoder := ⟨pair, some (.formula pairApart), .boolean⟩ }]
  budget := 225

theorem pairApart_parse : Formula.parse "p != q" = .ok pairApart :=
  rfl

theorem make_apartRace :
    make pair pairApart { methods := [.induction], encoding := .boolean } = .ok apartRace :=
  rfl

theorem pair_reachable {m : Marking} (h : pair.Reachable m) : m = pair.initial := by
  obtain ⟨ts, hpath⟩ := h
  cases hpath with
  | nil => rfl
  | cons ht => exact absurd ht List.not_mem_nil

theorem pair_safe : pair.Safe := by
  intro m hm p
  obtain rfl := pair_reachable hm
  show ((pair.places.find? (·.id = p)).map (·.tokens.toNat)).getD 0 ≤ 1
  cases hfind : pair.places.find? (·.id = p) with
  | none => exact Nat.zero_le 1
  | some q =>
    have hall : ∀ q ∈ pair.places, q.tokens.toNat ≤ 1 := by decide
    exact hall q (List.mem_of_find?_eq_some hfind)

/-- The two places hold one token each, at any time. -/
theorem pairApart_plain : pairApart.Plain pair := by
  intro m hm
  obtain rfl := pair_reachable hm
  exact fun _ _ => rfl

/-- One of the two places is marked. -/
theorem pair_marked : (pair.marks pairOne).Witness 0 := by
  have hinit : ∀ p ∈ pair.places, true = decide (p.tokens > 0) := by decide
  have hgoal : pairOne.marked (fun _ => true) = true := by decide
  exact ⟨fun _ _ => true, hinit, fun i hi => absurd hi (Nat.not_lt_zero i), hgoal⟩

theorem pair_reports : (pairRace .boolean).Reports .stateEquation .notReachable ∧
    (pairRace .boolean).Reports .induction .reachable := by
  have hdigest : ((pairChecker .stateEquation .integer).run (Checker.answering ["unsat"])).digest =
      (.ok (some .notReachable), none, some 1, -1) := by decide +kernel
  have hdigest' : ((pairChecker .induction .boolean).run (Checker.answering ["sat"])).digest =
      (.ok (some .reachable), none, some 1, -1) := by decide +kernel
  have hseen : ∀ answers, (Checker.answering answers).Bounded
      fun n => n < 0 ∨ (pairRace .boolean).Publishes n := by
    have hneg : (-1 : Int) < 0 := by decide
    exact fun answers =>
      ⟨.inl hneg, by simp [Checker.answering], by simp [Checker.answering]⟩
  refine ⟨⟨_, List.mem_cons_self, rfl, _, { answers := ["unsat"] }, hseen _, ?_,
      (Checker.Run.of_digest hdigest).1⟩,
    ⟨_, List.mem_cons_of_mem _ List.mem_cons_self, rfl, _, { answers := ["sat"] }, hseen _, ?_,
      (Checker.Run.of_digest hdigest').1⟩⟩
  · exact Checker.trueRun_of_unsolvable pair_parse pairOne_parse
      (rfl : Checker.make .stateEquation _ _ .integer {} false = _) rfl hdigest (by decide)
      (by decide) pair_unsolvable
  · exact Checker.trueRun_of_base pair_parse pairOne_parse
      (rfl : Checker.make .induction _ _ .boolean {} false = _) rfl hdigest' pair_marked

theorem trueFrom_pair {c d : Checker} {s : State} (h : ∃ b, c.TrueRun s.arena b)
    (h' : ∃ b, d.TrueRun (s.step c).arena b) : TrueFrom [c, d] s :=
  ⟨fun _ _ => h, fun _ _ => h', trivial⟩

theorem quiet_answering (answers : List String) : (Checker.answering answers).Quiet :=
  ⟨by simp [Checker.answering], by simp [Checker.answering]⟩

/-- The race in tokens comes to the same verdict in either order. -/
theorem pair_decides :
    (pairRace .integer).Decides
      [pairChecker .stateEquation .integer, pairChecker .induction .integer]
      (Checker.answering ["unsat"]) .notReachable ∧
    (pairRace .integer).Decides
      [pairChecker .induction .integer, pairChecker .stateEquation .integer]
      (Checker.answering ["unsat", "unsat"]) .notReachable := by
  refine ⟨⟨.refl _, quiet_answering _, ?_,
      ⟨⟨some .notReachable, "STATE-EQUATION", false⟩, by decide +kernel, rfl⟩, rfl⟩,
    ⟨.swap _ _ _, quiet_answering _, ?_,
      ⟨⟨some .notReachable, "INDUCTION", false⟩, by decide +kernel, rfl⟩, rfl⟩⟩
  · refine trueFrom_pair ⟨{ answers := ["unsat"] }, ?_⟩ ⟨{}, ?_⟩
    · exact Checker.trueRun_of_unsolvable pair_parse pairOne_parse
        (rfl : Checker.make .stateEquation _ _ .integer {} false = _) rfl
        (show _ = (_, none, some 1, -1) by decide +kernel) (by decide) (by decide) pair_unsolvable
    · exact trueRun_of_silence (by decide +kernel)
        (show _ = (.ok none, none, some 0, -1) by decide +kernel)
  · refine trueFrom_pair ⟨{ answers := ["unsat", "unsat"] }, ?_⟩ ⟨{}, ?_⟩
    · exact Checker.trueRun_of_closed pair_parse pairOne_parse
        (rfl : Checker.make .induction _ _ .integer {} false = _) rfl
        (show _ = (_, none, some 2, -1) by decide +kernel) pair_base pair_closed
    · exact trueRun_of_silence (by decide +kernel)
        (show _ = (.ok none, none, some 0, -1) by decide +kernel)

/-- **Verdicts agree**, and so the order of the checkers makes no difference, unless the state
equation counts tokens and the others look at marks that overstate the goal. -/
theorem verdicts_agree (hnet : Net.parse text = .ok net) (hgoal : Formula.parse goal = .ok f)
    (hrace : make net f o = .ok r) :
    (∀ m m', r.Reports m .notReachable → r.Reports m' .reachable →
      o.encoding = .boolean ∧ m = .stateEquation ∧ net.Overstated f) ∧
    ((o.encoding = .boolean → .stateEquation ∈ o.methods → ¬ net.Overstated f) →
      ∀ cs cs' a a' v v', r.Decides cs a v → r.Decides cs' a' v' → v = v') ∧
    (net.Safe → f.Plain net → ∀ c ∈ r.checkers, c.encoder.encoding = .boolean →
      ¬ net.Overstated f) := by
  have hcontra : ∀ m m', r.Reports m .notReachable → r.Reports m' .reachable →
      o.encoding = .boolean ∧ m = .stateEquation ∧ net.Overstated f :=
    fun m m' h h' => h.contradiction hnet hgoal hrace h'
  refine ⟨hcontra, fun hsame cs cs' a a' v v' h h' => ?_,
    fun hsafe hplain c hc => not_overstated hnet hrace hsafe hplain hc⟩
  have hnever : ∀ m m', r.Reports m .notReachable → ¬ r.Reports m' .reachable := by
    intro m m' hno hyes
    obtain ⟨hbool, rfl, hover⟩ := hcontra m m' hno hyes
    obtain ⟨c, hc, hm, -⟩ := hno
    have hmem := List.mem_map_of_mem (f := (·.method)) hc
    rw [(make_ok hrace).1, hm, Method.lineUp, List.mem_filter] at hmem
    exact hsame hbool (by simpa using hmem.2) hover
  obtain ⟨m, hm⟩ := h.reports hrace
  obtain ⟨m', hm'⟩ := h'.reports hrace
  cases v with
  | unknown => exact absurd h.conclusive (by decide)
  | reachable =>
    cases v' with
    | unknown => exact absurd h'.conclusive (by decide)
    | reachable => rfl
    | notReachable => exact absurd hm (hnever m' m hm')
  | notReachable =>
    cases v' with
    | unknown => exact absurd h'.conclusive (by decide)
    | reachable => exact absurd hm' (hnever m m' hm)
    | notReachable => rfl

/-- Of two places with a token each, induction says in marks that they hold one token together, and
the state equation says that they do not. In tokens the race always comes to the same verdict. No
place ever holds two tokens, so marks do not overstate that the places hold different numbers. -/
theorem pair_overstated :
    ((pairRace .boolean).Reports .stateEquation .notReachable ∧
      (pairRace .boolean).Reports .induction .reachable ∧ pair.Overstated pairOne) ∧
    (pairRace .integer).Decides
      [pairChecker .stateEquation .integer, pairChecker .induction .integer]
      (Checker.answering ["unsat"]) .notReachable ∧
    (∀ cs a v, (pairRace .integer).Decides cs a v → v = .notReachable) ∧
    pair.Safe ∧ pairApart.Plain pair ∧ ¬ pair.Overstated pairApart := by
  obtain ⟨hno, hyes⟩ := pair_reports
  have hbool := verdicts_agree pair_parse pairOne_parse (make_pairRace .boolean)
  have hint := verdicts_agree pair_parse pairOne_parse (make_pairRace .integer)
  have hmarks := verdicts_agree pair_parse pairApart_parse make_apartRace
  refine ⟨⟨hno, hyes, (hbool.1 _ _ hno hyes).2.2⟩, pair_decides.1, fun cs a v h => ?_,
    pair_safe, pairApart_plain,
    hmarks.2.2 pair_safe pairApart_plain _ List.mem_cons_self rfl⟩
  exact hint.2.1 nofun _ _ _ _ _ _ h pair_decides.2

end Race

end PetriReach
