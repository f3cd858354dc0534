import PetriReach.Proofs.Checker.Verdicts

/-!
# Bounded search

Bounded model checking finds shortest witnesses and nothing else, and it heeds the bound of
k-induction rightly, whenever that comes.

* `Checker.bmc_reachable_iff_shortest`: bounded model checking ends at a shortest witness exactly
  if enough tests are answered.
* `Checker.bound_least_and_heeded`: the bound of k-induction, and what follows once it is reached.
-/

namespace PetriReach

open Smt Work Strategy

/-- How many answers of a backend are definite, from the first one on. -/
def Backend.definite (b : Backend) : Nat :=
  (b.replies.takeWhile fun l => Definite l).length

theorem lt_length_takeWhile_iff {α : Type} {p : α → Bool} {xs : List α} {d : Nat} :
    d < (xs.takeWhile p).length ↔ ∀ j ≤ d, ∃ x, xs[j]? = some x ∧ p x = true := by
  induction xs generalizing d with
  | nil => simpa using ⟨0, Nat.zero_le d⟩
  | cons x xs ih =>
    by_cases hx : p x = true
    · rw [List.takeWhile_cons_of_pos hx, List.length_cons]
      cases d with
      | zero => simpa using hx
      | succ d =>
        rw [Nat.add_lt_add_iff_right, ih]
        constructor
        · rintro h (_ | j) hj
          · exact ⟨x, rfl, hx⟩
          · exact h j (by omega)
        · exact fun h j hj => h (j + 1) (by omega)
    · rw [List.takeWhile_cons_of_neg hx]
      constructor
      · exact fun h => absurd h (Nat.not_lt_zero d)
      · intro h
        obtain ⟨y, hy, hp⟩ := h 0 (Nat.zero_le d)
        cases hy
        exact absurd hp hx

theorem Backend.lt_definite_iff {b : Backend} {d : Nat} :
    d < b.definite ↔ ∀ j ≤ d, ∃ l, b.replies[j]? = some l ∧ Definite l := by
  unfold definite
  rw [lt_length_takeWhile_iff]
  simp only [decide_eq_true_eq]

namespace Checker

variable {text goal : String} {net : Net} {f : Formula} {config : SolverConfig} {c : Checker}
  {a : Arena} {b : Backend}

/-- A run that ends at a shortest witness, and tests no further, was told the truth. -/
theorem trueRun_of_shortest (hnet : Net.parse text = .ok net) (hgoal : Formula.parse goal = .ok f)
    (hc : make .bmc net f .integer config false = .ok c)
    (hb : a.backends.head?.getD (some {}) = some b) {d : Nat} {n : Int}
    (hdigest : (c.run a).digest = (.ok (some .reachable), some d, some (d + 1), n))
    (hshort : net.Shortest f d) : c.TrueRun a b := by
  obtain ⟨hv, hd, -, session, hs, hcount⟩ := Run.of_digest hdigest
  obtain ⟨s, hran⟩ := exists_ran hb hs
  obtain ⟨-, -, -, hover, -⟩ := make_ok hc
  have hbounds : a.Bounded fun _ => True :=
    ⟨trivial, fun _ _ _ _ => trivial, fun _ _ _ _ => trivial⟩
  obtain ⟨R, d', hd', hpast⟩ := hran.bmcFound hnet hgoal hc hbounds hv
  rw [hran.witness, hd, Option.some.injEq] at hd'
  subst hd'
  obtain ⟨hw, hmin⟩ := (Net.tokens_shortest_iff (Net.wellFormed_of_parse hnet) hover d).mpr hshort
  refine hran.trueRun hb hs hpast (by simp [hcount]) fun x hx => ?_
  rcases List.mem_append.mp hx with hx | hx
  · exact right_outcomes (fun j hj => right_unsat (mt (R.witness_iff j).mp (hmin j hj))) x hx
  · rw [List.mem_singleton.mp hx]
    exact right_sat ((R.witness_iff d).mpr hw)

theorem counter_step {n : Int} {m m' : Marking} (h : (counter n).Step m m') :
    m' "q" = m "q" + 1 := by
  obtain ⟨t, ht, -, rfl⟩ := h
  rw [List.mem_singleton.mp ht]
  rfl

theorem step_counter (n : Int) (k : Nat) :
    (counter n).Step (fun p => if p = "q" then k else 0)
      (fun p => if p = "q" then k + 1 else 0) := by
  refine ⟨_, List.mem_singleton.mpr rfl, fun p => Nat.zero_le _, funext fun p => ?_⟩
  by_cases hp : p = "q"
  · subst hp
    rfl
  · simp [Transition.fire, Arcs.weight, List.lookup_cons, beq_eq_false_iff_ne.mpr hp, hp]

theorem counter_shortest : (counter 0).Shortest countOne 1 := by
  have hinitial : (counter 0).initial = fun p => if p = "q" then 0 else 0 := by
    funext p
    by_cases hp : p = "q" <;> simp [Net.initial, counter, eq_comm, hp]
  obtain ⟨t, ht, hen, hfire⟩ := step_counter 0 0
  refine ⟨⟨[t], _, .cons ht (hinitial ▸ hen) (.nil _), rfl, ?_⟩, ?_⟩
  · rw [countOne_holds, hinitial, ← hfire]
    rfl
  · rintro (_ | ⟨t, ts⟩) m hpath hm
    · cases hpath
      exact absurd hm (by decide)
    · exact Nat.le_add_left 1 _

theorem counter_digest : ((counterChecker .bmc 0 false).run (answering ["unsat", "sat"])).digest =
    (.ok (some .reachable), some 1, some 2, -1) := by
  decide +kernel

theorem counter_trueRun :
    (counterChecker .bmc 0 false).TrueRun (answering ["unsat", "sat"])
      { answers := ["unsat", "sat"] } :=
  trueRun_of_shortest counter_parse countOne_parse make_counterChecker rfl counter_digest
    counter_shortest

/-- **Bounded model checking is sound, complete and minimal.** Undisturbed, with a solver that tells
the truth, it ends at `d` if and only if `d` is the length of a shortest witness and the tests up to
there are answered; it has no other verdict. -/
theorem bmc_reachable_iff_shortest (hnet : Net.parse text = .ok net)
    (hgoal : Formula.parse goal = .ok f) (hc : make .bmc net f .integer config false = .ok c)
    (hcalm : a.Calm) (hrun : c.TrueRun a b)
    (herror : ∀ e, (c.run a).outcome ≠ .error (.encoding e)) :
    (∀ d, (c.run a).outcome = .ok (some .reachable) ∧ (c.run a).checker.witness = some d ↔
      net.Shortest f d ∧ d < b.definite) ∧
    (∀ v, (c.run a).outcome = .ok (some v) →
      v = .reachable ∧ ∃ d, (c.run a).checker.witness = some d) ∧
    ((∀ m, net.Reachable m → f.holds m = false) → ∀ v, (c.run a).outcome ≠ .ok (some v)) := by
  obtain ⟨session, s, hran, htrue⟩ := hrun.exists_ran
  obtain ⟨-, -, -, hover, -⟩ := make_ok hc
  have hshortest := Net.tokens_shortest_iff (Net.wellFormed_of_parse hnet) hover
  have hbounds : a.Bounded fun _ => True :=
    ⟨trivial, fun _ _ _ _ => trivial, fun _ _ _ _ => trivial⟩
  -- a verdict rests on a shortest witness
  have hfound : ∀ v, (c.run a).outcome = .ok (some v) → v = .reachable ∧
      ∃ d, (c.run a).checker.witness = some d ∧ net.Shortest f d ∧ d < b.definite := by
    intro v hv
    obtain ⟨R, hfound⟩ := hran.bmcFound hnet hgoal hc hbounds hv
    cases v with
    | reachable =>
      obtain ⟨d, hd, hs, hdefinite⟩ := bmc_reachable htrue hfound
      rw [hran.witness] at hd
      exact ⟨rfl, d, hd, (hshortest d).mp hs, Backend.lt_definite_iff.mpr hdefinite⟩
    | notReachable => exact absurd hfound.1 (by simp)
    | unknown => exact hfound.elim
  refine ⟨fun d => ⟨?_, ?_⟩, fun v hv => ?_, fun hnone v hv => ?_⟩
  · rintro ⟨hv, hd⟩
    obtain ⟨-, d', hd', hs⟩ := hfound _ hv
    rw [hd, Option.some.injEq] at hd'
    exact hd' ▸ hs
  · rintro ⟨hs, hlt⟩
    obtain ⟨R⟩ := exists_reading hnet hgoal hc (by decide) (hran.writable herror)
    have hend := ends_bmc R (hran.live_start hbounds hcalm) ((hshortest d).mpr hs)
      (Backend.lt_definite_iff.mp hlt)
    have hprove : c.prove = bmc c.encoder false := prove_eq hc
    rw [← hprove] at hend
    obtain ⟨hv, hd⟩ := hend htrue
    rw [hran.verdict, ← hran.witness]
    exact ⟨hv, hd⟩
  · obtain ⟨rfl, d, hd, -⟩ := hfound v hv
    exact ⟨rfl, d, hd⟩
  · obtain ⟨-, d, -, hs, -⟩ := hfound v hv
    exact Net.no_witness_iff.mpr hnone d hs.1

/-- A count from 0 reaches 1 after one firing; the second test finds it. -/
theorem counter_found_at_one :
    (((counterChecker .bmc 0 false).run (answering ["unsat", "sat"])).outcome =
        .ok (some .reachable) ∧
      ((counterChecker .bmc 0 false).run (answering ["unsat", "sat"])).checker.witness = some 1) ∧
    (counter 0).Shortest countOne 1 :=
  have hfound := (bmc_reachable_iff_shortest counter_parse countOne_parse make_counterChecker
    ⟨rfl, by simp [answering], rfl⟩ counter_trueRun fun e he => by
      rw [(Run.of_digest counter_digest).1] at he
      cases he).1 1
  ⟨hfound.mpr ⟨counter_shortest, by decide⟩, counter_shortest⟩

/-! ## The bound of k-induction -/

/-- A run of k-induction that leaves the least length without a first entry, and tests no further,
was told the truth. -/
theorem trueRun_of_least {heedsBound : Bool} (hnet : Net.parse text = .ok net)
    (hgoal : Formula.parse goal = .ok f)
    (hc : make .kInduction net f .integer config heedsBound = .ok c)
    (hb : a.backends.head?.getD (some {}) = some b) (hempty : a.Bounded (· < 0)) {k : Nat}
    (hdigest : (c.run a).digest = (.ok none, none, some (k + 1), (k : Int)))
    (hk : ¬ net.Entry f k) (hj : ∀ j < k, net.Entry f j) : c.TrueRun a b := by
  obtain ⟨hv, -, hn, session, hs, hcount⟩ := Run.of_digest hdigest
  obtain ⟨s, hran⟩ := exists_ran hb hs
  obtain ⟨-, -, -, hover, -⟩ := make_ok hc
  have hentry := Net.tokens_entry_iff (Net.wellFormed_of_parse hnet) hover
  obtain ⟨R, hunbounded | ⟨k', hk', hpast⟩⟩ :=
    hran.kEnd hnet hgoal hc hempty (hran.writable_of_ok hv)
  · have hneg := (hran.bound _ hunbounded).1
    omega
  · obtain rfl : k = k' := by
      have hvalue := (hran.bound _ hk').1
      omega
    refine hran.trueRun hb hs hpast (by simp [hcount]) fun x hx => ?_
    rcases List.mem_append.mp hx with hx | hx
    · refine right_outcomes (fun j hjk => right_sat ?_) x hx
      rw [R.entry_iff, hentry]
      exact hj j hjk
    · rw [List.mem_singleton.mp hx]
      refine right_unsat ?_
      rwa [R.entry_iff, hentry]

/-- A run of bounded model checking that gives up at a bound `k`, after at most `k` tests, was told
the truth if there is no witness. -/
theorem trueRun_of_no_witness (hnet : Net.parse text = .ok net)
    (hgoal : Formula.parse goal = .ok f) (hc : make .bmc net f .integer config true = .ok c)
    (hb : a.backends.head?.getD (some {}) = some b) {k j : Nat} {n : Int} {w : Option Nat}
    (hseen : a.Bounded fun n => n < 0 ∨ n = k)
    (hdigest : (c.run a).digest = (.ok (some .notReachable), w, some j, n)) (hj : j ≤ k)
    (hnone : ∀ d, ¬ net.Witness f d) : c.TrueRun a b := by
  obtain ⟨hv, -, -, session, hs, hcount⟩ := Run.of_digest hdigest
  obtain ⟨s, hran⟩ := exists_ran hb hs
  obtain ⟨-, -, -, hover, -⟩ := make_ok hc
  have hwitness := Net.tokens_witness_iff (Net.wellFormed_of_parse hnet) hover
  obtain ⟨R, -, d, k', hk', hneg, hd, hpast⟩ := hran.bmcFound hnet hgoal hc hseen hv
  refine hran.trueRun hb hs hpast (by rw [hcount, length_outcomes]; omega) ?_
  refine right_outcomes fun i _ => right_unsat ?_
  rw [R.witness_iff, hwitness]
  exact hnone i

/-- The entries into a count of 1 have length 0 and 1. -/
theorem counter_entries (n : Int) : ¬ (counter n).Entry countOne 2 ∧
    ∀ j < 2, (counter n).Entry countOne j := by
  constructor
  · rintro ⟨xs, hsteps, -, hgoal⟩
    have h₁ : xs 1 "q" = xs 0 "q" + 1 := counter_step (hsteps 0 (by decide))
    have h₂ : xs 2 "q" = xs 1 "q" + 1 := counter_step (hsteps 1 (by decide))
    rw [countOne_holds] at hgoal
    omega
  · intro j hj
    refine ⟨fun i p => if p = "q" then i + (1 - j) else 0, fun i hi => ?_, fun i hi => ?_, ?_⟩
    · have hstep := step_counter n (i + (1 - j))
      rwa [Nat.add_right_comm] at hstep
    · rw [← Bool.not_eq_true, countOne_holds]
      show ¬ i + (1 - j) = 1
      omega
    · rw [countOne_holds]
      show j + (1 - j) = 1
      omega

theorem counter_no_witness : ∀ d, ¬ (counter 2).Witness countOne d := by
  -- the count is never below 2
  have hge : ∀ {ts m m'}, (counter 2).Path m ts m' → m "q" ≤ m' "q" := by
    intro ts m m' hpath
    induction hpath with
    | nil => exact Nat.le_refl _
    | cons ht hen _ ih =>
      have hstep := counter_step ⟨_, ht, hen, rfl⟩
      omega
  rintro d ⟨ts, m, hpath, -, hm⟩
  have htwo : (counter 2).initial "q" = 2 := rfl
  have hle := hge hpath
  rw [countOne_holds] at hm
  omega

/-- An arena in which the bound 2 is published when the second test begins. -/
def answeringLate (answers : List String) : Arena :=
  { answering answers with verbose := true, agenda := [(3, .publish 2)] }

theorem counter_digest_least :
    ((counterChecker .kInduction 2 true).run (answering ["sat", "sat", "unsat"])).digest =
      (.ok none, none, some 3, 2) := by
  decide +kernel

theorem counter_digest_late :
    ((counterChecker .bmc 2 true).run (answeringLate ["unsat", "unsat"])).digest =
      (.ok (some .notReachable), none, some 2, 2) := by
  decide +kernel

variable {config' : SolverConfig} {c' : Checker} {a' : Arena} {b' : Backend} {heedsBound : Bool}

/-- **K-induction and bounded model checking cooperate soundly.** Of the two runs, that of
k-induction sees no bound; that of bounded model checking may see the bound found there, and no
other, at any time or never. -/
theorem bound_least_and_heeded (hnet : Net.parse text = .ok net)
    (hgoal : Formula.parse goal = .ok f)
    (hc : make .kInduction net f .integer config heedsBound = .ok c)
    (hc' : make .bmc net f .integer config' true = .ok c')
    (hempty : a.Bounded (· < 0))
    (hseen : a'.Bounded fun n => n < 0 ∨ (c.run a).arena.bound.poll = some n)
    (hrun : c.TrueRun a b) (hrun' : c'.TrueRun a' b') :
    (∀ n, (c.run a).arena.bound.poll = some n →
      ∃ k : Nat, n = k ∧ ¬ net.Entry f k ∧ (∀ j < k, net.Entry f j) ∧
        ∀ d : Nat, net.Shortest f d → (d : Int) ≤ n - 1) ∧
    ((c'.run a').outcome = .ok (some .notReachable) →
      ∀ m, net.Reachable m → f.holds m = false) := by
  have hwell := Net.wellFormed_of_parse hnet
  obtain ⟨-, -, -, hover, -⟩ := make_ok hc'
  have hleast := fun n => kInduction_bound hnet hgoal hrun hc hempty (n := n)
  refine ⟨fun n hn => ?_, fun hv => ?_⟩
  · obtain ⟨k, rfl, hk, hj⟩ := hleast n hn
    refine ⟨k, rfl, ?_, fun j hjk => ?_, fun d hd => ?_⟩
    · rwa [← Net.tokens_entry_iff hwell hover]
    · exact (Net.tokens_entry_iff hwell hover j).mp (hj j hjk)
    · have hlt := System.lt_of_not_entry hk ((Net.tokens_shortest_iff hwell hover d).mpr hd)
      omega
  · obtain ⟨k, hk, hshort⟩ := (bmc_verdict hnet hgoal hrun' hc' hseen).2.1 hv
    -- the bound that was reached is the one of k-induction
    obtain ⟨k', hkk', hentry, -⟩ := hleast k (hk.resolve_left (by omega))
    obtain rfl : k = k' := Int.ofNat_inj.mp hkk'
    rw [← Net.no_witness_iff]
    intro d
    rw [← Net.tokens_witness_iff hwell hover]
    exact System.no_witness_of_bound hentry hshort d

/-- A count from 2 never comes to 1. The bound of k-induction is 2, and bounded model checking gives
up after two tests, though the bound appears only between them. -/
theorem counter_bound_heeded :
    ((counterChecker .kInduction 2 true).run
      (answering ["sat", "sat", "unsat"])).arena.bound.poll = some 2 ∧
    (∃ k : Nat, (2 : Int) = k ∧ ¬ (counter 2).Entry countOne k ∧
      (∀ j < k, (counter 2).Entry countOne j) ∧
      ∀ d : Nat, (counter 2).Shortest countOne d → (d : Int) ≤ 2 - 1) ∧
    ((counterChecker .bmc 2 true).run (answeringLate ["unsat", "unsat"])).outcome =
      .ok (some .notReachable) ∧
    ∀ m, (counter 2).Reachable m → countOne.holds m = false := by
  obtain ⟨-, -, hvalue, -⟩ := Run.of_digest counter_digest_least
  have hpoll : ((counterChecker .kInduction 2 true).run
      (answering ["sat", "sat", "unsat"])).arena.bound.poll = some 2 := by
    rw [Bound.poll, hvalue]
    rfl
  have hempty : (answering ["sat", "sat", "unsat"]).Bounded (· < 0) :=
    ⟨by decide, by simp [answering], by simp [answering]⟩
  have hseen : (answeringLate ["unsat", "unsat"]).Bounded fun n => n < 0 ∨ n = (2 : Nat) :=
    ⟨by decide, by simp [answeringLate], by simp [answeringLate, answering]⟩
  have htrue := trueRun_of_least (a := answering ["sat", "sat", "unsat"]) counter_parse_two
    countOne_parse make_counterChecker rfl hempty counter_digest_least
    (counter_entries 2).1 (counter_entries 2).2
  have htrue' := trueRun_of_no_witness (a := answeringLate ["unsat", "unsat"]) counter_parse_two
    countOne_parse make_counterChecker rfl hseen counter_digest_late (Nat.le_refl 2)
    counter_no_witness
  have hboth := bound_least_and_heeded counter_parse_two countOne_parse make_counterChecker
    make_counterChecker hempty (by rw [hpoll]; simpa [eq_comm] using hseen) htrue htrue'
  exact ⟨hpoll, hboth.1 2 hpoll, (Run.of_digest counter_digest_late).1,
    hboth.2 (Run.of_digest counter_digest_late).1⟩

end Checker

end PetriReach
