import PetriReach.Encoder.Goal
import PetriReach.Proofs.Encoder.Frames
import PetriReach.Proofs.Search

/-!
# Unrolling

An encoder reads a system of states if the values of the variables at a step show a state, and the
terms it writes say of these states what the system says. Then each test of a strategy asks a
question about the system, whatever the encoding.

* `Encoder.Reading`: how an encoder writes a system.
* `Encoder.Reading.witness_iff`: the tests of bounded model checking ask for witnesses.
* `Encoder.Reading.entry_iff`: the tests of k-induction ask for first entries.
* `Encoder.Reading.closed_iff`: the second test of induction asks whether the goal is closed.
-/

namespace PetriReach

open Smt

namespace Smt.Scopes

/-- The scopes with a new one inside. -/
def opened (s : Scopes) : Scopes :=
  { inner := {}, around := s.inner :: s.around }

variable {s : Scopes}

@[simp] theorem opened_declared (s : Scopes) : s.opened.declared = s.declared := by
  simp [opened, declared]

@[simp] theorem opened_asserted (s : Scopes) : s.opened.asserted = s.asserted := by
  simp [opened, asserted]

theorem acceptAll_push (s : Scopes) : s.acceptAll [.push] = some s.opened :=
  rfl

theorem acceptAll_pop (s : Scopes) (ds : List (Symbol × VarSort)) (ts : List Term) :
    (s.opened.extend ds ts).acceptAll [.pop] = some s :=
  rfl

theorem acceptAll_assert_one {t : Term} (h : t.sort? s.declared = some .bool) :
    s.acceptAll [.assert t] = some (s.extend [] [t]) := by
  have hall : ∀ u ∈ [t], u.sort? s.declared = some .bool := List.forall_mem_singleton.mpr h
  exact acceptAll_assert hall

end Smt.Scopes

namespace Encoder

/-- The encoder writes the system `S`: `Shows a k x` says that under `a` the variables of step `k`
show the state `x`. -/
structure Reading (e : Encoder) {σ : Type} (S : System σ) where
  initTerms : List Term
  stepTerm : Nat → Term
  goalAt : Nat → Term
  Shows : Assignment → Nat → σ → Prop
  writable : e.Writable
  wellFormed : e.net.WellFormed
  initial_eq : e.initialMarking (some 0) = .ok (initTerms.map .assert)
  step_eq : ∀ k : Nat, e.transitionRelation k (k + 1) = .ok [.assert (stepTerm k)]
  goal_eq : ∀ k : Nat, e.assertGoal (some (k : Int)) = .ok [.assert (goalAt k)]
  refute_eq : ∀ k : Nat, e.refuteGoal (some (k : Int)) = .ok [.assert (goalAt k).not]
  init_sort : ∀ {ds}, e.Covers ds (some 0) → ∀ t ∈ initTerms, t.sort? ds = some .bool
  step_sort : ∀ {ds} {k : Nat}, e.Covers ds (some (k : Int)) →
    e.Covers ds (some ((k + 1 : Nat) : Int)) → (stepTerm k).sort? ds = some .bool
  goal_sort : ∀ {ds} {k : Nat}, e.Covers ds (some (k : Int)) → (goalAt k).sort? ds = some .bool
  exists_state : ∀ {a} {k : Nat}, e.Framed a (some (k : Int)) → ∃ x, Shows a k x
  exists_assignment : ∀ xs : Nat → σ,
    ∃ a, ∀ k : Nat, e.Framed a (some (k : Int)) ∧ Shows a k (xs k)
  init_iff : ∀ {a x}, Shows a 0 x → ((∀ t ∈ initTerms, t.Holds a) ↔ S.init x)
  step_decides : ∀ {a k x y}, Shows a k x → Shows a (k + 1) y →
    (stepTerm k).Decides a (S.step x y)
  goal_decides : ∀ {a k x}, Shows a k x → (goalAt k).Decides a (S.goal x)

namespace Reading

variable {e : Encoder} {σ : Type} {S : System σ} (R : e.Reading S)

include R in
/-- The variables of step 0, declared first. -/
theorem acceptAll_first {s : Scopes} (hs : s.declared = []) :
    s.acceptAll ((e.symbols (some 0)).flatMap (declareVar · e.placeSort)) =
      some (s.extend (e.frame (some 0)) (e.bounds (some 0))) :=
  acceptAll_frame (k := 0) R.wellFormed.places_nodup (by simp [hs])

include R in
/-- The variables of a step, declared after those of the steps before. -/
theorem acceptAll_next {s : Scopes} {k : Nat} (hs : s.declared = e.frames k) :
    s.acceptAll ((e.symbols (some (k + 1))).flatMap (declareVar · e.placeSort)) =
      some (s.extend (e.frame (some (k + 1))) (e.bounds (some (k + 1)))) := by
  refine acceptAll_frame (k := k + 1) R.wellFormed.places_nodup fun d hd => ?_
  rw [hs] at hd
  obtain ⟨j, hj, p, -, rfl⟩ := mem_frames.mp hd
  exact ⟨j, by omega, p.id, rfl⟩

theorem acceptAll_init {s : Scopes} (hs : s.declared = e.frames 0) :
    s.acceptAll (R.initTerms.map .assert) = some (s.extend [] R.initTerms) :=
  Scopes.acceptAll_assert (R.init_sort (hs ▸ covers_frames (Nat.le_refl 0)))

theorem acceptAll_step {s : Scopes} {k : Nat} (hs : s.declared = e.frames (k + 1)) :
    s.acceptAll [.assert (R.stepTerm k)] = some (s.extend [] [R.stepTerm k]) :=
  Scopes.acceptAll_assert_one (R.step_sort (hs ▸ covers_frames (Nat.le_succ k))
    (hs ▸ covers_frames (Nat.le_refl (k + 1))))

theorem acceptAll_goal {s : Scopes} {j k : Nat} (hs : s.declared = e.frames k) (hjk : j ≤ k) :
    s.acceptAll [.assert (R.goalAt j)] = some (s.extend [] [R.goalAt j]) :=
  Scopes.acceptAll_assert_one (R.goal_sort (hs ▸ covers_frames hjk))

theorem acceptAll_refute {s : Scopes} {j k : Nat} (hs : s.declared = e.frames k) (hjk : j ≤ k) :
    s.acceptAll [.assert (R.goalAt j).not] = some (s.extend [] [(R.goalAt j).not]) :=
  Scopes.acceptAll_assert_one (Term.sort?_not (R.goal_sort (hs ▸ covers_frames hjk)))

/-! ## Tests -/

/-- Over the variables of steps `0, …, k`, the assertions that do not belong to a declaration ask
for states of the system. -/
theorem satisfiable_iff {s : Scopes} {k : Nat} (ts : List Term) {P : (Nat → σ) → Prop}
    (hdecl : s.declared = e.frames k)
    (hassert : ∀ t, t ∈ s.asserted ↔ (∃ j ≤ k, t ∈ e.bounds (some (j : Int))) ∨ t ∈ ts)
    (hP : ∀ a xs, (∀ j ≤ k, R.Shows a j (xs j)) → ((∀ t ∈ ts, t.Holds a) ↔ P xs)) :
    s.Satisfiable ↔ ∃ xs, P xs := by
  constructor
  · rintro ⟨a, hsorts, hholds⟩
    have hframed : ∀ j ≤ k, e.Framed a (some (j : Int)) := by
      refine fun j hj => ⟨fun x hx => ?_, fun t ht => hholds t ((hassert t).mpr (.inl ⟨j, hj, ht⟩))⟩
      obtain ⟨p, hp, rfl⟩ := List.mem_map.mp hx
      exact hsorts _ (hdecl ▸ mem_frames.mpr ⟨j, hj, p, hp, rfl⟩)
    -- a state for every step, whatever the assignment says of steps behind `k`
    obtain ⟨x₀, -⟩ := R.exists_state (hframed 0 (Nat.zero_le k))
    have hstates : ∀ j, ∃ x, j ≤ k → R.Shows a j x := by
      intro j
      by_cases hj : j ≤ k
      · obtain ⟨x, hx⟩ := R.exists_state (hframed j hj)
        exact ⟨x, fun _ => hx⟩
      · exact ⟨x₀, fun h => absurd h hj⟩
    choose xs hxs using hstates
    exact ⟨xs, (hP a xs hxs).mp fun t ht => hholds t ((hassert t).mpr (.inr ht))⟩
  · rintro ⟨xs, hxs⟩
    obtain ⟨a, ha⟩ := R.exists_assignment xs
    refine ⟨a, fun d hd => ?_, fun t ht => ?_⟩
    · rw [hdecl] at hd
      obtain ⟨j, -, p, hp, rfl⟩ := mem_frames.mp hd
      exact (ha j).1.1 _ (List.mem_map_of_mem hp)
    · rcases (hassert t).mp ht with ⟨j, -, ht⟩ | ht
      · exact (ha j).1.2 t ht
      · exact (hP a xs fun j _ => (ha j).2).mpr hxs t ht

/-- What bounded model checking declares and asserts outside the scope of the goal. -/
def bmcBase : Nat → Scopes
  | 0 => ((({} : Scopes).extend (e.frame (some 0)) (e.bounds (some 0))).extend [] R.initTerms)
  | k + 1 => ((bmcBase k).extend (e.frame (some (k + 1))) (e.bounds (some (k + 1)))).extend []
      [R.stepTerm k]

/-- The test of bounded model checking at depth `k`. -/
def bmcTest (k : Nat) : Scopes :=
  (R.bmcBase k).opened.extend [] [R.goalAt k]

/-- What k-induction declares and asserts outside the scope of the goal. -/
def kBase : Nat → Scopes
  | 0 => ({} : Scopes).extend (e.frame (some 0)) (e.bounds (some 0))
  | k + 1 => (((kBase k).extend [] [(R.goalAt k).not]).extend (e.frame (some (k + 1)))
      (e.bounds (some (k + 1)))).extend [] [R.stepTerm k]

/-- The test of k-induction at step `k`. -/
def kTest (k : Nat) : Scopes :=
  (R.kBase k).opened.extend [] [R.goalAt k]

/-- The first test of induction. -/
def baseTest : Scopes :=
  ((({} : Scopes).extend (e.frame (some 0)) (e.bounds (some 0))).opened.extend []
    R.initTerms).extend [] [R.goalAt 0]

/-- The second test of induction. -/
def stepTest : Scopes :=
  ((((({} : Scopes).extend (e.frame (some 0)) (e.bounds (some 0))).extend (e.frame (some 1))
    (e.bounds (some 1))).extend [] [(R.goalAt 0).not]).extend [] [R.stepTerm 0]).extend []
      [R.goalAt 1]

@[simp] theorem declared_empty : ({} : Scopes).declared = [] :=
  rfl

@[simp] theorem asserted_empty : ({} : Scopes).asserted = [] :=
  rfl

@[simp] theorem bmcBase_declared (k : Nat) : (R.bmcBase k).declared = e.frames k := by
  induction k with
  | zero => simp [bmcBase, frames]
  | succ k ih => simp [bmcBase, frames, ih]

@[simp] theorem kBase_declared (k : Nat) : (R.kBase k).declared = e.frames k := by
  induction k with
  | zero => simp [kBase, frames]
  | succ k ih => simp [kBase, frames, ih]

/-- One more step among those up to a bound. -/
theorem exists_le_succ {P : Nat → Prop} {k : Nat} :
    (∃ j ≤ k + 1, P j) ↔ (∃ j ≤ k, P j) ∨ P (k + 1) := by
  constructor
  · rintro ⟨j, hj, h⟩
    rcases Nat.lt_or_ge k j with hkj | hjk
    · obtain rfl : j = k + 1 := by omega
      exact .inr h
    · exact .inl ⟨j, hjk, h⟩
  · rintro (⟨j, hj, h⟩ | h)
    · exact ⟨j, by omega, h⟩
    · exact ⟨k + 1, Nat.le_refl _, h⟩

theorem exists_lt_succ {P : Nat → Prop} {k : Nat} :
    (∃ j < k + 1, P j) ↔ (∃ j < k, P j) ∨ P k := by
  constructor
  · rintro ⟨j, hj, h⟩
    rcases Nat.lt_or_ge j k with hjk | hkj
    · exact .inl ⟨j, hjk, h⟩
    · obtain rfl : j = k := by omega
      exact .inr h
  · rintro (⟨j, hj, h⟩ | h)
    · exact ⟨j, by omega, h⟩
    · exact ⟨k, Nat.lt_succ_self k, h⟩

theorem mem_bmcBase_asserted {k : Nat} {t : Term} : t ∈ (R.bmcBase k).asserted ↔
    (∃ j ≤ k, t ∈ e.bounds (some (j : Int))) ∨ t ∈ R.initTerms ∨ ∃ j < k, t = R.stepTerm j := by
  induction k with
  | zero => simp [bmcBase]
  | succ k ih =>
    simp only [bmcBase, Scopes.extend_asserted, List.mem_append, ih, List.mem_singleton]
    rw [exists_le_succ, exists_lt_succ, Int.natCast_add, Int.natCast_one]
    simp only [or_assoc, or_left_comm, or_comm]

theorem mem_kBase_asserted {k : Nat} {t : Term} : t ∈ (R.kBase k).asserted ↔
    (∃ j ≤ k, t ∈ e.bounds (some (j : Int))) ∨ (∃ j < k, t = (R.goalAt j).not) ∨
      ∃ j < k, t = R.stepTerm j := by
  induction k with
  | zero => simp [kBase]
  | succ k ih =>
    simp only [kBase, Scopes.extend_asserted, List.mem_append, ih, List.mem_singleton]
    rw [exists_le_succ, exists_lt_succ, exists_lt_succ, Int.natCast_add, Int.natCast_one]
    simp only [or_assoc, or_left_comm, or_comm]

/-- **The tests of bounded model checking ask for witnesses.** -/
theorem witness_iff (k : Nat) : (R.bmcTest k).Satisfiable ↔ S.Witness k := by
  refine R.satisfiable_iff (k := k) (R.initTerms ++ (List.range k).map R.stepTerm ++ [R.goalAt k])
    ?_ (fun t => ?_) ?_
  · simp [bmcTest]
  · simp only [bmcTest, Scopes.extend_asserted, Scopes.opened_asserted, List.mem_append,
      mem_bmcBase_asserted, List.mem_map, List.mem_range, List.mem_singleton, eq_comm (a := t),
      or_assoc]
  · intro a xs hxs
    have hsteps : (∀ j < k, (R.stepTerm j).Holds a) ↔ S.Trail xs k :=
      forall₂_congr fun j hj => (R.step_decides (hxs j (by omega)) (hxs (j + 1) hj)).holds_iff
    simp only [List.forall_mem_append, List.forall_mem_map, List.mem_range,
      List.forall_mem_singleton]
    rw [R.init_iff (hxs 0 (Nat.zero_le k)), hsteps,
      (R.goal_decides (hxs k (Nat.le_refl k))).holds_iff, and_assoc]

/-- **The tests of k-induction ask for first entries.** -/
theorem entry_iff (k : Nat) : (R.kTest k).Satisfiable ↔ S.Entry k := by
  refine R.satisfiable_iff (k := k) ((List.range k).map (fun j => (R.goalAt j).not) ++
    (List.range k).map R.stepTerm ++ [R.goalAt k]) ?_ (fun t => ?_) ?_
  · simp [kTest]
  · simp only [kTest, Scopes.extend_asserted, Scopes.opened_asserted, List.mem_append,
      mem_kBase_asserted, List.mem_map, List.mem_range, List.mem_singleton, eq_comm (a := t),
      or_assoc]
  · intro a xs hxs
    have hsteps : (∀ j < k, (R.stepTerm j).Holds a) ↔ S.Trail xs k :=
      forall₂_congr fun j hj => (R.step_decides (hxs j (by omega)) (hxs (j + 1) hj)).holds_iff
    have hout : (∀ j < k, (R.goalAt j).not.Holds a) ↔ ∀ j < k, ¬ S.goal (xs j) :=
      forall₂_congr fun j hj => (Term.decides_not (R.goal_decides (hxs j (by omega)))).holds_iff
    simp only [List.forall_mem_append, List.forall_mem_map, List.mem_range,
      List.forall_mem_singleton]
    rw [hout, hsteps, (R.goal_decides (hxs k (Nat.le_refl k))).holds_iff]
    tauto

/-- The first test of induction asks whether the system can begin in the goal. -/
theorem base_iff : R.baseTest.Satisfiable ↔ S.Witness 0 := by
  rw [← R.witness_iff 0]
  have hdecl : R.baseTest.declared = (R.bmcTest 0).declared := by
    simp [baseTest, bmcTest, frames]
  have hassert : R.baseTest.asserted = (R.bmcTest 0).asserted := by
    simp [baseTest, bmcTest, bmcBase]
  unfold Scopes.Satisfiable Scopes.Model
  rw [hdecl, hassert]

/-- **The second test of induction asks whether the goal is closed.** -/
theorem closed_iff : R.stepTest.Satisfiable ↔ ¬ S.Closed := by
  have hentry : R.stepTest.Satisfiable ↔ S.Entry 1 := by
    refine (Iff.trans ?_ (R.entry_iff 1))
    have hdecl : R.stepTest.declared = (R.kTest 1).declared := by
      simp [stepTest, kTest, frames]
    have hassert : ∀ t, t ∈ R.stepTest.asserted ↔ t ∈ (R.kTest 1).asserted := by
      intro t
      simp only [stepTest, kTest, kBase, Scopes.extend_asserted, Scopes.opened_asserted,
        List.mem_append, List.mem_singleton]
      simp only [asserted_empty, Int.natCast_zero, Int.zero_add]
      tauto
    unfold Scopes.Satisfiable Scopes.Model
    simp only [hdecl, hassert]
  rw [hentry]
  constructor
  · rintro ⟨xs, htrail, hout, hgoal⟩ hclosed
    exact hclosed (xs 0) (xs 1) (hout 0 (by omega)) (htrail 0 (by omega)) hgoal
  · intro hclosed
    unfold System.Closed at hclosed
    push Not at hclosed
    obtain ⟨x, y, hx, hstep, hy⟩ := hclosed
    refine ⟨fun i => if i = 0 then x else y, fun i hi => ?_, fun i hi => ?_, ?_⟩
    · obtain rfl : i = 0 := by omega
      exact hstep
    · obtain rfl : i = 0 := by omega
      exact hx
    · exact hy

end Reading

end Encoder

end PetriReach
