import PetriReach.Method
import PetriReach.Proofs.Encoder.Unrolling

/-!
# Scripts of an unrolling

The scripts before the tests of a strategy that unrolls a system. In each round the goal is asserted
in a scope of its own, tested and forgotten; then the next step is added. Such a script is well
formed, and what is active at its end are the constraints of its round, each once.

* `Script.WellFormed`: declared before use, and declared once.
* `Encoder.Unrolls`: the script declares the variables of the steps up to one, and means something.
* `Encoder.Reading.unrolls_bmc` and its like: the scripts before the tests.
* `Encoder.bmcActive`, `Encoder.kActive`: the constraints of a round.
* `Encoder.Reading.perm_bmcTest` and its like: these are active at the tests.
-/

namespace PetriReach

open Smt

namespace Smt

/-! ## Well-formed scripts -/

/-- How many tests a script has. -/
def Script.tests (cs : Script) : Nat :=
  cs.countP fun
    | .checkSat => true
    | _ => false

/-- The script leads to `t`. Every term is asserted where its symbols are declared, in scopes that
are still open and with sorts that make it a truth value. No symbol is declared twice, and none is
one of the language's own. -/
structure Script.WellFormed (cs : Script) (t : Scopes) : Prop where
  reads : ({} : Scopes).readAll cs = some t
  sorted : ∀ before u after, cs = before ++ .assert u :: after →
    ∃ s, ({} : Scopes).readAll before = some s ∧ u.sort? s.declared = some .bool
  once : cs.declares.Nodup
  names : ∀ x ∈ cs.declares, Declarable x.name

namespace Scopes

variable {s s' : Scopes}

theorem admits_of_accept {c : Command} (h : s.accept c = some s') :
    s.Admits c ∧ s.read c = some s' := by
  unfold accept at h
  split at h
  · next hadmits => exact ⟨hadmits, h⟩
  · cases h

theorem readAll_of_acceptAll {cs : Script} (h : s.acceptAll cs = some s') :
    s.readAll cs = some s' := by
  induction cs generalizing s with
  | nil => exact h
  | cons c cs ih =>
    obtain ⟨s₁, h₁, h₂⟩ := Option.bind_eq_some_iff.mp h
    rw [readAll, (admits_of_accept h₁).2, Option.bind_some]
    exact ih h₂

end Scopes

/-- A legal script is well formed if it declares different symbols, none of them a word of the
language. -/
theorem Script.Means.wellFormed {cs : Script} {t : Scopes} (h : Means cs t)
    (honce : cs.declares.Nodup) (hnames : ∀ x ∈ cs.declares, Declarable x.name) :
    cs.WellFormed t := by
  refine ⟨Scopes.readAll_of_acceptAll h.accepted, fun before u after heq => ?_, honce, hnames⟩
  have haccepted := h.accepted
  rw [heq, Scopes.acceptAll_append] at haccepted
  obtain ⟨s, hs, hrest⟩ := Option.bind_eq_some_iff.mp haccepted
  obtain ⟨s₁, hu, -⟩ := Option.bind_eq_some_iff.mp hrest
  exact ⟨s, Scopes.readAll_of_acceptAll hs, (Scopes.admits_of_accept hu).1⟩

end Smt

/-- How many scopes are open at test number `n`: that of the goal, except at the second test of
induction. -/
def Method.openScopes (method : Method) (n : Nat) : Nat :=
  if method = .induction ∧ 0 < n then 0 else 1

namespace Encoder

variable {e : Encoder}

/-- The declarations of a step. -/
def declarations (e : Encoder) (k : Int) : Script :=
  (e.symbols (some k)).flatMap (declareVar · e.placeSort)

/-- The symbols of steps `0, …, k`. -/
def symbolsTo (e : Encoder) (k : Nat) : List Symbol :=
  (e.frames k).map Prod.fst

theorem map_fst_frame (k : Option Int) : (e.frame k).map Prod.fst = e.symbols k := by
  rw [frame, List.map_map]
  exact List.map_id _

theorem symbolsTo_zero : e.symbolsTo 0 = e.symbols (some 0) :=
  map_fst_frame _

theorem symbolsTo_succ (k : Nat) :
    e.symbolsTo (k + 1) = e.symbolsTo k ++ e.symbols (some (k + 1)) := by
  rw [symbolsTo, frames, List.map_append, map_fst_frame]
  rfl

theorem mem_symbolsTo {k : Nat} {x : Symbol} :
    x ∈ e.symbolsTo k ↔ ∃ j ≤ k, ∃ p ∈ e.net.places, x = place p.id (some (j : Int)) := by
  rw [symbolsTo, List.mem_map]
  constructor
  · rintro ⟨d, hd, rfl⟩
    obtain ⟨j, hj, p, hp, rfl⟩ := mem_frames.mp hd
    exact ⟨j, hj, p, hp, rfl⟩
  · rintro ⟨j, hj, p, hp, rfl⟩
    exact ⟨_, mem_frames.mpr ⟨j, hj, p, hp, rfl⟩, rfl⟩

/-- The symbols of different steps are different. -/
theorem nodup_symbolsTo (h : (e.net.places.map (·.id)).Nodup) (k : Nat) :
    (e.symbolsTo k).Nodup := by
  induction k with
  | zero =>
    rw [symbolsTo_zero]
    exact nodup_symbols h _
  | succ k ih =>
    rw [symbolsTo_succ]
    refine List.nodup_append.mpr ⟨ih, nodup_symbols h _, fun x hx y hy hxy => ?_⟩
    obtain ⟨j, hj, p, -, rfl⟩ := mem_symbolsTo.mp hx
    obtain ⟨q, -, rfl⟩ := List.mem_map.mp hy
    have hstep : (j : Int) = (k : Int) + 1 := (place_inj hxy).2
    omega

theorem declarable_of_mem_symbolsTo {k : Nat} {x : Symbol} (hx : x ∈ e.symbolsTo k) :
    Declarable x.name := by
  obtain ⟨j, -, p, -, rfl⟩ := mem_symbolsTo.mp hx
  exact Symbol.declarable_of_at (Symbol.at_mem_indexed p.id j)

/-! ## Scripts that unroll -/

/-- The script declares steps `0, …, k`, each variable once, has `n` tests in it, and means `t`. -/
structure Unrolls (e : Encoder) (cs : Script) (k n : Nat) (t : Scopes) : Prop where
  means : Script.Means cs t
  declares : cs.declares = e.symbolsTo k
  tests : cs.tests = n
  declared : t.declared = e.frames k

theorem tests_append (cs ds : Script) : Script.tests (cs ++ ds) = cs.tests + ds.tests :=
  List.countP_append

theorem tests_eq_zero {cs : Script} (h : ∀ c ∈ cs, c ≠ .checkSat) : cs.tests = 0 := by
  refine List.countP_eq_zero.mpr fun c hc => ?_
  have hne := h c hc
  cases c with
  | checkSat => exact absurd rfl hne
  | _ => exact Bool.false_ne_true

namespace Unrolls

variable {cs : Script} {k n : Nat} {t : Scopes}

/-- Commands that neither declare nor test. -/
theorem silent (h : e.Unrolls cs k n t) {ds : Script} {t' : Scopes}
    (haccept : t.acceptAll ds = some t') (hdeclares : Script.declares ds = [])
    (hask : ∀ c ∈ ds, c ≠ .checkSat) (hdeclared : t'.declared = t.declared) :
    e.Unrolls (cs ++ ds) k n t' := by
  refine ⟨h.means.append haccept fun x τ hx => ?_, ?_, ?_, hdeclared.trans h.declared⟩
  · have hmem : x ∈ Script.declares ds := Script.mem_declares.mpr ⟨τ, hx⟩
    rw [hdeclares] at hmem
    cases hmem
  · rw [declares_append, hdeclares, List.append_nil, h.declares]
  · rw [tests_append, tests_eq_zero hask, Nat.add_zero, h.tests]

theorem assert (h : e.Unrolls cs k n t) {ts : List Term}
    (hts : ∀ u ∈ ts, u.sort? (e.frames k) = some .bool) :
    e.Unrolls (cs ++ ts.map .assert) k n (t.extend [] ts) := by
  refine h.silent (Scopes.acceptAll_assert (h.declared ▸ hts)) (declares_assert ts) (by simp) ?_
  rw [Scopes.extend_declared, List.append_nil]

theorem push (h : e.Unrolls cs k n t) : e.Unrolls (cs ++ [.push]) k n t.opened :=
  h.silent t.acceptAll_push rfl (by simp) t.opened_declared

theorem pop {ts : List Term} (h : e.Unrolls cs k n (t.opened.extend [] ts)) :
    e.Unrolls (cs ++ [.pop]) k n t :=
  h.silent (t.acceptAll_pop [] ts) rfl (by simp) (by simp)

theorem test (h : e.Unrolls cs k n t) : e.Unrolls (cs ++ [.checkSat]) k (n + 1) t := by
  refine ⟨h.means.checkSat, ?_, ?_, h.declared⟩
  · rw [declares_append, h.declares]
    exact List.append_nil _
  · rw [tests_append, h.tests]
    rfl

/-- **Such a script is well formed.** -/
theorem wellFormed (h : e.Unrolls cs k n t) (hn : (e.net.places.map (·.id)).Nodup) :
    cs.WellFormed t := by
  refine h.means.wellFormed ?_ fun x hx => ?_
  · rw [h.declares]
    exact nodup_symbolsTo hn k
  · rw [h.declares] at hx
    exact declarable_of_mem_symbolsTo hx

end Unrolls

/-! ## What is active -/

/-- The terms that a script asserts, if it can be written. -/
def terms : Except EncodingError Script → List Term
  | .ok cs => cs.filterMap fun
    | .assert t => some t
    | _ => none
  | .error _ => []

/-- Steps `0, …, k` follow each other. -/
def path (e : Encoder) (k : Nat) : List Term :=
  (List.range k).flatMap fun j : Nat => terms (e.transitionRelation j (j + 1))

/-- The goal is not met at steps before `k`. -/
def avoids (e : Encoder) (k : Nat) : List Term :=
  (List.range k).flatMap fun j : Nat => (terms (e.assertGoal (some (j : Int)))).map Term.not

/-- A path of length `k` from the initial marking into the goal. -/
def bmcActive (e : Encoder) (k : Nat) : List Term :=
  e.boundsTo k ++ terms (e.initialMarking (some 0)) ++ e.path k ++
    terms (e.assertGoal (some (k : Int)))

/-- A path of length `k` that enters the goal with its last step. -/
def kActive (e : Encoder) (k : Nat) : List Term :=
  e.boundsTo k ++ e.avoids k ++ e.path k ++ terms (e.assertGoal (some (k : Int)))

/-- What is active at test number `n` of a strategy that unrolls. -/
def active (e : Encoder) : Method → Nat → List Term
  | .bmc, n => e.bmcActive n
  | .kInduction, n => e.kActive n
  | .induction, 0 => e.bmcActive 0
  | .induction, _ => e.kActive 1
  | .stateEquation, _ => []

theorem terms_assert (ts : List Term) : terms (.ok (ts.map .assert)) = ts := by
  rw [terms, List.filterMap_map]
  exact List.filterMap_some

namespace Reading

variable {σ : Type} {S : System σ} (R : e.Reading S)

theorem path_eq (k : Nat) : e.path k = (List.range k).map R.stepTerm := by
  rw [path, List.map_eq_flatMap]
  congr 1
  funext j
  rw [R.step_eq]
  rfl

theorem avoids_eq (k : Nat) : e.avoids k = (List.range k).map fun j => (R.goalAt j).not := by
  rw [avoids, List.map_eq_flatMap]
  congr 1
  funext j
  rw [R.goal_eq]
  rfl

theorem terms_initial : terms (e.initialMarking (some 0)) = R.initTerms := by
  rw [R.initial_eq, terms_assert]

theorem terms_goal (k : Nat) : terms (e.assertGoal (some (k : Int))) = [R.goalAt k] := by
  rw [R.goal_eq]
  rfl

include R in
/-- The variables of step 0. -/
theorem unrolls_first : e.Unrolls (e.declarations 0) 0 0
    (({} : Scopes).extend (e.frame (some 0)) (e.bounds (some 0))) where
  means := by
    have hempty : Script.Means [] {} := ⟨by simp, rfl⟩
    exact hempty.append (R.acceptAll_first rfl)
      fun x τ hx => R.writable.readable R.wellFormed (mem_declareVars hx).1
  declares := by
    rw [declarations, declares_declareVars, symbolsTo_zero]
  tests := tests_eq_zero not_checkSat_of_mem_declareVars
  declared := by simp [frames]

variable {cs : Script} {k n : Nat} {t : Scopes}

include R in
/-- The variables of the next step. -/
theorem unrolls_next (h : e.Unrolls cs k n t) : e.Unrolls (cs ++ e.declarations (k + 1)) (k + 1) n
    (t.extend (e.frame (some (k + 1))) (e.bounds (some (k + 1)))) where
  means := h.means.append (R.acceptAll_next h.declared)
    fun x τ hx => R.writable.readable R.wellFormed (mem_declareVars hx).1
  declares := by
    rw [declares_append, h.declares, declarations, declares_declareVars, symbolsTo_succ]
  tests := by
    rw [tests_append, h.tests, declarations, tests_eq_zero not_checkSat_of_mem_declareVars,
      Nat.add_zero]
  declared := by
    rw [Scopes.extend_declared, h.declared, frames]

theorem unrolls_init (h : e.Unrolls cs 0 n t) :
    e.Unrolls (cs ++ R.initTerms.map .assert) 0 n (t.extend [] R.initTerms) :=
  h.assert (R.init_sort (covers_frames (Nat.le_refl 0)))

theorem unrolls_goal (h : e.Unrolls cs k n t) {j : Nat} (hj : j ≤ k) :
    e.Unrolls (cs ++ [.assert (R.goalAt j)]) k n (t.extend [] [R.goalAt j]) :=
  h.assert (List.forall_mem_singleton.mpr (R.goal_sort (covers_frames hj)))

theorem unrolls_refute (h : e.Unrolls cs k n t) {j : Nat} (hj : j ≤ k) :
    e.Unrolls (cs ++ [.assert (R.goalAt j).not]) k n (t.extend [] [(R.goalAt j).not]) :=
  h.assert (List.forall_mem_singleton.mpr (Term.sort?_not (R.goal_sort (covers_frames hj))))

theorem unrolls_step (h : e.Unrolls cs (k + 1) n t) :
    e.Unrolls (cs ++ [.assert (R.stepTerm k)]) (k + 1) n (t.extend [] [R.stepTerm k]) :=
  h.assert (List.forall_mem_singleton.mpr
    (R.step_sort (covers_frames (Nat.le_succ k)) (covers_frames (Nat.le_refl (k + 1)))))

/-- What bounded model checking has told before it asserts the goal at step `k`. -/
def bmcBaseScript : Nat → Script
  | 0 => e.declarations 0 ++ R.initTerms.map .assert
  | k + 1 => bmcBaseScript k ++ [.push] ++ [.assert (R.goalAt k)] ++ [.checkSat] ++ [.pop] ++
      e.declarations (k + 1) ++ [.assert (R.stepTerm k)]

/-- What bounded model checking has told before test number `k`. -/
def bmcScript (k : Nat) : Script :=
  R.bmcBaseScript k ++ [.push] ++ [.assert (R.goalAt k)]

/-- What k-induction has told before it asserts the goal at step `k`. -/
def kBaseScript : Nat → Script
  | 0 => e.declarations 0
  | k + 1 => kBaseScript k ++ [.push] ++ [.assert (R.goalAt k)] ++ [.checkSat] ++ [.pop] ++
      [.assert (R.goalAt k).not] ++ e.declarations (k + 1) ++ [.assert (R.stepTerm k)]

/-- What k-induction has told before test number `k`. -/
def kScript (k : Nat) : Script :=
  R.kBaseScript k ++ [.push] ++ [.assert (R.goalAt k)]

/-- What induction has told before its first test. -/
def baseScript : Script :=
  e.declarations 0 ++ [.push] ++ R.initTerms.map .assert ++ [.assert (R.goalAt 0)]

/-- What induction has told before its second test. -/
def stepScript : Script :=
  R.baseScript ++ [.checkSat] ++ [.pop] ++ e.declarations 1 ++ [.assert (R.goalAt 0).not] ++
    [.assert (R.stepTerm 0)] ++ [.assert (R.goalAt 1)]

/-- What a strategy has told before test number `n`, if it has such a test. -/
def script : Method → Nat → Option Script
  | .bmc, n => some (R.bmcScript n)
  | .kInduction, n => some (R.kScript n)
  | .induction, 0 => some R.baseScript
  | .induction, 1 => some R.stepScript
  | _, _ => none

theorem unrolls_bmcBase (k : Nat) : e.Unrolls (R.bmcBaseScript k) k k (R.bmcBase k) := by
  induction k with
  | zero => exact R.unrolls_init R.unrolls_first
  | succ k ih =>
    have htest := (R.unrolls_goal ih.push (Nat.le_refl k)).test
    exact R.unrolls_step (R.unrolls_next htest.pop)

/-- **The scripts of bounded model checking.** -/
theorem unrolls_bmc (k : Nat) : e.Unrolls (R.bmcScript k) k k (R.bmcTest k) :=
  R.unrolls_goal (R.unrolls_bmcBase k).push (Nat.le_refl k)

theorem unrolls_kBase (k : Nat) : e.Unrolls (R.kBaseScript k) k k (R.kBase k) := by
  induction k with
  | zero => exact R.unrolls_first
  | succ k ih =>
    have htest := (R.unrolls_goal ih.push (Nat.le_refl k)).test
    exact R.unrolls_step (R.unrolls_next (R.unrolls_refute htest.pop (Nat.le_refl k)))

/-- **The scripts of k-induction.** -/
theorem unrolls_k (k : Nat) : e.Unrolls (R.kScript k) k k (R.kTest k) :=
  R.unrolls_goal (R.unrolls_kBase k).push (Nat.le_refl k)

theorem unrolls_base : e.Unrolls R.baseScript 0 0 R.baseTest :=
  R.unrolls_goal (R.unrolls_init R.unrolls_first.push) (Nat.le_refl 0)

/-- **The scripts of induction.** -/
theorem unrolls_induction : e.Unrolls R.stepScript 1 1 R.stepTest := by
  have hbase := R.unrolls_base.test
  rw [baseTest, Scopes.extend_extend] at hbase
  have hstep := R.unrolls_step (R.unrolls_refute (R.unrolls_next hbase.pop) (Nat.zero_le 1))
  exact R.unrolls_goal hstep (Nat.le_refl 1)

theorem around_bmcBase (k : Nat) : (R.bmcBase k).around = [] := by
  induction k with
  | zero => rfl
  | succ k ih => exact ih

theorem around_kBase (k : Nat) : (R.kBase k).around = [] := by
  induction k with
  | zero => rfl
  | succ k ih => exact ih

open Classical in
theorem perm_bmcBase (k : Nat) : (R.bmcBase k).asserted.Perm
    (e.boundsTo k ++ R.initTerms ++ (List.range k).map R.stepTerm) := by
  induction k with
  | zero => simp [bmcBase, boundsTo]
  | succ k ih =>
    rw [List.perm_iff_count] at ih ⊢
    intro u
    have hu := ih u
    rw [boundsTo_succ, List.range_succ, List.map_append, bmcBase, Scopes.extend_asserted,
      Scopes.extend_asserted]
    simp only [List.count_append, List.map_cons, List.map_nil] at hu ⊢
    omega

open Classical in
theorem perm_kBase (k : Nat) : (R.kBase k).asserted.Perm
    (e.boundsTo k ++ (List.range k).map (fun j => (R.goalAt j).not) ++
      (List.range k).map R.stepTerm) := by
  induction k with
  | zero => simp [kBase, boundsTo]
  | succ k ih =>
    rw [List.perm_iff_count] at ih ⊢
    intro u
    have hu := ih u
    rw [boundsTo_succ, List.range_succ, List.map_append, List.map_append, kBase,
      Scopes.extend_asserted, Scopes.extend_asserted, Scopes.extend_asserted]
    simp only [List.count_append, List.map_cons, List.map_nil] at hu ⊢
    omega

/-- **What is active at the tests of bounded model checking.** -/
theorem perm_bmcTest (k : Nat) : (R.bmcTest k).asserted.Perm (e.bmcActive k) := by
  rw [bmcTest, Scopes.extend_asserted, Scopes.opened_asserted, bmcActive, R.terms_initial,
    R.path_eq, R.terms_goal]
  exact (R.perm_bmcBase k).append_right _

/-- **What is active at the tests of k-induction.** -/
theorem perm_kTest (k : Nat) : (R.kTest k).asserted.Perm (e.kActive k) := by
  rw [kTest, Scopes.extend_asserted, Scopes.opened_asserted, kActive, R.avoids_eq, R.path_eq,
    R.terms_goal]
  exact (R.perm_kBase k).append_right _

theorem perm_baseTest : R.baseTest.asserted.Perm (e.bmcActive 0) := by
  have heq : R.baseTest.asserted = (R.bmcTest 0).asserted := by
    simp [baseTest, bmcTest, bmcBase]
  rw [heq]
  exact R.perm_bmcTest 0

open Classical in
theorem perm_stepTest : R.stepTest.asserted.Perm (e.kActive 1) := by
  refine List.Perm.trans ?_ (R.perm_kTest 1)
  rw [List.perm_iff_count]
  intro u
  simp only [stepTest, kTest, kBase, Scopes.extend_asserted, Scopes.opened_asserted,
    List.count_append, asserted_empty, Int.natCast_zero, Int.zero_add]
  omega

/-- **The scripts of the strategies** declare the variables of the steps up to their test, and have
the constraints of its round active. -/
theorem unrolls_script {method : Method} {n : Nat} {cs : Script}
    (h : R.script method n = some cs) : ∃ t, e.Unrolls cs n n t ∧
      t.asserted.Perm (e.active method n) ∧ t.around.length = method.openScopes n := by
  unfold script at h
  split at h
  · cases h
    exact ⟨_, R.unrolls_bmc n, R.perm_bmcTest n, congrArg (·.length + 1) (R.around_bmcBase n)⟩
  · cases h
    exact ⟨_, R.unrolls_k n, R.perm_kTest n, congrArg (·.length + 1) (R.around_kBase n)⟩
  · cases h
    exact ⟨_, R.unrolls_base, R.perm_baseTest, rfl⟩
  · cases h
    exact ⟨_, R.unrolls_induction, R.perm_stepTest, rfl⟩
  · cases h

end Reading

end Encoder

end PetriReach
