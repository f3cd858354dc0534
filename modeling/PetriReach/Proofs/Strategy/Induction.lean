import PetriReach.Proofs.Strategy.Bmc
import PetriReach.Strategy.Induction

/-!
# Runs of induction

A run tests whether the system can begin in the goal and, if not, whether a step leads into it. If
the answers are true, a verdict is right: the goal is met at the beginning, or never. A calm run
whose tests are answered has a verdict.

* `Strategy.yields_induction`: what a verdict rests on.
* `Strategy.induction_reachable`, `Strategy.induction_notReachable`: what it says of the system.
* `Strategy.does_induction`: how a calm run ends.
* `Strategy.induction_decides`: which verdict it has.
-/

namespace PetriReach.Strategy

open Smt Work Encoder

variable {e : Encoder} {σ : Type} {S : System σ} (R : e.Reading S) {rs : List String}
  {P : Int → Prop} {s : Stage}

/-- What a verdict of induction rests on. -/
def InductionFound (rs : List String) (v : Option Verdict) (s : Stage) : Prop :=
  match v with
  | some .reachable => Past rs s [(R.baseTest, .sat)]
  | some .notReachable => Past rs s [(R.baseTest, .unsat), (R.stepTest, .unsat)]
  | _ => True

/-- The second test, after a first one without success. -/
theorem yields_inductionStep (h : At rs P s [(R.baseTest, .unsat)]
      (({} : Scopes).extend (e.frame (some 0)) (e.bounds (some 0)))) :
    (inductionStep e).Yields s (InductionFound R rs) := by
  refine yields_bind ((R.yields_next (k := 0) h (by simp [Encoder.frames])).mono fun _ s₁ h₁ => ?_)
  refine yields_bind ((R.yields_refute (j := 0) (k := 1) h₁ (by simp [Encoder.frames])
    (Nat.zero_le 1)).mono fun _ s₂ h₂ => ?_)
  refine yields_bind ((R.yields_step (k := 0) h₂ (by simp [Encoder.frames])).mono fun _ s₃ h₃ => ?_)
  refine yields_bind ((R.yields_goal (j := 1) (k := 1) h₃ (by simp [Encoder.frames])
    (Nat.le_refl 1)).mono fun _ s₄ h₄ => ?_)
  refine yields_bind ((h₄.checkSat false).mono ?_)
  rintro w s₅ ⟨h₅, -⟩
  cases w with
  | unsat => exact yields_pure h₅.answered
  | sat => exact yields_pure trivial
  | unknown => exact yields_pure trivial

/-- **What a verdict of induction rests on.** -/
theorem yields_induction (h : At rs P s [] {}) :
    (induction e).Yields s (InductionFound R rs) := by
  refine yields_bind ((R.yields_first h rfl).mono fun _ s₁ h₁ => ?_)
  refine yields_bind (h₁.push.mono fun _ s₂ h₂ => ?_)
  refine yields_bind ((R.yields_init h₂ (by simp [Encoder.frames])).mono fun _ s₃ h₃ => ?_)
  refine yields_bind ((R.yields_goal (j := 0) (k := 0) h₃ (by simp [Encoder.frames])
    (Nat.le_refl 0)).mono fun _ s₄ h₄ => ?_)
  refine yields_bind ((h₄.checkSat true).mono ?_)
  rintro w s₅ ⟨h₅, hdefinite⟩
  cases w with
  | unknown => exact absurd rfl (hdefinite rfl)
  | sat => exact yields_pure h₅.answered
  | unsat =>
    refine yields_bind (h₅.pop.mono fun _ s₆ h₆ => ?_)
    refine yields_bind (yields_get ?_)
    split
    · exact yields_pure trivial
    · exact yields_inductionStep R h₆

/-! ## What a verdict says -/

variable {R}

theorem induction_reachable (htrue : Truthful rs s.sent)
    (h : InductionFound R rs (some .reachable) s) : S.Witness 0 :=
  R.base_iff.mp (htrue.satisfiable (h 0 _ _ rfl))

theorem induction_notReachable (htrue : Truthful rs s.sent)
    (h : InductionFound R rs (some .notReachable) s) : ∀ k, ¬ S.Witness k := by
  have hbase : ¬ S.Witness 0 := mt R.base_iff.mpr (htrue.unsatisfiable (h 0 _ _ rfl))
  have hclosed : S.Closed := by
    by_contra hopen
    exact htrue.unsatisfiable (h 1 _ _ rfl) (R.closed_iff.mpr hopen)
  exact System.no_witness_of_closed hclosed hbase

/-! ## Calm runs -/

variable (R)

/-- The tests that a calm run puts, and their answers. -/
def InductionEnd (rs : List String) (v : Option Verdict) (s : Stage) : Prop :=
  match v with
  | some .reachable => Past rs s [(R.baseTest, .sat)]
  | some .notReachable => Past rs s [(R.baseTest, .unsat), (R.stepTest, .unsat)]
  | some .unknown => Past rs s [(R.baseTest, .unsat), (R.stepTest, .sat)]
  | none => False

/-- A test succeeds on a calm stage if a definite answer is due; then this is its answer. -/
theorem does_test {past : List (Scopes × Answer)} {t : Scopes} {depth : Nat}
    (h : Live rs P s past t depth) {l : String} (hl : rs[past.length]? = some l)
    (hdefinite : Definite l) (required : Bool) :
    (checkSat required).Does s fun w s' =>
      Live rs P s' (past ++ [(t, w)]) t depth ∧ w.text = Text.trim l ∧ w ≠ .unknown := by
  obtain ⟨cs, hfed⟩ := h.fed
  refine (((does_checkSat h.calm hfed hl hdefinite required).and (h.now.checkSat required)).and
    (yields_checkSat (.inr hfed) required)).mono ?_
  rintro w s' ⟨⟨hcalm, hat, -⟩, -, -, -, ⟨l', hl', hw⟩, -, -⟩
  rw [hl, Option.some.injEq] at hl'
  subst hl'
  refine ⟨⟨hcalm.calm, hcalm.depth.trans h.depth, hat⟩, hw.symm, ?_⟩
  rintro rfl
  rw [Definite, hw] at hdefinite
  exact absurd hdefinite (by decide)

theorem does_inductionStep {l : String} (hl : rs[1]? = some l) (hdefinite : Definite l)
    (h : Live rs P s [(R.baseTest, .unsat)]
      (({} : Scopes).extend (e.frame (some 0)) (e.bounds (some 0))) 0) :
    (inductionStep e).Does s (InductionEnd R rs) := by
  have hdue : [(R.baseTest, Answer.unsat)].length < rs.length := (List.getElem?_eq_some_iff.mp hl).1
  refine does_bind ((h.send hdue (declarePlaces_eq R.writable _)
    (R.yields_next (k := 0) h.now (by simp [Encoder.frames]))).mono fun _ s₁ h₁ => ?_)
  refine does_bind ((h₁.send hdue (R.refute_eq 0) (R.yields_refute (j := 0) (k := 1) h₁.now
    (by simp [Encoder.frames]) (Nat.zero_le 1))).mono fun _ s₂ h₂ => ?_)
  refine does_bind ((h₂.send hdue (R.step_eq 0)
    (R.yields_step (k := 0) h₂.now (by simp [Encoder.frames]))).mono fun _ s₃ h₃ => ?_)
  refine does_bind ((h₃.send hdue (R.goal_eq 1) (R.yields_goal (j := 1) (k := 1) h₃.now
    (by simp [Encoder.frames]) (Nat.le_refl 1))).mono fun _ s₄ h₄ => ?_)
  refine does_bind ((does_test h₄ hl hdefinite false).mono ?_)
  rintro w s₅ ⟨h₅, -, hw⟩
  cases w with
  | unknown => exact absurd rfl hw
  | unsat => exact does_pure h₅.now.answered
  | sat => exact does_pure h₅.now.answered

/-- **How a calm run of induction ends**, if the first test is answered, and the second too where
the first finds nothing. -/
theorem does_induction (h : Live rs P s [] {} 0) {l : String} (hl : rs[0]? = some l)
    (hdefinite : Definite l)
    (hsecond : Text.trim l = "unsat" → ∃ l', rs[1]? = some l' ∧ Definite l') :
    (induction e).Does s (InductionEnd R rs) := by
  have hdue : ([] : List (Scopes × Answer)).length < rs.length :=
    (List.getElem?_eq_some_iff.mp hl).1
  refine does_bind ((h.send hdue (declarePlaces_eq R.writable _)
    (R.yields_first h.now rfl)).mono fun _ s₁ h₁ => ?_)
  refine does_bind ((h₁.push hdue).mono fun _ s₂ h₂ => ?_)
  refine does_bind ((h₂.send hdue R.initial_eq
    (R.yields_init h₂.now (by simp [Encoder.frames]))).mono fun _ s₃ h₃ => ?_)
  refine does_bind ((h₃.send hdue (R.goal_eq 0) (R.yields_goal (j := 0) (k := 0) h₃.now
    (by simp [Encoder.frames]) (Nat.le_refl 0))).mono fun _ s₄ h₄ => ?_)
  refine does_bind ((does_test h₄ hl hdefinite true).mono ?_)
  rintro w s₅ ⟨h₅, htext, hw⟩
  cases w with
  | unknown => exact absurd rfl hw
  | sat => exact does_pure h₅.now.answered
  | unsat =>
    obtain ⟨l', hl', hdefinite'⟩ := hsecond htext.symm
    have hdue' : [(R.baseTest, Answer.unsat)].length < rs.length :=
      (List.getElem?_eq_some_iff.mp hl').1
    refine does_bind ((h₅.pop hdue').mono fun _ s₆ h₆ => does_bind (does_get ?_))
    rw [if_neg (by simp [h₆.calm.1.1])]
    exact does_inductionStep R hl' hdefinite' h₆

variable {R}

/-- **The verdict of a calm run** says whether the system can begin in the goal and, if not, whether
a step leads into it. -/
theorem induction_decides {v : Option Verdict} (htrue : Truthful rs s.sent)
    (h : InductionEnd R rs v s) :
    (v = some .reachable ↔ S.Witness 0) ∧
    (v = some .notReachable ↔ ¬ S.Witness 0 ∧ S.Closed) ∧
    (v = some .unknown ↔ ¬ S.Witness 0 ∧ ¬ S.Closed) := by
  cases v with
  | none => exact h.elim
  | some v =>
    cases v with
    | reachable =>
      have hbase : S.Witness 0 := R.base_iff.mp (htrue.satisfiable (h 0 _ _ rfl))
      simp [hbase]
    | notReachable =>
      have hbase : ¬ S.Witness 0 := mt R.base_iff.mpr (htrue.unsatisfiable (h 0 _ _ rfl))
      have hclosed : S.Closed :=
        not_not.mp (mt R.closed_iff.mpr (htrue.unsatisfiable (h 1 _ _ rfl)))
      simp [hbase, hclosed]
    | unknown =>
      have hbase : ¬ S.Witness 0 := mt R.base_iff.mpr (htrue.unsatisfiable (h 0 _ _ rfl))
      have hopen : ¬ S.Closed := R.closed_iff.mp (htrue.satisfiable (h 1 _ _ rfl))
      simp [hbase, hopen]

end PetriReach.Strategy
