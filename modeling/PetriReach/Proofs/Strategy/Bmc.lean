import PetriReach.Proofs.Strategy.Unrolled
import PetriReach.Strategy.Bmc

/-!
# Runs of bounded model checking

A run tests for witnesses of length 0, 1, 2 and so on. If the answers are true, it ends at a
shortest witness or at a bound below which there is none; on a calm stage it ends at the shortest
witness as soon as enough answers are due.

* `Strategy.yields_bmc`: what a verdict rests on.
* `Strategy.bmc_reachable`, `Strategy.bmc_notReachable`: what a verdict says of the system.
* `Strategy.ends_bmc`: a calm run finds a shortest witness.
-/

namespace PetriReach.Strategy

open Smt Work Encoder

variable {e : Encoder} {σ : Type} {S : System σ} (R : e.Reading S) {rs : List String}
  {P : Int → Prop} {s : Stage}

/-- The tests of the rounds before `k`, all with the same answer. -/
def outcomes (tests : Nat → Scopes) (w : Answer) (k : Nat) : List (Scopes × Answer) :=
  (List.range k).map fun j => (tests j, w)

theorem outcomes_succ (tests : Nat → Scopes) (w : Answer) (k : Nat) :
    outcomes tests w k ++ [(tests k, w)] = outcomes tests w (k + 1) := by
  rw [outcomes, outcomes, List.range_succ, List.map_append]
  rfl

theorem getElem?_outcomes {tests : Nat → Scopes} {w : Answer} {j k : Nat} (h : j < k) :
    (outcomes tests w k)[j]? = some (tests j, w) := by
  rw [outcomes, List.getElem?_map, List.getElem?_range h]
  rfl

@[simp] theorem length_outcomes (tests : Nat → Scopes) (w : Answer) (k : Nat) :
    (outcomes tests w k).length = k := by
  rw [outcomes, List.length_map, List.length_range]

theorem right_outcomes {tests : Nat → Scopes} {w : Answer} {k : Nat}
    (h : ∀ j < k, Right (tests j, w)) : ∀ x ∈ outcomes tests w k, Right x := by
  intro x hx
  obtain ⟨j, hj, rfl⟩ := List.mem_map.mp hx
  exact h j (List.mem_range.mp hj)

/-- What a verdict of bounded model checking rests on. -/
def BmcFound (rs : List String) (P : Int → Prop) (heedsBound : Bool) (v : Option Verdict)
    (s : Stage) : Prop :=
  match v with
  | some .reachable => ∃ d, s.witness = some d ∧
      Past rs s (outcomes R.bmcTest .unsat d ++ [(R.bmcTest d, .sat)])
  | some .notReachable => heedsBound = true ∧ ∃ (d : Nat) (b : Int), P b ∧ 0 ≤ b ∧ b - 1 ≤ d ∧
      Past rs s (outcomes R.bmcTest .unsat (d + 1))
  | some .unknown => False
  | none => True

theorem boundReached_eq_some {heedsBound : Bool} {k : Nat} {b : Int}
    (h : boundReached heedsBound s k = some b) :
    heedsBound = true ∧ s.bound.value = b ∧ 0 ≤ b ∧ b - 1 ≤ k := by
  unfold boundReached at h
  split at h
  · next hb =>
    rw [Option.filter_eq_some_iff] at h
    obtain ⟨hpoll, hk⟩ := h
    unfold Bound.poll at hpoll
    split at hpoll
    · cases hpoll
    · next hneg =>
      cases hpoll
      exact ⟨hb, rfl, by omega, by simpa using hk⟩
  · cases h

/-- From depth `k` on, where all tests before were without success. -/
theorem yields_bmcFrom (heedsBound : Bool) {fuel k : Nat}
    (h : At rs P s (outcomes R.bmcTest .unsat k) (R.bmcTest k)) :
    (bmcFrom e heedsBound fuel k).Yields s (BmcFound R rs P heedsBound) := by
  induction fuel generalizing k s with
  | zero => exact yields_throw _
  | succ fuel ih =>
    refine yields_bind ((h.info _).mono fun _ s₁ h₁ => ?_)
    refine yields_bind ((h₁.checkSat true).mono ?_)
    rintro w s₂ ⟨h₂, hdefinite⟩
    cases w with
    | unknown => exact absurd rfl (hdefinite rfl)
    | sat =>
      refine yields_bind ((h₂.info _).mono fun _ s₃ h₃ => ?_)
      exact yields_bind (yields_modify (yields_pure ⟨k, rfl, h₃.answered⟩))
    | unsat =>
      rw [outcomes_succ] at h₂
      refine yields_bind (yields_get ?_)
      split
      · next b hb =>
        obtain ⟨hheeds, rfl, hneg, hk⟩ := boundReached_eq_some hb
        refine yields_bind ((h₂.info _).mono fun _ s₃ h₃ => yields_pure ?_)
        exact ⟨hheeds, k, _, h₂.bounded.1, hneg, hk, h₃.answered⟩
      · refine yields_bind (yields_get ?_)
        split
        · exact yields_pure trivial
        · refine yields_bind (h₂.pop.mono fun _ s₃ h₃ => ?_)
          refine yields_bind ((R.yields_next h₃ (by simp)).mono fun _ s₄ h₄ => ?_)
          refine yields_bind ((R.yields_step h₄ (by simp [Encoder.frames])).mono fun _ s₅ h₅ => ?_)
          refine yields_bind (h₅.push.mono fun _ s₆ h₆ => ?_)
          refine yields_bind ((R.yields_goal h₆ (j := k + 1) (k := k + 1)
            (by simp [Encoder.frames]) (Nat.le_refl _)).mono fun _ s₇ h₇ => ?_)
          exact ih h₇

/-- **What a verdict of bounded model checking rests on.** -/
theorem yields_bmc (heedsBound : Bool) (h : At rs P s [] {}) :
    (bmc e heedsBound).Yields s (BmcFound R rs P heedsBound) := by
  refine yields_bind (yields_modify ?_)
  have h₀ : At rs P { s with witness := none } [] {} := ⟨h.bounded, h.answered, h.now⟩
  refine yields_bind ((R.yields_first h₀ rfl).mono fun _ s₁ h₁ => ?_)
  refine yields_bind ((R.yields_init h₁ (by simp [Encoder.frames])).mono fun _ s₂ h₂ => ?_)
  refine yields_bind (h₂.push.mono fun _ s₃ h₃ => ?_)
  refine yields_bind ((R.yields_goal h₃ (j := 0) (k := 0) (by simp [Encoder.frames])
    (Nat.le_refl 0)).mono fun _ s₄ h₄ => ?_)
  exact yields_bind (yields_get (yields_bmcFrom R heedsBound h₄))

/-! ## What a verdict says -/

/-- The line is an answer other than `unknown`. -/
def Definite (line : String) : Prop :=
  Text.trim line = "sat" ∨ Text.trim line = "unsat"

instance : DecidablePred Definite :=
  fun _ => inferInstanceAs (Decidable (_ ∨ _))

variable {R}

theorem not_witness_of_past {d : Nat} {past : List (Scopes × Answer)} (htrue : Truthful rs s.sent)
    (h : Past rs s (outcomes R.bmcTest .unsat d ++ past)) : ∀ j < d, ¬ S.Witness j := by
  intro j hj
  rw [← R.witness_iff]
  refine htrue.unsatisfiable (h j _ _ ?_)
  rw [List.getElem?_append_left (by simpa using hj), getElem?_outcomes hj]

theorem definite_of_past {d : Nat}
    (h : Past rs s (outcomes R.bmcTest .unsat d ++ [(R.bmcTest d, .sat)])) :
    ∀ j ≤ d, ∃ l, rs[j]? = some l ∧ Definite l := by
  intro j hj
  rcases Nat.lt_or_eq_of_le hj with hlt | rfl
  · have hanswer := h j (R.bmcTest j) .unsat (by
      rw [List.getElem?_append_left (by simpa using hlt), getElem?_outcomes hlt])
    obtain ⟨-, l, -, -, hl, htrim, -⟩ := hanswer
    exact ⟨l, hl, .inr htrim⟩
  · have hanswer := h j (R.bmcTest j) .sat (by
      rw [List.getElem?_append_right (by simp), length_outcomes]
      simp)
    obtain ⟨-, l, -, -, hl, htrim, -⟩ := hanswer
    exact ⟨l, hl, .inl htrim⟩

/-- A witness that was found is a shortest one, and the answers up to it are definite. -/
theorem bmc_reachable {heedsBound : Bool} (htrue : Truthful rs s.sent)
    (h : BmcFound R rs P heedsBound (some .reachable) s) :
    ∃ d, s.witness = some d ∧ S.Shortest d ∧ ∀ j ≤ d, ∃ l, rs[j]? = some l ∧ Definite l := by
  obtain ⟨d, hd, hpast⟩ := h
  refine ⟨d, hd, ⟨?_, not_witness_of_past htrue hpast⟩, definite_of_past hpast⟩
  rw [← R.witness_iff]
  refine htrue.satisfiable (hpast d _ _ ?_)
  rw [List.getElem?_append_right (by simp), length_outcomes]
  simp

/-- A bound was reached below which there is no witness. -/
theorem bmc_notReachable {heedsBound : Bool} (htrue : Truthful rs s.sent)
    (h : BmcFound R rs P heedsBound (some .notReachable) s) :
    ∃ b : Nat, P b ∧ ∀ j < b, ¬ S.Witness j := by
  obtain ⟨-, d, b, hP, hb, hbd, hpast⟩ := h
  lift b to Nat using hb
  refine ⟨b, hP, fun j hj => ?_⟩
  rw [← List.append_nil (outcomes _ _ _)] at hpast
  exact not_witness_of_past htrue hpast j (by omega)

/-! ## Calm runs -/

/-- What follows the test at depth `k`. -/
def bmcNext (e : Encoder) (heedsBound : Bool) (fuel k : Nat) (w : Answer) :
    Work (Option Verdict) := do
  match w with
  | .sat =>
    report .bmc ("witness of length " ++ toString k)
    modify fun s => { s with witness := some k }
    return some .reachable
  | _ =>
    match boundReached heedsBound (← get) k with
    | some b =>
      report .bmc ("bound " ++ toString b ++ " reached")
      return some .notReachable
    | none =>
      if (← get).cohort.cancelled then return none
      else
        Work.pop
        Work.send (e.declarePlaces (some (k + 1)))
        Work.send (e.transitionRelation k (k + 1))
        Work.push
        Work.send (e.assertGoal (some (k + 1)))
        bmcFrom e heedsBound fuel (k + 1)

theorem bmcFrom_succ (e : Encoder) (heedsBound : Bool) (fuel k : Nat) :
    bmcFrom e heedsBound (fuel + 1) k = (do
      report .bmc ("depth " ++ toString k)
      bmcNext e heedsBound fuel k (← Work.checkSat true)) :=
  rfl

section Moves

variable {C : Stage → Stage → Prop} (hC : Stage.Course C)

include hC

theorem moves_bmcNext (e : Encoder) (heedsBound : Bool) {fuel : Nat}
    (hrec : ∀ k, (bmcFrom e heedsBound fuel k).Moves C) (k : Nat) (w : Answer) :
    (bmcNext e heedsBound fuel k w).Moves C := by
  have hrest : (bmcNext e heedsBound fuel k .unsat).Moves C := by
    refine hC.bind hC.get fun s => ?_
    split
    · exact hC.bind (hC.info _) fun _ => hC.pure _
    · refine hC.bind hC.get fun s => ?_
      split
      · exact hC.pure _
      · refine hC.bind hC.pop fun _ => hC.bind (hC.send _) fun _ => hC.bind (hC.send _) fun _ => ?_
        exact hC.bind hC.push fun _ => hC.bind (hC.send _) fun _ => hrec (k + 1)
  cases w with
  | sat => exact hC.bind (hC.info _) fun _ => hC.bind (fun s => hC.witness s _) fun _ => hC.pure _
  | unsat => exact hrest
  | unknown => exact hrest

theorem moves_bmcFrom (e : Encoder) (heedsBound : Bool) (fuel k : Nat) :
    (bmcFrom e heedsBound fuel k).Moves C := by
  induction fuel generalizing k with
  | zero => exact hC.throw _
  | succ fuel ih =>
    rw [bmcFrom_succ]
    refine hC.bind (hC.info _) fun _ => hC.bind (hC.checkSat true) fun w => ?_
    exact moves_bmcNext hC e heedsBound ih k w

end Moves

variable (R)

/-- The steps from one test to the next, where no bound is reached. -/
theorem ends_bmcNext {heedsBound : Bool} {fuel k : Nat} {past : List (Scopes × Answer)}
    {T : Except Fault (Option Verdict) → Stage → Prop} (h : Live rs P s past (R.bmcTest k) 1)
    (hdue : past.length < rs.length) (hbound : boundReached heedsBound s k = none)
    (hrest : ∀ s', Live rs P s' past (R.bmcTest (k + 1)) 1 →
      (bmcFrom e heedsBound fuel (k + 1)).Ends s' T) :
    (bmcNext e heedsBound fuel k .unsat).Ends s T := by
  refine ends_bind (does_get ?_)
  rw [hbound]
  refine ends_bind (does_get ?_)
  rw [if_neg (by simp [h.calm.1.1])]
  refine ends_bind ((h.pop hdue).mono fun _ s₁ h₁ => ?_)
  refine ends_bind ((h₁.send hdue (declarePlaces_eq R.writable _)
    (R.yields_next h₁.now (by simp))).mono fun _ s₂ h₂ => ?_)
  refine ends_bind ((h₂.send hdue (R.step_eq k)
    (R.yields_step h₂.now (by simp [Encoder.frames]))).mono fun _ s₃ h₃ => ?_)
  refine ends_bind ((h₃.push hdue).mono fun _ s₄ h₄ => ?_)
  refine ends_bind ((h₄.send hdue (R.goal_eq (k + 1)) (R.yields_goal h₄.now (j := k + 1)
    (k := k + 1) (by simp [Encoder.frames]) (Nat.le_refl _))).mono fun _ s₅ h₅ => ?_)
  exact hrest s₅ h₅

/-- A calm run from depth `k` finds the shortest witness `d`, if the answers up to there are true
and definite. -/
theorem ends_bmcFrom {fuel k d : Nat}
    (h : Live rs P s (outcomes R.bmcTest .unsat k) (R.bmcTest k) 1)
    (hfuel : rs.length < fuel + k) (hkd : k ≤ d) (hd : S.Shortest d)
    (hdefinite : ∀ j ≤ d, ∃ l, rs[j]? = some l ∧ Definite l) :
    (bmcFrom e false fuel k).Ends s fun r s' => Truthful rs s'.sent →
      r = .ok (some .reachable) ∧ s'.witness = some d := by
  have hdue : ∀ j ≤ d, j < rs.length := fun j hj => by
    obtain ⟨l, hl, -⟩ := hdefinite j hj
    exact (List.getElem?_eq_some_iff.mp hl).1
  induction fuel generalizing k s with
  | zero =>
    have := hdue k hkd
    omega
  | succ fuel ih =>
    rw [bmcFrom_succ]
    refine ends_bind ((h.info _).mono fun _ s₁ h₁ => ?_)
    obtain ⟨l, hl, hdef⟩ := hdefinite k hkd
    obtain ⟨cs, hfed⟩ := h₁.fed
    rw [length_outcomes] at hfed
    refine ends_bind (((does_checkSat h₁.calm hfed hl hdef true).and
      (h₁.now.checkSat true)).mono ?_)
    rintro w s₂ ⟨hcalm, h₂, hw⟩
    have hanswer : Answered rs s₂.sent k (R.bmcTest k) w := by
      refine h₂.answered k _ _ ?_
      rw [List.getElem?_append_right (by simp), length_outcomes]
      simp
    cases w with
    | unknown => exact absurd rfl (hw rfl)
    | sat =>
      refine ends_bind (((does_info hcalm.calm _).and (Stage.course_later.info _).yields).mono ?_)
      rintro _ s₃ ⟨-, hlater⟩
      intro htrue
      have hk : S.Witness k :=
        (R.witness_iff k).mp (htrue.satisfiable (hanswer.mono hlater.received))
      have hdk : ¬ k < d := fun hlt => hd.2 k hlt hk
      obtain rfl : k = d := by omega
      exact ⟨rfl, rfl⟩
    | unsat =>
      by_cases hend : k = d
      · -- the run goes on, but then the answer at depth `d` was not true
        intro htrue
        have hlater := moves_bmcNext Stage.course_later e false
          (moves_bmcFrom Stage.course_later e false fuel) k .unsat s₂
        have hk := htrue.unsatisfiable (hanswer.mono hlater.received)
        exact absurd ((R.witness_iff k).mpr (hend ▸ hd.1)) hk
      · rw [outcomes_succ] at h₂
        have hlen : (outcomes R.bmcTest .unsat (k + 1)).length < rs.length := by
          rw [length_outcomes]
          exact hdue (k + 1) (by omega)
        have hlive : Live rs P s₂ (outcomes R.bmcTest .unsat (k + 1)) (R.bmcTest k) 1 :=
          ⟨hcalm.calm, hcalm.depth.trans h₁.depth, h₂⟩
        exact ends_bmcNext R hlive hlen rfl fun s₃ h₃ => ih h₃ (by omega) (by omega)

/-- The steps before the first test; as many rounds are possible as lines are due. -/
theorem ends_bmcStart {heedsBound : Bool} {T : Except Fault (Option Verdict) → Stage → Prop}
    (h : Live rs P s [] {} 0) (hdue : 0 < rs.length)
    (hrest : ∀ s' fuel, rs.length < fuel → Live rs P s' [] (R.bmcTest 0) 1 →
      (bmcFrom e heedsBound fuel 0).Ends s' T) :
    (bmc e heedsBound).Ends s T := by
  refine ends_bind (does_modify ?_)
  have h₀ : Live rs P { s with witness := none } [] {} 0 :=
    ⟨h.calm, h.depth, h.now.bounded, h.now.answered, h.now.now⟩
  refine ends_bind ((h₀.send hdue (declarePlaces_eq R.writable _)
    (R.yields_first h₀.now rfl)).mono fun _ s₁ h₁ => ?_)
  refine ends_bind ((h₁.send hdue R.initial_eq
    (R.yields_init h₁.now (by simp [Encoder.frames]))).mono fun _ s₂ h₂ => ?_)
  refine ends_bind ((h₂.push hdue).mono fun _ s₃ h₃ => ?_)
  refine ends_bind ((h₃.send hdue (R.goal_eq 0) (R.yields_goal h₃.now (j := 0) (k := 0)
    (by simp [Encoder.frames]) (Nat.le_refl 0))).mono fun _ s₄ h₄ => ?_)
  exact ends_bind (does_get (hrest s₄ _ (Nat.lt_succ_of_le h₄.length_le_supply) h₄))

include R in
/-- **A calm run finds the shortest witness**, if the answers up to there are true and definite. -/
theorem ends_bmc {d : Nat} (h : Live rs P s [] {} 0) (hd : S.Shortest d)
    (hdefinite : ∀ j ≤ d, ∃ l, rs[j]? = some l ∧ Definite l) :
    (bmc e false).Ends s fun r s' => Truthful rs s'.sent →
      r = .ok (some .reachable) ∧ s'.witness = some d := by
  have hdue : 0 < rs.length := by
    obtain ⟨l, hl, -⟩ := hdefinite 0 (Nat.zero_le d)
    exact (List.getElem?_eq_some_iff.mp hl).1
  exact ends_bmcStart R h hdue fun s' fuel hfuel h' =>
    ends_bmcFrom R h' hfuel (Nat.zero_le d) hd hdefinite

end PetriReach.Strategy
