import PetriReach.Proofs.Strategy.Induction
import PetriReach.Proofs.Strategy.Moves

/-!
# Strategies go on

On a calm stage, without a bound, a strategy that is answered puts its tests one after another:
bounded model checking as long as no witness is found, k-induction as long as there are first
entries, and induction its second test once the first has failed.

* `Method.Driven`: the answers that lead a strategy to a test.
* `Strategy.puts_bmc`, `Strategy.puts_kInduction`, `Strategy.puts_induction`: the test is put.
-/

namespace PetriReach

open Smt Work Encoder

/-- The answer after which a strategy goes on to its next test. -/
def Method.onward : Method → Answer
  | .kInduction => .sat
  | _ => .unsat

/-- The lines `rs` answer the test number `n`, and those before it so that the strategy goes on. -/
structure Method.Driven (method : Method) (rs : List String) (n : Nat) : Prop where
  before : ∀ j < n, ∃ l, rs[j]? = some l ∧ Text.trim l = method.onward.text
  due : ∃ l, rs[n]? = some l ∧ Strategy.Definite l
  last : method = .induction → n ≤ 1

namespace Method.Driven

variable {method : Method} {rs : List String} {n : Nat} (h : method.Driven rs n)

include h

theorem definite {j : Nat} (hj : j ≤ n) : ∃ l, rs[j]? = some l ∧ Strategy.Definite l := by
  rcases Nat.lt_or_eq_of_le hj with hlt | rfl
  · obtain ⟨l, hl, htrim⟩ := h.before j hlt
    refine ⟨l, hl, ?_⟩
    rw [Strategy.Definite, htrim]
    cases method with
    | kInduction => exact .inl rfl
    | _ => exact .inr rfl
  · exact h.due

theorem lt_length {j : Nat} (hj : j ≤ n) : j < rs.length := by
  obtain ⟨l, hl, -⟩ := h.definite hj
  exact (List.getElem?_eq_some_iff.mp hl).1

/-- The answer to a test before the last. -/
theorem answer_eq {j : Nat} (hj : j < n) {l : String} (hl : rs[j]? = some l) {w : Answer}
    (hw : w.text = Text.trim l) : w = method.onward := by
  obtain ⟨l', hl', htrim⟩ := h.before j hj
  rw [hl, Option.some.injEq] at hl'
  subst hl'
  exact text_inj (hw.trans htrim)

end Method.Driven

namespace Strategy

variable {e : Encoder} {σ : Type} {S : System σ} (R : e.Reading S) {rs : List String}
  {P : Int → Prop} {s : Stage} {n : Nat}

/-- What was put stays put. -/
theorem ends_of_put {w : Work (Option Verdict)}
    (hw : w.Moves fun s s' => s.session.Later s'.session) (h : n < s.sent.count ask) :
    w.Ends s fun _ s' => n < s'.sent.count ask :=
  Nat.lt_of_lt_of_le h ((hw s).received.sublist.count_le ask)

/-- A test that is answered is put, and either it was test number `n` or the strategy goes on. -/
theorem ends_test {method : Method} (hdriven : method.Driven rs n) {past : List (Scopes × Answer)}
    {t : Scopes} {depth : Nat} (h : Live rs P s past t depth) (hpast : past.length ≤ n)
    (required : Bool) {f : Answer → Work (Option Verdict)}
    (hf : ∀ w, (f w).Moves fun s s' => s.session.Later s'.session)
    (hnext : past.length < n → ∀ s', Live rs P s' (past ++ [(t, method.onward)]) t depth →
      (f method.onward).Ends s' fun _ s' => n < s'.sent.count ask) :
    (checkSat required >>= f).Ends s fun _ s' => n < s'.sent.count ask := by
  obtain ⟨l, hl, hdefinite⟩ := hdriven.definite hpast
  refine ends_bind ((does_test h hl hdefinite required).mono ?_)
  rintro w s' ⟨h', hw, -⟩
  rcases Nat.lt_or_eq_of_le hpast with hlt | rfl
  · obtain rfl := hdriven.answer_eq hlt hl hw
    exact hnext hlt s' h'
  · refine ends_of_put (hf w) ?_
    rw [h'.count_ask, List.length_append]
    exact Nat.lt_succ_self _

/-! ## Bounded model checking -/

theorem puts_bmcFrom (hdriven : Method.bmc.Driven rs n) {heedsBound : Bool} {fuel k : Nat}
    (h : Live rs (· < 0) s (outcomes R.bmcTest .unsat k) (R.bmcTest k) 1)
    (hfuel : rs.length < fuel + k) (hkn : k ≤ n) :
    (bmcFrom e heedsBound fuel k).Ends s fun _ s' => n < s'.sent.count ask := by
  induction fuel generalizing k s with
  | zero =>
    have hlt := hdriven.lt_length hkn
    omega
  | succ fuel ih =>
    rw [bmcFrom_succ]
    refine ends_bind ((h.info _).mono fun _ s₁ h₁ => ?_)
    refine ends_test hdriven h₁ (by simpa using hkn) true (fun w => ?_) fun hlt s₂ h₂ => ?_
    · exact moves_bmcNext Stage.course_later e heedsBound
        (moves_bmcFrom Stage.course_later e heedsBound fuel) k w
    · rw [length_outcomes] at hlt
      have h₂ : Live rs (· < 0) s₂ (outcomes R.bmcTest .unsat (k + 1)) (R.bmcTest k) 1 :=
        outcomes_succ R.bmcTest .unsat k ▸ h₂
      -- no bound is in the cell
      have hbound : boundReached heedsBound s₂ k = none := by
        cases hreached : boundReached heedsBound s₂ k with
        | none => rfl
        | some b =>
          obtain ⟨-, rfl, hb, -⟩ := boundReached_eq_some hreached
          have hneg := h₂.now.bounded.1
          omega
      have hdue : (outcomes R.bmcTest .unsat (k + 1)).length < rs.length := by
        rw [length_outcomes]
        exact hdriven.lt_length hlt
      exact ends_bmcNext R h₂ hdue hbound fun s₃ h₃ => ih h₃ (by omega) hlt

include R in
/-- **Bounded model checking goes on** as long as no witness is found. -/
theorem puts_bmc (hdriven : Method.bmc.Driven rs n) (heedsBound : Bool)
    (h : Live rs (· < 0) s [] {} 0) :
    (bmc e heedsBound).Ends s fun _ s' => n < s'.sent.count ask :=
  ends_bmcStart R h (hdriven.lt_length (Nat.zero_le n)) fun _ _ hfuel h' =>
    puts_bmcFrom R hdriven h' hfuel (Nat.zero_le n)

/-! ## K-induction -/

theorem puts_kInductionFrom (hdriven : Method.kInduction.Driven rs n) {fuel k : Nat}
    (h : Live rs P s (outcomes R.kTest .sat k) (R.kBase k) 0)
    (hfuel : rs.length < fuel + k) (hkn : k ≤ n) :
    (kInductionFrom e fuel k).Ends s fun _ s' => n < s'.sent.count ask := by
  induction fuel generalizing k s with
  | zero =>
    have hlt := hdriven.lt_length hkn
    omega
  | succ fuel ih =>
    have hpast : (outcomes R.kTest .sat k).length < rs.length := by
      rw [length_outcomes]
      exact hdriven.lt_length hkn
    rw [kInductionFrom_succ]
    refine ends_bind (does_get ?_)
    rw [if_neg (by simp [h.calm.1.1])]
    refine ends_bind ((h.info _).mono fun _ s₁ h₁ => ?_)
    refine ends_bind ((h₁.push hpast).mono fun _ s₂ h₂ => ?_)
    refine ends_bind ((h₂.send hpast (R.goal_eq k) (R.yields_goal h₂.now (j := k) (k := k)
      (by simp) (Nat.le_refl k))).mono fun _ s₃ h₃ => ?_)
    refine ends_test hdriven h₃ (by simpa using hkn) true (fun w => ?_) fun hlt s₄ h₄ => ?_
    · have hpublish : ∀ (s : Stage) (n : Nat),
          s.session.Later ({ s with bound := s.bound.publish n } : Stage).session :=
        fun s _ => .refl s.session
      exact Stage.course_later.kNext e hpublish
        (Stage.course_later.kInductionFrom e hpublish fuel) k w
    · rw [length_outcomes] at hlt
      have h₄ : Live rs P s₄ (outcomes R.kTest .sat (k + 1)) (R.kTest k) 1 :=
        outcomes_succ R.kTest .sat k ▸ h₄
      have hdue : (outcomes R.kTest .sat (k + 1)).length < rs.length := by
        rw [length_outcomes]
        exact hdriven.lt_length hlt
      refine ends_bind ((h₄.pop hdue).mono fun _ s₅ h₅ => ?_)
      refine ends_bind ((h₅.send hdue (R.refute_eq k) (R.yields_refute h₅.now (j := k) (k := k)
        (by simp) (Nat.le_refl k))).mono fun _ s₆ h₆ => ?_)
      refine ends_bind ((h₆.send hdue (declarePlaces_eq R.writable _)
        (R.yields_next h₆.now (by simp))).mono fun _ s₇ h₇ => ?_)
      refine ends_bind ((h₇.send hdue (R.step_eq k)
        (R.yields_step h₇.now (by simp [Encoder.frames]))).mono fun _ s₈ h₈ => ?_)
      exact ih h₈ (by omega) hlt

include R in
/-- **K-induction goes on** as long as there are first entries. -/
theorem puts_kInduction (hdriven : Method.kInduction.Driven rs n) (h : Live rs P s [] {} 0) :
    (kInduction e).Ends s fun _ s' => n < s'.sent.count ask := by
  have hdue : ([] : List (Scopes × Answer)).length < rs.length :=
    hdriven.lt_length (Nat.zero_le n)
  refine ends_bind ((h.send hdue (declarePlaces_eq R.writable _)
    (R.yields_first h.now rfl)).mono fun _ s₁ h₁ => ?_)
  exact ends_bind (does_get (puts_kInductionFrom R hdriven h₁
    (Nat.lt_succ_of_le h₁.length_le_supply) (Nat.zero_le n)))

/-! ## Induction -/

/-- The second test is put. -/
theorem puts_inductionStep (hdriven : Method.induction.Driven rs 1)
    (h : Live rs P s [(R.baseTest, .unsat)]
      (({} : Scopes).extend (e.frame (some 0)) (e.bounds (some 0))) 0) :
    (inductionStep e).Ends s fun _ s' => 1 < s'.sent.count ask := by
  obtain ⟨l, hl, hdefinite⟩ := hdriven.due
  obtain ⟨v, s', hs', hend⟩ := does_inductionStep R hl hdefinite h
  have hanswered : ∃ t w, Answered rs s'.sent 1 t w := by
    cases v with
    | none => exact hend.elim
    | some v =>
      cases v with
      | notReachable => exact ⟨_, _, hend 1 _ _ rfl⟩
      | unknown => exact ⟨_, _, hend 1 _ _ rfl⟩
      | reachable =>
        -- the first answer was another
        obtain ⟨before, l₀, -, -, hl₀, htrim, -⟩ := hend 0 _ _ rfl
        exact absurd (hdriven.answer_eq Nat.one_pos hl₀ htrim.symm) (by decide)
  obtain ⟨t, w, before, line, hpre, hcount, -⟩ := hanswered
  unfold Ends
  rw [hs']
  have hle := hpre.sublist.count_le ask
  rw [List.count_append, hcount, List.count_singleton_self] at hle
  exact hle

include R in
/-- **Induction goes on** to its second test once the first has failed. -/
theorem puts_induction (hdriven : Method.induction.Driven rs n) (h : Live rs P s [] {} 0) :
    (induction e).Ends s fun _ s' => n < s'.sent.count ask := by
  have hdue : ([] : List (Scopes × Answer)).length < rs.length :=
    hdriven.lt_length (Nat.zero_le n)
  rw [induction_eq]
  refine ends_bind ((h.send hdue (declarePlaces_eq R.writable _)
    (R.yields_first h.now rfl)).mono fun _ s₁ h₁ => ?_)
  refine ends_bind ((h₁.push hdue).mono fun _ s₂ h₂ => ?_)
  refine ends_bind ((h₂.send hdue R.initial_eq
    (R.yields_init h₂.now (by simp [Encoder.frames]))).mono fun _ s₃ h₃ => ?_)
  refine ends_bind ((h₃.send hdue (R.goal_eq 0) (R.yields_goal (j := 0) (k := 0) h₃.now
    (by simp [Encoder.frames]) (Nat.le_refl 0))).mono fun _ s₄ h₄ => ?_)
  refine ends_test hdriven h₄ (Nat.zero_le n) true
    (Stage.course_later.inductionNext e) fun hlt s₅ h₅ => ?_
  obtain rfl : n = 1 := Nat.le_antisymm (hdriven.last rfl) hlt
  have hdue' : [(R.baseTest, Answer.unsat)].length < rs.length := hdriven.lt_length (Nat.le_refl 1)
  refine ends_bind ((h₅.pop hdue').mono fun _ s₆ h₆ => ends_bind (does_get ?_))
  rw [if_neg (by simp [h₆.calm.1.1])]
  exact puts_inductionStep R hdriven h₆

end Strategy

end PetriReach
