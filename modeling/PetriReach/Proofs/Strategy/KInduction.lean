import PetriReach.Proofs.Strategy.Bmc
import PetriReach.Strategy.KInduction

/-!
# Runs of k-induction

A run tests for first entries of length 0, 1, 2 and so on, and publishes the first length for which
there is none. Until then the bound cell is as it was.

* `Strategy.ends_kInduction`: what a bound that was published rests on.
* `Strategy.kInduction_least`: it is the least length without a first entry.
-/

namespace PetriReach.Strategy

open Smt Work Encoder

variable {e : Encoder} {σ : Type} {S : System σ} (R : e.Reading S) {rs : List String} {s : Stage}

/-- No bound is in the cell, now or later. -/
def Unbounded (s : Stage) : Prop :=
  s.toArena.Bounded (· < 0)

/-- What is in the cell when k-induction is over: still no bound, or one that rests on all tests. -/
def KEnd (rs : List String) (s : Stage) : Prop :=
  Unbounded s ∨ ∃ k : Nat, s.toArena.Bounded (fun b => b < 0 ∨ b = k) ∧
    Past rs s (outcomes R.kTest .sat k ++ [(R.kTest k, .unsat)])

theorem moves_unbounded {α : Type} {w : Work α} (hw : ∀ {C}, Stage.Course C → w.Moves C) :
    w.Moves fun s s' => Unbounded s → Unbounded s' :=
  hw (Stage.course_bounded (· < 0))

/-- A step that leaves the cell alone. -/
theorem ends_quiet {α : Type} {w : Work α} {f : α → Work (Option Verdict)} (hs : Unbounded s)
    (hw : ∀ {C}, Stage.Course C → w.Moves C)
    (h : w.Yields s fun a s' => (f a).Ends s' fun _ s' => KEnd R rs s') :
    (w >>= f).Ends s fun _ s' => KEnd R rs s' :=
  ends_seq (moves_unbounded hw) (fun _ _ hs' => .inl (hs' hs)) h

/-- From step `k` on, where there was a first entry of every length before. -/
theorem ends_kInductionFrom {fuel k : Nat}
    (h : At rs (· < 0) s (outcomes R.kTest .sat k) (R.kBase k)) :
    (kInductionFrom e fuel k).Ends s fun _ s' => KEnd R rs s' := by
  induction fuel generalizing k s with
  | zero => exact .inl h.bounded
  | succ fuel ih =>
    refine ends_bind (does_get ?_)
    split
    · exact .inl h.bounded
    · refine ends_quiet R h.bounded (fun hC => hC.info _) ((h.info _).mono fun _ s₁ h₁ => ?_)
      refine ends_quiet R h₁.bounded (fun hC => hC.push) (h₁.push.mono fun _ s₂ h₂ => ?_)
      refine ends_quiet R h₂.bounded (fun hC => hC.send _) ((R.yields_goal h₂ (j := k) (k := k)
        (by simp) (Nat.le_refl k)).mono fun _ s₃ h₃ => ?_)
      refine ends_quiet R h₃.bounded (fun hC => hC.checkSat true) ((h₃.checkSat true).mono ?_)
      rintro w s₄ ⟨h₄, hdefinite⟩
      cases w with
      | unknown => exact absurd rfl (hdefinite rfl)
      | unsat =>
        refine ends_quiet R h₄.bounded (fun hC => hC.info _) ((h₄.info _).mono fun _ s₅ h₅ => ?_)
        have hlater : ∀ event ∈ s₅.agenda, ∀ b, event.2 = .publish b → b < 0 ∨ b = k :=
          fun event hevent b hb => .inl (h₅.bounded.agenda event hevent b hb)
        have hmeanwhile : ∀ events ∈ s₅.meanwhile, ∀ b : Int, .publish b ∈ events → b < 0 ∨ b = k :=
          fun events hevents b hb => .inl (h₅.bounded.meanwhile events hevents b hb)
        exact .inr ⟨k, ⟨.inr rfl, hlater, hmeanwhile⟩, h₅.answered⟩
      | sat =>
        have h₄ : At rs (· < 0) s₄ (outcomes R.kTest .sat (k + 1)) (R.kTest k) :=
          outcomes_succ R.kTest .sat k ▸ h₄
        refine ends_quiet R h₄.bounded (fun hC => hC.pop) (h₄.pop.mono fun _ s₅ h₅ => ?_)
        refine ends_quiet R h₅.bounded (fun hC => hC.send _) ((R.yields_refute h₅ (j := k) (k := k)
          (by simp) (Nat.le_refl k)).mono fun _ s₆ h₆ => ?_)
        refine ends_quiet R h₆.bounded (fun hC => hC.send _) ((R.yields_next h₆ (by simp)).mono
          fun _ s₇ h₇ => ?_)
        refine ends_quiet R h₇.bounded (fun hC => hC.send _) ((R.yields_step h₇
          (by simp [Encoder.frames])).mono fun _ s₈ h₈ => ?_)
        exact ih h₈

/-- **What a bound that was published rests on.** -/
theorem ends_kInduction (h : At rs (· < 0) s [] {}) :
    (kInduction e).Ends s fun _ s' => KEnd R rs s' := by
  refine ends_quiet R h.bounded (fun hC => hC.send _)
    ((R.yields_first h rfl).mono fun _ s₁ h₁ => ?_)
  exact ends_bind (does_get (ends_kInductionFrom R h₁))

omit R in
/-- K-induction has no verdict of its own. -/
theorem yields_kInduction : (kInduction e).Yields s fun v _ => v = none := by
  have hfrom : ∀ (fuel k : Nat) (s : Stage),
      (kInductionFrom e fuel k).Yields s fun v _ => v = none := by
    intro fuel
    induction fuel with
    | zero => exact fun _ _ => yields_throw _
    | succ fuel ih =>
      intro k s
      refine yields_bind (yields_get ?_)
      split
      · exact yields_pure rfl
      · refine yields_bind fun _ s₁ _ => yields_bind fun _ s₂ _ => yields_bind fun _ s₃ _ =>
          yields_bind fun w s₄ _ => ?_
        dsimp only
        split
        · exact yields_bind fun _ s₅ _ => yields_bind fun _ s₆ _ => yields_pure rfl
        · exact yields_bind fun _ s₅ _ => yields_bind fun _ s₆ _ => yields_bind fun _ s₇ _ =>
            yields_bind fun _ s₈ _ => ih (k + 1) s₈
  exact yields_bind fun _ s₁ _ => yields_bind (yields_get (hfrom _ 0 s₁))

variable {R}

/-- A bound that is in the cell afterwards is the least length without a first entry. -/
theorem kInduction_least (htrue : Truthful rs s.sent) (h : KEnd R rs s) {a : Arena}
    (ha : ∀ P, s.toArena.Bounded P → a.Bounded P) {b : Int} (hb : a.bound.poll = some b) :
    ∃ k : Nat, b = k ∧ ¬ S.Entry k ∧ ∀ j < k, S.Entry j := by
  obtain ⟨hneg, rfl⟩ : ¬ a.bound.value < 0 ∧ a.bound.value = b := by
    unfold Bound.poll at hb
    split at hb
    · cases hb
    · next hneg => exact ⟨hneg, Option.some.inj hb⟩
  rcases h with hunbounded | ⟨k, hk, hpast⟩
  · exact absurd (ha _ hunbounded).1 hneg
  · refine ⟨k, (ha _ hk).1.resolve_left hneg, ?_, fun j hj => ?_⟩
    · rw [← R.entry_iff]
      refine htrue.unsatisfiable (hpast k _ _ ?_)
      rw [List.getElem?_append_right (by simp), length_outcomes]
      simp
    · rw [← R.entry_iff]
      refine htrue.satisfiable (hpast j _ _ ?_)
      rw [List.getElem?_append_left (by simpa using hj), getElem?_outcomes hj]

end PetriReach.Strategy
