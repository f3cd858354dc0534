import PetriReach.Proofs.Encoder.Scripts
import PetriReach.Proofs.Solver.Transcript
import PetriReach.Proofs.Strategy.Bmc
import PetriReach.Strategy.Induction
import PetriReach.Strategy.KInduction

/-!
# Scripts of the strategies

Whatever is answered and whatever breaks in, a strategy puts each of its tests behind the script of
its number. Its loop never runs out of rounds: if it waits in vain, it does so at a test.

* `Strategy.keeps_bmc`, `Strategy.keeps_kInduction`, `Strategy.keeps_induction`: the tests of a
  strategy are posed as they are meant.
-/

namespace PetriReach

open Smt Work

namespace Encoder.Reading

variable {e : Encoder} {σ : Type} {S : System σ} (R : e.Reading S) {T : Nat → Option Script}
  {D : Nat → Nat} {s : Stage} {n depth fuel : Nat} {cs : Script}

include R in
/-- Terms over the variables of some steps are no test. -/
theorem asserts_ne_ask {k : Nat} {ts : List Term}
    (hts : ∀ t ∈ ts, t.sort? (e.frames k) = some .bool) :
    Script.render (ts.map .assert) ≠ ask := by
  refine Script.render_ne_ask (fun c hc => ?_) (by simp)
  obtain ⟨t, ht, rfl⟩ := List.mem_map.mp hc
  refine Command.Readable.written (Term.within_of_sort? (fun d hd => ?_) (hts t ht))
  obtain ⟨j, -, p, hp, rfl⟩ := mem_frames.mp hd
  exact R.writable.readable R.wellFormed (List.mem_map_of_mem hp)

include R in
theorem told_declare (h : Told T s n cs depth fuel) (k : Int) :
    Keeps T D (send (e.declarePlaces (some k))) s fun _ s' =>
      Told T s' n (cs ++ e.declarations k) depth fuel := by
  refine h.send (declarePlaces_eq R.writable _) (Script.render_ne_ask ?_
    not_checkSat_of_mem_declareVars)
  exact within_declareVars fun x hx => (R.writable.readable R.wellFormed hx).1

theorem told_init (h : Told T s n cs depth fuel) :
    Keeps T D (send (e.initialMarking (some 0))) s fun _ s' =>
      Told T s' n (cs ++ R.initTerms.map .assert) depth fuel :=
  h.send R.initial_eq (R.asserts_ne_ask (R.init_sort (covers_frames (Nat.le_refl 0))))

theorem told_step (h : Told T s n cs depth fuel) (k : Nat) :
    Keeps T D (send (e.transitionRelation k (k + 1))) s fun _ s' =>
      Told T s' n (cs ++ [.assert (R.stepTerm k)]) depth fuel := by
  have hsort := R.step_sort (covers_frames (Nat.le_succ k)) (covers_frames (Nat.le_refl (k + 1)))
  exact h.send (R.step_eq k) (R.asserts_ne_ask (List.forall_mem_singleton.mpr hsort))

theorem told_goal (h : Told T s n cs depth fuel) (k : Nat) :
    Keeps T D (send (e.assertGoal (some (k : Int)))) s fun _ s' =>
      Told T s' n (cs ++ [.assert (R.goalAt k)]) depth fuel := by
  have hsort := R.goal_sort (covers_frames (Nat.le_refl k))
  exact h.send (R.goal_eq k) (R.asserts_ne_ask (List.forall_mem_singleton.mpr hsort))

theorem told_refute (h : Told T s n cs depth fuel) (k : Nat) :
    Keeps T D (send (e.refuteGoal (some (k : Int)))) s fun _ s' =>
      Told T s' n (cs ++ [.assert (R.goalAt k).not]) depth fuel := by
  have hsort := Term.sort?_not (R.goal_sort (covers_frames (Nat.le_refl k)))
  exact h.send (R.refute_eq k) (R.asserts_ne_ask (List.forall_mem_singleton.mpr hsort))

end Encoder.Reading

namespace Strategy

variable {e : Encoder} {σ : Type} {S : System σ} (R : e.Reading S) {s : Stage}

/-- The work of a strategy leaves its tests posed as they are meant. -/
def Keeps (method : Method) (w : Work (Option Verdict)) (s : Stage) : Prop :=
  Work.Keeps (R.script method) method.openScopes w s fun _ s' => Posed (R.script method) s'.sent

theorem Keeps.posed {R : e.Reading S} {method : Method} {w : Work (Option Verdict)}
    (h : Keeps R method w s) : Posed (R.script method) (w.start s).2.sent := by
  cases hr : (w.start s).1 with
  | ok v => exact h.1 v _ (Prod.ext hr rfl)
  | error e => exact (h.2 e _ (Prod.ext hr rfl)).1

/-- From depth `k` on. -/
theorem keeps_bmcFrom (heedsBound : Bool) {fuel k : Nat}
    (h : Told (R.script .bmc) s k (R.bmcScript k) 1 fuel) :
    Keeps R .bmc (bmcFrom e heedsBound fuel k) s := by
  induction fuel generalizing k s with
  | zero => exact absurd h.stock (Nat.not_lt_zero _)
  | succ fuel ih =>
    refine keeps_bind ((h.info _).mono fun _ s₁ h₁ => ?_)
    refine keeps_bind ((Told.checkSat h₁ rfl true).mono fun w s₂ h₂ => ?_)
    -- whatever the answer, unless it is `sat`
    have hrest : Keeps R .bmc (bmcNext e heedsBound fuel k .unsat) s₂ := by
      refine keeps_bind (keeps_get ?_)
      split
      · exact keeps_bind ((h₂.info _).mono fun _ s₃ h₃ => keeps_pure h₃.posed)
      · refine keeps_bind (keeps_get ?_)
        split
        · exact keeps_pure h₂.posed
        · refine keeps_bind ((Told.pop h₂).mono fun _ s₃ h₃ => ?_)
          refine keeps_bind ((R.told_declare h₃ (k + 1)).mono fun _ s₄ h₄ => ?_)
          refine keeps_bind ((R.told_step h₄ k).mono fun _ s₅ h₅ => ?_)
          refine keeps_bind (h₅.push.mono fun _ s₆ h₆ => ?_)
          refine keeps_bind ((R.told_goal h₆ (k + 1)).mono fun _ s₇ h₇ => ?_)
          exact ih h₇
    cases w with
    | sat =>
      refine keeps_bind ((h₂.info _).mono fun _ s₃ h₃ => ?_)
      exact keeps_bind (keeps_modify (keeps_pure h₃.posed))
    | unsat => exact hrest
    | unknown => exact hrest

/-- **The tests of bounded model checking** are posed as they are meant. -/
theorem keeps_bmc (heedsBound : Bool) {fuel : Nat} (h : Told (R.script .bmc) s 0 [] 0 fuel) :
    Keeps R .bmc (bmc e heedsBound) s := by
  refine keeps_bind (keeps_modify ?_)
  have h₀ : Told (R.script .bmc) { s with witness := none } 0 [] 0 fuel :=
    ⟨h.posed, h.depth, h.stock, h.now⟩
  refine keeps_bind ((R.told_declare h₀ 0).mono fun _ s₁ h₁ => ?_)
  refine keeps_bind ((R.told_init h₁).mono fun _ s₂ h₂ => ?_)
  refine keeps_bind (h₂.push.mono fun _ s₃ h₃ => ?_)
  refine keeps_bind ((R.told_goal h₃ 0).mono fun _ s₄ h₄ => ?_)
  exact keeps_bind (keeps_get (keeps_bmcFrom R heedsBound h₄.refuel))

/-- From step `k` on. -/
theorem keeps_kInductionFrom {fuel k : Nat}
    (h : Told (R.script .kInduction) s k (R.kBaseScript k) 0 fuel) :
    Keeps R .kInduction (kInductionFrom e fuel k) s := by
  induction fuel generalizing k s with
  | zero => exact absurd h.stock (Nat.not_lt_zero _)
  | succ fuel ih =>
    refine keeps_bind (keeps_get ?_)
    split
    · exact keeps_pure h.posed
    · refine keeps_bind ((h.info _).mono fun _ s₁ h₁ => ?_)
      refine keeps_bind (h₁.push.mono fun _ s₂ h₂ => ?_)
      refine keeps_bind ((R.told_goal h₂ k).mono fun _ s₃ h₃ => ?_)
      refine keeps_bind ((Told.checkSat h₃ rfl true).mono fun w s₄ h₄ => ?_)
      split
      · refine keeps_bind ((h₄.info _).mono fun _ s₅ h₅ => ?_)
        exact keeps_bind (keeps_modify (keeps_pure h₅.posed))
      · refine keeps_bind ((Told.pop h₄).mono fun _ s₅ h₅ => ?_)
        refine keeps_bind ((R.told_refute h₅ k).mono fun _ s₆ h₆ => ?_)
        refine keeps_bind ((R.told_declare h₆ (k + 1)).mono fun _ s₇ h₇ => ?_)
        refine keeps_bind ((R.told_step h₇ k).mono fun _ s₈ h₈ => ?_)
        exact ih h₈

/-- **The tests of k-induction** are posed as they are meant. -/
theorem keeps_kInduction {fuel : Nat} (h : Told (R.script .kInduction) s 0 [] 0 fuel) :
    Keeps R .kInduction (kInduction e) s := by
  refine keeps_bind ((R.told_declare h 0).mono fun _ s₁ h₁ => ?_)
  exact keeps_bind (keeps_get (keeps_kInductionFrom R h₁.refuel))

/-- **The tests of induction** are posed as they are meant. -/
theorem keeps_induction {fuel : Nat} (h : Told (R.script .induction) s 0 [] 0 (fuel + 2)) :
    Keeps R .induction (induction e) s := by
  refine keeps_bind ((R.told_declare h 0).mono fun _ s₁ h₁ => ?_)
  refine keeps_bind (h₁.push.mono fun _ s₂ h₂ => ?_)
  refine keeps_bind ((R.told_init h₂).mono fun _ s₃ h₃ => ?_)
  refine keeps_bind ((R.told_goal h₃ 0).mono fun _ s₄ h₄ => ?_)
  refine keeps_bind ((Told.checkSat h₄ rfl true).mono fun w s₅ h₅ => ?_)
  split
  · exact keeps_pure h₅.posed
  · refine keeps_bind ((Told.pop h₅).mono fun _ s₆ h₆ => ?_)
    refine keeps_bind (keeps_get ?_)
    split
    · exact keeps_pure h₆.posed
    · refine keeps_bind ((R.told_declare h₆ 1).mono fun _ s₇ h₇ => ?_)
      refine keeps_bind ((R.told_refute h₇ 0).mono fun _ s₈ h₈ => ?_)
      refine keeps_bind ((R.told_step h₈ 0).mono fun _ s₉ h₉ => ?_)
      refine keeps_bind ((R.told_goal h₉ 1).mono fun _ s₁₀ h₁₀ => ?_)
      refine keeps_bind ((Told.checkSat h₁₀ rfl false).mono fun w s₁₁ h₁₁ => ?_)
      split <;> exact keeps_pure h₁₁.posed

end Strategy

end PetriReach
