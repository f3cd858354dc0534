import PetriReach.Proofs.Encoder.Names
import PetriReach.Proofs.Solver.Transcript
import PetriReach.Proofs.Strategy.Moves

/-!
# Strategies and errors of the encoder

An error of the encoder stops a strategy only where a script is sent that cannot be written. So none
does if all that the strategy asks of its encoder can be written.

* `Work.Encoded`: no error of the encoder stops the work.
* `Strategy.encoded_bmc`, `Strategy.encoded_induction` and their like: one rule for each strategy.
-/

namespace PetriReach

namespace Work

variable {α : Type}

/-- No error of the encoder stops the work. -/
abbrev Encoded (w : Work α) : Prop :=
  w.Throws fun e _ => ∀ x, e ≠ .encoding x

theorem encoded_write (text : String) : (write text).Encoded :=
  throws_write (fun _ _ _ _ => Fault.noConfusion) text

theorem encoded_checkSat (required : Bool) : (checkSat required).Encoded :=
  throws_checkSat (fun _ _ _ _ => Fault.noConfusion) (fun _ _ => Fault.noConfusion) required

theorem encoded_send {script : Except EncodingError Smt.Script} (h : ∃ cs, script = .ok cs) :
    (send script).Encoded := by
  obtain ⟨cs, rfl⟩ := h
  exact encoded_write _

theorem encoded_push : push.Encoded :=
  throws_bind (encoded_write _) fun _ => throws_modify _

theorem encoded_pop : pop.Encoded := by
  rw [pop_eq]
  exact throws_guarded (throws_throw fun _ _ => Fault.noConfusion)
    (throws_bind (encoded_write _) fun _ => throws_modify _)

end Work

namespace Encoder.Unrollable

variable {e : Encoder} (h : e.Unrollable) (k : Option Int)

include h

theorem assertGoal : ∃ cs, e.assertGoal k = .ok cs := by
  obtain ⟨t, ht⟩ := h.goal k false
  rw [Encoder.assertGoal, ht]
  exact ⟨_, rfl⟩

theorem refuteGoal : ∃ cs, e.refuteGoal k = .ok cs := by
  obtain ⟨t, ht⟩ := h.goal k true
  rw [Encoder.refuteGoal, ht]
  exact ⟨_, rfl⟩

end Encoder.Unrollable

namespace Strategy

open Work

variable {e : Encoder}

theorem encoded_report (m : Method) (text : String) : (report m text).Encoded :=
  throws_modify _

theorem encoded_stateEquation (h : e.Total) (hint : e.encoding = .integer) :
    (stateEquation e).Encoded := by
  refine throws_bind (encoded_send (h.places none)) fun _ =>
    throws_bind (encoded_send (h.counts hint)) fun _ =>
    throws_bind (encoded_send (h.equation hint)) fun _ =>
    throws_bind (encoded_send (h.assertGoal none)) fun _ =>
    throws_bind (encoded_checkSat false) fun w => ?_
  split <;> exact throws_pure _

variable (h : e.Unrollable)

include h

theorem encoded_inductionStep : (inductionStep e).Encoded := by
  refine throws_bind (encoded_send (h.places _)) fun _ =>
    throws_bind (encoded_send (h.refuteGoal _)) fun _ =>
    throws_bind (encoded_send (h.relation _ _)) fun _ =>
    throws_bind (encoded_send (h.assertGoal _)) fun _ =>
    throws_bind (encoded_checkSat false) fun w => ?_
  split <;> exact throws_pure _

theorem encoded_inductionNext (w : Answer) : (inductionNext e w).Encoded := by
  unfold inductionNext
  split
  · exact throws_pure _
  · refine throws_bind encoded_pop fun _ => throws_bind throws_get fun s => ?_
    split
    · exact throws_pure _
    · exact encoded_inductionStep h

theorem encoded_induction : (induction e).Encoded := by
  rw [induction_eq]
  exact throws_bind (encoded_send (h.places _)) fun _ => throws_bind encoded_push fun _ =>
    throws_bind (encoded_send (h.marking _)) fun _ =>
    throws_bind (encoded_send (h.assertGoal _)) fun _ =>
    throws_bind (encoded_checkSat true) fun w => encoded_inductionNext h w

theorem encoded_bmcNext (heedsBound : Bool) {fuel : Nat}
    (hrec : ∀ k, (bmcFrom e heedsBound fuel k).Encoded) (k : Nat) (w : Answer) :
    (bmcNext e heedsBound fuel k w).Encoded := by
  have hrest : (bmcNext e heedsBound fuel k .unsat).Encoded := by
    refine throws_bind throws_get fun s => ?_
    split
    · exact throws_bind (encoded_report _ _) fun _ => throws_pure _
    · refine throws_bind throws_get fun s => ?_
      split
      · exact throws_pure _
      · exact throws_bind encoded_pop fun _ => throws_bind (encoded_send (h.places _)) fun _ =>
          throws_bind (encoded_send (h.relation _ _)) fun _ => throws_bind encoded_push fun _ =>
          throws_bind (encoded_send (h.assertGoal _)) fun _ => hrec (k + 1)
  cases w with
  | sat =>
    exact throws_bind (encoded_report _ _) fun _ => throws_bind (throws_modify _) fun _ =>
      throws_pure _
  | unsat => exact hrest
  | unknown => exact hrest

theorem encoded_bmcFrom (heedsBound : Bool) (fuel k : Nat) :
    (bmcFrom e heedsBound fuel k).Encoded := by
  induction fuel generalizing k with
  | zero => exact throws_throw fun _ _ => Fault.noConfusion
  | succ fuel ih =>
    rw [bmcFrom_succ]
    exact throws_bind (encoded_report _ _) fun _ => throws_bind (encoded_checkSat true) fun w =>
      encoded_bmcNext h heedsBound ih k w

theorem encoded_bmc (heedsBound : Bool) : (bmc e heedsBound).Encoded :=
  throws_bind (throws_modify _) fun _ => throws_bind (encoded_send (h.places _)) fun _ =>
    throws_bind (encoded_send (h.marking _)) fun _ => throws_bind encoded_push fun _ =>
    throws_bind (encoded_send (h.assertGoal _)) fun _ => throws_bind throws_get fun _ =>
    encoded_bmcFrom h heedsBound _ 0

theorem encoded_kNext {fuel : Nat} (hrec : ∀ k, (kInductionFrom e fuel k).Encoded) (k : Nat)
    (w : Answer) : (kNext e fuel k w).Encoded := by
  unfold kNext
  split
  · exact throws_bind (encoded_report _ _) fun _ => throws_bind (throws_modify _) fun _ =>
      throws_pure _
  · exact throws_bind encoded_pop fun _ => throws_bind (encoded_send (h.refuteGoal _)) fun _ =>
      throws_bind (encoded_send (h.places _)) fun _ =>
      throws_bind (encoded_send (h.relation _ _)) fun _ => hrec (k + 1)

theorem encoded_kInductionFrom (fuel k : Nat) : (kInductionFrom e fuel k).Encoded := by
  induction fuel generalizing k with
  | zero => exact throws_throw fun _ _ => Fault.noConfusion
  | succ fuel ih =>
    rw [kInductionFrom_succ]
    refine throws_bind throws_get fun s => ?_
    split
    · exact throws_pure _
    · exact throws_bind (encoded_report _ _) fun _ => throws_bind encoded_push fun _ =>
        throws_bind (encoded_send (h.assertGoal _)) fun _ =>
        throws_bind (encoded_checkSat true) fun w => encoded_kNext h ih k w

theorem encoded_kInduction : (kInduction e).Encoded :=
  throws_bind (encoded_send (h.places _)) fun _ => throws_bind throws_get fun _ =>
    encoded_kInductionFrom h _ 0

end Strategy

end PetriReach
