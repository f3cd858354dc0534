import Mathlib.Tactic.Common

/-!
# Searching for a goal

A system of states with a goal. A witness is a run from an initial state to the goal; a first entry
is a run from any state whatever that meets the goal in its last state and in no other.

* `System.lt_of_not_entry`: where there is no first entry of length `b`, a shortest witness is
  shorter than `b`.
* `System.no_witness_of_closed`: if no step leads into the goal, a witness has length 0.
-/

namespace PetriReach

/-- Of the states of type `σ`, those at the beginning, the steps between them, and the goal. -/
structure System (σ : Type) where
  init : σ → Prop
  step : σ → σ → Prop
  goal : σ → Prop

namespace System

variable {σ : Type} (S : System σ)

/-- `xs 0, …, xs k` are joined by steps. -/
def Trail (xs : Nat → σ) (k : Nat) : Prop :=
  ∀ i < k, S.step (xs i) (xs (i + 1))

/-- Some run of `k` steps from the beginning ends in the goal. -/
def Witness (k : Nat) : Prop :=
  ∃ xs, S.init (xs 0) ∧ S.Trail xs k ∧ S.goal (xs k)

/-- Some run of `k` steps from anywhere ends in the goal and avoids it before. -/
def Entry (k : Nat) : Prop :=
  ∃ xs, S.Trail xs k ∧ (∀ i < k, ¬ S.goal (xs i)) ∧ S.goal (xs k)

/-- A shortest witness has length `d`. -/
def Shortest (d : Nat) : Prop :=
  S.Witness d ∧ ∀ k < d, ¬ S.Witness k

/-- No step leads from outside the goal into it. -/
def Closed : Prop :=
  ∀ x y, ¬ S.goal x → S.step x y → ¬ S.goal y

variable {S}

theorem Trail.mono {xs : Nat → σ} {j k : Nat} (h : S.Trail xs k) (hjk : j ≤ k) :
    S.Trail xs j :=
  fun i hi => h i (Nat.lt_of_lt_of_le hi hjk)

theorem Trail.shift {xs : Nat → σ} {j k : Nat} (h : S.Trail xs (j + k)) :
    S.Trail (fun i => xs (j + i)) k :=
  fun i hi => h (j + i) (by omega)

/-- Where there is a witness, there is a shortest one. -/
theorem Witness.shortest {k : Nat} (h : S.Witness k) : ∃ d ≤ k, S.Shortest d := by
  induction k using Nat.strongRecOn with
  | ind k ih =>
    by_cases hk : ∃ j < k, S.Witness j
    · obtain ⟨j, hj, hw⟩ := hk
      obtain ⟨d, hd, hs⟩ := ih j hj hw
      exact ⟨d, by omega, hs⟩
    · exact ⟨k, Nat.le_refl k, h, fun j hj hw => hk ⟨j, hj, hw⟩⟩

/-- **The bound of first entries.** The last `b + 1` states of a shortest witness would be a first
entry, since the goal on the way would end a shorter witness. -/
theorem lt_of_not_entry {b d : Nat} (hb : ¬ S.Entry b) (hd : S.Shortest d) : d < b := by
  by_contra hbd
  obtain ⟨⟨xs, hinit, htrail, hgoal⟩, hmin⟩ := hd
  have hsum : d - b + b = d := by omega
  refine hb ⟨fun i => xs (d - b + i), Trail.shift (hsum.symm ▸ htrail), ?_, ?_⟩
  · intro i hi hg
    exact hmin (d - b + i) (by omega) ⟨xs, hinit, htrail.mono (by omega), hg⟩
  · show S.goal (xs (d - b + b))
    rw [hsum]
    exact hgoal

/-- Where there is no first entry of length `b` and no witness shorter than `b`, there is no witness
at all. -/
theorem no_witness_of_bound {b : Nat} (hb : ¬ S.Entry b) (hshort : ∀ k < b, ¬ S.Witness k) :
    ∀ k, ¬ S.Witness k := by
  intro k hk
  obtain ⟨d, -, hd⟩ := hk.shortest
  exact hshort d (lt_of_not_entry hb hd) hd.1

/-- If no step leads into the goal, a witness has length 0. -/
theorem no_witness_of_closed (hclosed : S.Closed) (h0 : ¬ S.Witness 0) : ∀ k, ¬ S.Witness k := by
  rintro k ⟨xs, hinit, htrail, hgoal⟩
  have hout : ∀ i ≤ k, ¬ S.goal (xs i) := by
    intro i
    induction i with
    | zero => exact fun _ hg => h0 ⟨xs, hinit, fun j hj => absurd hj (Nat.not_lt_zero j), hg⟩
    | succ i ih => exact fun hi => hclosed _ _ (ih (by omega)) (htrail i hi)
  exact hout k (Nat.le_refl k) hgoal

end System

end PetriReach
