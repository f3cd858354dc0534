import PetriReach.Method
import PetriReach.Proofs.Encoder.StateEquation
import PetriReach.Proofs.Solver.Stream

/-!
# What the strategies send

Between its tests a strategy sends scripts. About a net with proper names these can be written, and
a process finds no test in them.

* `Method.Speaks`: all that the strategy sends can be written.
* `Encoder.speaks_of_reading`, `Encoder.speaks_stateEquation`: an encoder that writes its net lets
  the strategies speak.
-/

namespace PetriReach

open Smt Work

/-- What a strategy sends: an opening and, at each step `k`, more of the same. -/
def Method.scripts (m : Method) (e : Encoder) (k : Nat) : List (Except EncodingError Script) :=
  match m with
  | .stateEquation =>
    [e.declarePlaces none, e.declareTransitions, e.stateEquation, e.assertGoal none]
  | .induction =>
    [e.declarePlaces (some 0), e.initialMarking (some 0), e.assertGoal (some 0),
      e.declarePlaces (some 1), e.refuteGoal (some 0), e.transitionRelation 0 1,
      e.assertGoal (some 1)]
  | .bmc =>
    [e.declarePlaces (some 0), e.initialMarking (some 0), e.assertGoal (some 0),
      e.declarePlaces (some (k + 1)), e.transitionRelation k (k + 1), e.assertGoal (some (k + 1))]
  | .kInduction =>
    [e.declarePlaces (some 0), e.assertGoal (some k), e.refuteGoal (some k),
      e.declarePlaces (some (k + 1)), e.transitionRelation k (k + 1)]

/-- All that the strategy sends can be written, and a process that may exit takes it for what it
is. -/
def Method.Speaks (m : Method) (e : Encoder) (exits : Bool) : Prop :=
  ∀ k, ∀ script ∈ m.scripts e k, ∃ cs, script = .ok cs ∧ Process.Tidy exits cs

namespace Encoder

variable {e : Encoder} {f : Formula} {ds : List (Symbol × VarSort)}

/-- The script can be written, in lines that are commands and no tests. -/
def Plain (script : Except EncodingError Script) : Prop :=
  ∃ cs, script = .ok cs ∧ Process.Tidy true cs

theorem plain_declare (hn : e.net.WellFormed) (hw : e.Writable) (k : Option Int) :
    Plain (e.declarePlaces k) := by
  refine ⟨_, declarePlaces_eq hw k, fun _ c hc => ⟨?_, not_checkSat_of_mem_declareVars c hc⟩⟩
  refine within_declareVars (fun x hx => ?_) c hc
  cases k with
  | none => exact written_symbols hn hw x hx
  | some k => exact (hw.readable hn hx).1

theorem tidy_asserts (hds : ∀ d ∈ ds, d.1.Written) {ts : List Term}
    (hts : ∀ t ∈ ts, t.sort? ds = some .bool) : Process.Tidy true (ts.map .assert) := by
  intro _ c hc
  obtain ⟨t, ht, rfl⟩ := List.mem_map.mp hc
  exact ⟨Term.within_of_sort? hds (hts t ht), by simp⟩

theorem tidy_assert (hds : ∀ d ∈ ds, d.1.Written) {t : Term} (ht : t.sort? ds = some .bool) :
    Process.Tidy true [.assert t] :=
  tidy_asserts hds (List.forall_mem_singleton.mpr ht)

section Reading

variable {σ : Type} {S : System σ} (R : e.Reading S)

include R

theorem written_frames (k : Nat) : ∀ d ∈ e.frames k, d.1.Written := by
  intro d hd
  obtain ⟨j, -, p, hp, rfl⟩ := mem_frames.mp hd
  exact (R.writable.readable R.wellFormed (List.mem_map_of_mem hp)).1

theorem plain_initial : Plain (e.initialMarking (some 0)) :=
  ⟨_, R.initial_eq, tidy_asserts (written_frames R 0) (R.init_sort (covers_frames (Nat.le_refl 0)))⟩

theorem plain_step (k : Nat) : Plain (e.transitionRelation k (k + 1)) :=
  ⟨_, R.step_eq k, tidy_assert (written_frames R (k + 1))
    (R.step_sort (covers_frames (Nat.le_succ k)) (covers_frames (Nat.le_refl _)))⟩

theorem plain_goal (k : Nat) : Plain (e.assertGoal (some (k : Int))) :=
  ⟨_, R.goal_eq k, tidy_assert (written_frames R k) (R.goal_sort (covers_frames (Nat.le_refl k)))⟩

theorem plain_refute (k : Nat) : Plain (e.refuteGoal (some (k : Int))) :=
  ⟨_, R.refute_eq k, tidy_assert (written_frames R k)
    (Term.sort?_not (R.goal_sort (covers_frames (Nat.le_refl k))))⟩

/-- What is sent of a system is written in lines that are commands and no tests. -/
theorem speaks_of_reading {method : Method} (hmethod : method ≠ .stateEquation) :
    method.Speaks e true := by
  have hdeclare := plain_declare R.wellFormed R.writable
  intro k
  cases method with
  | stateEquation => exact absurd rfl hmethod
  | induction =>
    simp only [Method.scripts, List.forall_mem_cons]
    exact ⟨hdeclare _, plain_initial R, plain_goal R 0, hdeclare _, plain_refute R 0,
      plain_step R 0, plain_goal R 1, List.forall_mem_nil _⟩
  | bmc =>
    simp only [Method.scripts, List.forall_mem_cons]
    exact ⟨hdeclare _, plain_initial R, plain_goal R 0, hdeclare _, plain_step R k,
      plain_goal R (k + 1), List.forall_mem_nil _⟩
  | kInduction =>
    simp only [Method.scripts, List.forall_mem_cons]
    exact ⟨hdeclare _, plain_goal R k, plain_refute R k, hdeclare _, plain_step R k,
      List.forall_mem_nil _⟩

end Reading

/-- What is sent of the state equation is written in lines that are commands and no tests. -/
theorem speaks_stateEquation (hint : e.encoding = .integer) (hgoal : e.goal = some (.formula f))
    (hn : e.net.WellFormed) (hw : e.Writable) (hc : e.Countable) (hf : f.Over e.net)
    (hneg : f.NonNeg) : Method.stateEquation.Speaks e true := by
  have hframe : ∀ d ∈ e.stateFrame, d.1.Written := by
    intro d hd
    obtain ⟨x, hx, rfl⟩ := List.mem_map.mp hd
    exact written_unknowns hn hw hc x hx
  obtain ⟨t, ht, hsort, -⟩ := lowerFormula_int hint hw hf hneg none
  intro k
  simp only [Method.scripts, List.forall_mem_cons]
  refine ⟨plain_declare hn hw none, ⟨_, declareTransitions_eq hc, fun _ c hmem => ⟨?_, ?_⟩⟩,
    ⟨_, stateEquation_eq hint hw hc, tidy_asserts hframe (sort?_equations hn)⟩,
    ⟨_, assertGoal_eq hgoal ht, tidy_assert hframe (hsort (covers_stateFrame hint))⟩,
    List.forall_mem_nil _⟩
  · exact within_declareVars (written_tallies hn hc) c hmem
  · exact not_checkSat_of_mem_declareVars c hmem

end Encoder

end PetriReach
