/-!
# Kill switches

A solver can be killed from several sides; only the first time ends its process.
-/

namespace PetriReach

/-- Whether a solver was killed, and how often its process was ended. -/
structure Switch where
  killed : Bool := false
  terminations : Nat := 0
  deriving DecidableEq, Repr

namespace Switch

/-- Kills the solver. -/
def kill (s : Switch) : Switch :=
  if s.killed then s else { killed := true, terminations := s.terminations + 1 }

/-- The process was ended once if the solver was killed, and never otherwise. -/
def Counted (s : Switch) : Prop :=
  s.terminations = s.killed.toNat

theorem kill_of_killed {s : Switch} (h : s.killed = true) : s.kill = s :=
  if_pos h

theorem killed_kill (s : Switch) : s.kill.killed = true := by
  unfold kill
  split
  · next h => exact h
  · rfl

theorem Counted.kill {s : Switch} (h : s.Counted) : s.kill.Counted := by
  unfold Switch.kill
  split
  · exact h
  · next hopen =>
    rw [Bool.not_eq_true] at hopen
    have hnever : s.terminations = 0 := by rw [h, hopen]; rfl
    show s.terminations + 1 = 1
    rw [hnever]

end Switch

end PetriReach
