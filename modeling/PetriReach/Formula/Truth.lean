import PetriReach.Formula.Basic
import PetriReach.Net.Firing

/-!
# Truth of formulas

The value of a sum and the truth of a formula at a marking. Sums are taken over all integers.
-/

namespace PetriReach

/-- Whether a comparison holds. -/
def Comparison.holds : Comparison → Int → Int → Bool
  | eq, a, b => a = b
  | le, a, b => a ≤ b
  | ge, a, b => a ≥ b
  | lt, a, b => a < b
  | gt, a, b => a > b
  | ne, a, b => a ≠ b

/-- The value of multiples, added to a constant. -/
def TokenSum.valueFrom (m : Marking) (constant : Int) : List Multiple → Int
  | [] => constant
  | t :: ts => t.factor * m t.place + valueFrom m constant ts

/-- The value of a sum. -/
def TokenSum.value (s : TokenSum) (m : Marking) : Int :=
  valueFrom m s.constant s.terms

mutual

/-- Whether a formula is true at a marking. -/
def Formula.holds (m : Marking) : Formula → Bool
  | .tt => true
  | .ff => false
  | .not f => !f.holds m
  | .junction .and fs => Formula.allHold m fs
  | .junction .or fs => Formula.anyHolds m fs
  | .atom l op r => op.holds (l.value m) (r.value m)

/-- Whether every formula is true at a marking. -/
def Formula.allHold (m : Marking) : List Formula → Bool
  | [] => true
  | f :: fs => f.holds m && Formula.allHold m fs

/-- Whether some formula is true at a marking. -/
def Formula.anyHolds (m : Marking) : List Formula → Bool
  | [] => false
  | f :: fs => f.holds m || Formula.anyHolds m fs

end

namespace Formula

theorem allHold_eq_all (m : Marking) (fs : List Formula) :
    allHold m fs = fs.all (·.holds m) := by
  induction fs with
  | nil => rfl
  | cons f fs ih => simp [allHold, ih]

theorem anyHolds_eq_any (m : Marking) (fs : List Formula) :
    anyHolds m fs = fs.any (·.holds m) := by
  induction fs with
  | nil => rfl
  | cons f fs ih => simp [anyHolds, ih]

end Formula

end PetriReach
