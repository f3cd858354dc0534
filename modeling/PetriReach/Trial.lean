import PetriReach.Text

/-!
# Trials

Named lists of checks, run one after another with a report of what failed.
-/

namespace PetriReach.Trial

/-- A check: a condition, an equality of texts, or an interruption that ends its list. -/
inductive Check where
  | holds (ok : Bool) (what : String)
  | equal (actual expected what : String)
  | interrupt (message : String)
  deriving DecidableEq, Repr

/-- A named list of checks. -/
structure Case where
  name : String
  checks : List Check
  deriving DecidableEq, Repr

/-- Checks made and failures seen, with the report so far. An interruption is a failure but no
check. -/
structure Tally where
  total : Nat := 0
  failed : Nat := 0
  report : String := ""
  deriving DecidableEq, Repr

/-- Lists run and failed, checks made and failures seen, with the report so far. -/
structure Summary where
  run : Nat := 0
  failed : Nat := 0
  checks : Tally := {}
  deriving DecidableEq, Repr

/-- Adds to the report. -/
def Tally.say (t : Tally) (text : String) : Tally :=
  { t with report := t.report ++ text }

/-- Counts a check. -/
def Tally.count (t : Tally) (ok : Bool) (complaint : String) : Tally :=
  let t := { t with total := t.total + 1 }
  if ok then t else { t with failed := t.failed + 1 }.say complaint

/-- Makes checks. -/
def Tally.make (t : Tally) : List Check → Tally
  | [] => t
  | .holds ok what :: rest => (t.count ok ("  FAIL: " ++ what ++ "\n")).make rest
  | .equal actual expected what :: rest =>
    (t.count (actual = expected) ("  FAIL: " ++ what ++ "\n    expected: " ++ expected
      ++ "\n    actual:   " ++ actual ++ "\n")).make rest
  | .interrupt message :: _ =>
    { t with failed := t.failed + 1 }.say ("  EXCEPTION: " ++ Text.beforeNul message ++ "\n")

/-- Runs a list of checks. -/
def Summary.add (s : Summary) (c : Case) : Summary :=
  let t := ({ report := "TEST: " ++ c.name ++ "\n" } : Tally).make c.checks
  let t := if t.failed = 0 then t.say ("  OK (" ++ toString t.total ++ " checks)\n") else t
  { run := s.run + 1
    failed := s.failed + if t.failed = 0 then 0 else 1
    checks :=
      { total := s.checks.total + t.total
        failed := s.checks.failed + t.failed
        report := s.checks.report ++ t.report } }

/-- The report with the numbers at its end. More failures than checks leave a negative number. -/
def Summary.text (s : Summary) : String :=
  s.checks.report ++ "\n=== Test Summary ===\n"
    ++ "Tests:  " ++ toString s.run ++ " run, " ++ toString (s.run - s.failed) ++ " passed, "
    ++ toString s.failed ++ " failed\n"
    ++ "Checks: " ++ toString s.checks.total ++ " total, "
    ++ toString ((s.checks.total : Int) - s.checks.failed) ++ " passed, "
    ++ toString s.checks.failed ++ " failed\n"
    ++ (if s.failed = 0 then "ALL TESTS PASSED\n" else "SOME TESTS FAILED\n")

/-- The exit status. -/
def Summary.exit (s : Summary) : Nat :=
  if s.failed = 0 then 0 else 1

/-- Runs lists of checks. -/
def run (cases : List Case) : Summary :=
  cases.foldl Summary.add {}

end PetriReach.Trial
