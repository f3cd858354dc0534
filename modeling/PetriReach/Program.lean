import PetriReach.Formula.Parser
import PetriReach.Net.Printer
import PetriReach.Net.Reader
import PetriReach.Options
import PetriReach.Race.Crew
import PetriReach.Trial

/-!
# The program

From the words of a command line, the files and the solvers to what is printed. Where a race is
asked for, the program runs its checkers one after another; how it goes on after another course of
the race is said too.
-/

namespace PetriReach

/-- The text that a path leads to, if something is there. -/
abbrev Files := String → Option String

/-- Why a question is not answered. -/
inductive Failure where
  | missingFile (path : String)
  | net (e : Net.ReadError)
  | formula (e : SyntaxError)
  | encoding (e : EncodingError)
  | race (f : Fault)
  deriving DecidableEq, Repr

/-- What is printed: text, or the line with the elapsed time. -/
inductive Printed where
  | text (s : String)
  | elapsed
  deriving DecidableEq, Repr

/-- The exit status and the two output streams. -/
structure Output where
  exit : Nat
  stdout : List Printed := []
  stderr : String := ""
  deriving DecidableEq, Repr

/-- The wording of a failure. -/
def Failure.message : Failure → String
  | missingFile path => Text.beforeNul ("no such file: " ++ path)
  | net e => e.message
  | formula e => e.message
  | encoding e => e.message
  | race f => f.message

/-- The line that reports a failure. Errors in the inputs name their position and come bare. -/
def Failure.line (f : Failure) : String :=
  match f with
  | net e => e.message ++ "\n"
  | formula e => e.message ++ "\n"
  | _ => "ERROR: " ++ f.message ++ "\n"

namespace Files

/-- The content of a file. -/
def read (files : Files) (path : String) : Except Failure String :=
  match files path with
  | some s => .ok s
  | none => .error (.missingFile path)

/-- The net in a file. -/
def readNet (files : Files) (path : String) : Except Failure Net := do
  (Net.parseStored (← files.read path)).mapError .net

/-- The formula in a file. -/
def readFormula (files : Files) (path : String) : Except Failure Formula := do
  (Formula.parseStored (← files.read path)).mapError .formula

end Files

namespace Program

/-- The version of the program. -/
def version : String := "0.1.0"

/-- The name of the program. -/
def name : String := "usmpt"

/-- The net and the formula that are asked about. -/
def inputs (o : Options) (files : Files) : Except Failure (Net × Formula) := do
  let net ← files.readNet o.net
  let formula ← if o.formulaFile = "" then (Formula.parse o.formula).mapError .formula
    else files.readFormula o.formulaFile
  return (net, formula)

/-- Diagnostics that show the inputs. -/
def present (o : Options) (net : Net) (formula : Formula) (a : Arena) : Arena :=
  ((a.info ("> Net\n" ++ net.render)).info ("> Formula\n" ++ formula.render)).info
    ("> Encoding: " ++ o.encoding.name ++ ", solver: " ++ o.config.kind.name)

/-- The race that options ask for. -/
def raceOptions (o : Options) : RaceOptions where
  methods := o.methods
  budget := o.timeout
  encoding := o.encoding
  config := o.config

/-- What is printed for an answer, with the diagnostics. -/
def report (o : Options) (answer : Except Failure (Option Verdict)) (a : Arena) : Output :=
  match answer with
  | .error f => { exit := 1, stderr := String.join a.log ++ f.line }
  | .ok verdict =>
    { exit := 0
      stdout := (verdict.map fun v => .text ("FORMULA " ++ v.text ++ "\n")).toList
        ++ if o.showTime then [.elapsed] else []
      stderr := String.join a.log }

/-- What is printed when the race is over. -/
def conclude (o : Options) (result : Except Fault Race.Result) (a : Arena) : Output :=
  match result with
  | .error f => report o (.error (.race f)) a
  | .ok result =>
    let text := match result.verdict with
      | some _ => "decided by " ++ result.method
      | none => if result.timedOut then "no verdict (timeout)" else "no verdict"
    report o (.ok result.verdict) (a.info text)

/-- What there is to do: nothing but to print, or a race in some surroundings. -/
inductive Task where
  | done (out : Output)
  | race (o : Options) (r : Race) (a : Arena)

/-- What a question about a net and a formula comes down to. -/
def pose (o : Options) (net : Net) (formula : Formula) (a : Arena) : Task :=
  if o.dummy then .done (report o (.ok none) a)
  else match Race.make net formula (raceOptions o) with
    | .error e => .done (report o (.error (.encoding e)) a)
    | .ok r => .race o r a

/-- What a question comes down to. -/
def question (o : Options) (files : Files) (a : Arena) : Task :=
  match inputs o files with
  | .error f => .done (report o (.error f) a)
  | .ok (net, formula) => pose o net formula (present o net formula a)

/-- The surroundings in which the program starts. -/
def surroundings (o : Options) (backends : List (Option Backend)) (programs : List String) :
    Arena where
  cohort := { workers := 0 }
  verbose := o.verbose
  programs
  backends

/-- What a command line comes down to. -/
def task (words : List String) (files : Files) (backends : List (Option Backend))
    (programs : List String) (trials : List Trial.Case) : Task :=
  match Options.parse words with
  | .error e => .done { exit := 1, stderr := "ERROR: " ++ e.message ++ "\n" ++ Options.usage name }
  | .ok o =>
    if o.help then .done { exit := 0, stderr := Options.usage name }
    else if o.selftest then
      .done { exit := (Trial.run trials).exit, stderr := (Trial.run trials).text }
    else if o.version then .done { exit := 0, stdout := [.text (name ++ " " ++ version ++ "\n")] }
    else question o files (surroundings o backends programs)

/-- The files that a command line names. -/
def paths (words : List String) : List String :=
  match Options.parse words with
  | .error _ => []
  | .ok o => [o.net, o.formulaFile].filter (· ≠ "")

/-- Runs the program. The programs are those that can be executed, the trials those that are built
in. -/
def run (words : List String) (files : Files) (backends : List (Option Backend))
    (programs : List String := ["z3"]) (trials : List Trial.Case := []) : Output :=
  match task words files backends programs trials with
  | .done out => out
  | .race o r a =>
    let (result, _, a) := r.run a
    conclude o result a

/-- What the program comes to if its race takes this course, once that is over. Without a race
there is nothing to do. The diagnostics of the race are left out. -/
def play (words : List String) (files : Files) (backends : List (Option Backend))
    (programs : List String) (trials : List Trial.Case) (acts : List Act) : Option Output :=
  match task words files backends programs trials with
  | .done out => if acts = [] then some out else none
  | .race o r a => do
    let crew ← (r.crew a.programs a.backends).perform acts
    return conclude o (← crew.result) a

end Program

end PetriReach
