import PetriReach.Encoder.Basic
import PetriReach.Method
import PetriReach.Solver.Arena

/-!
# Options

The command line. Words end before a NUL character, are taken from left to right, and the first
that is wrong stops the reading. A later occurrence of an option overrides an earlier one, except
that the dummy method, once asked for, stays.
-/

namespace PetriReach

/-- What is asked on the command line. -/
structure Options where
  net : String := ""
  formula : String := ""
  formulaFile : String := ""
  methods : List Method := Method.all
  dummy : Bool := false
  timeout : Int := 225
  encoding : Encoding := .integer
  config : SolverConfig := {}
  verbose : Bool := false
  debug : Bool := false
  showTime : Bool := false
  selftest : Bool := false
  help : Bool := false
  version : Bool := false
  deriving DecidableEq, Repr

/-- What is wrong with a command line. -/
inductive UsageError where
  | missingValue (option : String)
  | unknownOption (word : String)
  | unknownMethod (name : String)
  | noMethod
  | badTimeout (value : String)
  | emptyTimeout
  | badEncoding (value : String)
  | badSolver (value : String)
  | emptyCommand
  | noNet
  | formulaCount
  deriving DecidableEq, Repr

/-- The wording of an error. -/
def UsageError.message : UsageError → String
  | missingValue option => option ++ " requires an argument"
  | unknownOption word => "unknown option: " ++ word
  | unknownMethod name => "unknown method: " ++ name
  | noMethod => "--methods requires at least one method"
  | badTimeout value => "--timeout expects a number, got '" ++ value ++ "'"
  | emptyTimeout => "--timeout must be > 0"
  | badEncoding value => "--encoding expects 'int' or 'bool', got '" ++ value ++ "'"
  | badSolver value => "--solver expects 'process' or 'embedded', got '" ++ value ++ "'"
  | emptyCommand => "--solver-cmd requires a command"
  | noNet => "no net specified (use --help for usage)"
  | formulaCount => "exactly one of -f and -ff is required"

/-- The name of a kind of solver. -/
def SolverKind.name : SolverKind → String
  | process => "process"
  | embedded => "embedded"

namespace Options

/-- One option with its values. -/
inductive Item where
  | net (path : String)
  | formula (text : String)
  | formulaFile (path : String)
  | methods (selected : List Method) (dummy : Bool)
  | timeout (seconds : Int)
  | encoding (e : Encoding)
  | solver (kind : SolverKind)
  | command (words : List String)
  | verbose
  | debug
  | showTime
  | selftest
  | help
  | version
  deriving DecidableEq, Repr

/-- The integer of 32 bits that a text begins with, behind blanks; what follows it does not
count. -/
def leadingInt? (s : String) : Option Int :=
  let cs := s.toList.dropWhile Text.isBlank
  let signed := cs.head? = some '-' || cs.head? = some '+'
  let digits := (if signed then cs.drop 1 else cs).takeWhile Char.isDigit
  let n : Int := Nat.ofDigitChars 10 digits 0
  let n := if cs.head? = some '-' then -n else n
  if digits.isEmpty then none
  else if -2147483648 ≤ n ∧ n ≤ 2147483647 then some n
  else none

/-- The number of seconds that a value gives. -/
def readTimeout (value : String) : Except UsageError Item :=
  match leadingInt? value with
  | none => .error (.badTimeout value)
  | some n => if n ≤ 0 then .error .emptyTimeout else .ok (.timeout n)

/-- The encoding that a value names. -/
def readEncoding (value : String) : Except UsageError Item :=
  match Encoding.ofName? value with
  | some e => .ok (.encoding e)
  | none => .error (.badEncoding value)

/-- The kind of solver that a value names. -/
def readSolver : String → Except UsageError Item
  | "process" => .ok (.solver .process)
  | "embedded" => .ok (.solver .embedded)
  | value => .error (.badSolver value)

/-- The command that a value holds. -/
def readCommand (value : String) : Except UsageError Item :=
  match Text.fields value with
  | [] => .error .emptyCommand
  | ws => .ok (.command ws)

/-- The methods that words name; the dummy is no method. -/
def readMethods : List String → Except UsageError (List Method × Bool)
  | [] => .ok ([], false)
  | w :: ws =>
    if w = "DUMMY" then (readMethods ws).map fun (ms, _) => (ms, true)
    else
      match Method.ofName? w with
      | none => .error (.unknownMethod w)
      | some m => (readMethods ws).map fun (ms, dummy) => (m :: ms, dummy)

/-- An option with one value, which is the next word. -/
def withValue (option : String) (rest : List String)
    (read : String → Except UsageError Item) : Except UsageError (Item × List String) :=
  match rest with
  | [] => .error (.missingValue option)
  | v :: rest => (read v).map (·, rest)

/-- The option that a word begins, and the words behind it. The methods are all the words up to the
next that begins with a dash. -/
def readItem (word : String) (rest : List String) : Except UsageError (Item × List String) :=
  match word with
  | "--selftest" => .ok (.selftest, rest)
  | "--help" | "-h" => .ok (.help, rest)
  | "--version" => .ok (.version, rest)
  | "--net" | "-n" => withValue word rest (.ok ∘ .net)
  | "--formula" | "-f" => withValue word rest (.ok ∘ .formula)
  | "--formula-file" | "-ff" => withValue word rest (.ok ∘ .formulaFile)
  | "--methods" =>
    let names := rest.takeWhile fun w => w.toList.head? ≠ some '-'
    (readMethods names).map fun (ms, dummy) => (.methods ms dummy, rest.drop names.length)
  | "--timeout" => withValue word rest readTimeout
  | "--encoding" => withValue word rest readEncoding
  | "--solver" => withValue word rest readSolver
  | "--solver-cmd" => withValue word rest readCommand
  | "--verbose" | "-v" => .ok (.verbose, rest)
  | "--debug" => .ok (.debug, rest)
  | "--show-time" => .ok (.showTime, rest)
  | _ => .error (.unknownOption word)

/-- The options with one more item. -/
def apply (o : Options) : Item → Except UsageError Options
  | .net path => .ok { o with net := path }
  | .formula text => .ok { o with formula := text }
  | .formulaFile path => .ok { o with formulaFile := path }
  | .methods ms dummy =>
    let dummy := o.dummy || dummy
    if ms.isEmpty && !dummy then .error .noMethod else .ok { o with methods := ms, dummy }
  | .timeout n => .ok { o with timeout := n }
  | .encoding e => .ok { o with encoding := e }
  | .solver kind => .ok { o with config := { o.config with kind } }
  | .command ws => .ok { o with config := { o.config with command := ws } }
  | .verbose => .ok { o with verbose := true }
  | .debug => .ok { o with debug := true, config := { o.config with debug := true } }
  | .showTime => .ok { o with showTime := true }
  | .selftest => .ok { o with selftest := true }
  | .help => .ok { o with help := true }
  | .version => .ok { o with version := true }

/-- Takes up to `n` items. Each takes a word, so the number of words is enough. -/
def readFrom : Nat → Options → List String → Except UsageError Options
  | n + 1, o, w :: rest => do
    let (item, rest) ← readItem w rest
    readFrom n (← o.apply item) rest
  | _, o, _ => .ok o

/-- Tests that a question is asked: a net, and a formula in one of the two ways. -/
def validate (o : Options) : Except UsageError Options :=
  if o.selftest || o.help || o.version then .ok o
  else if o.net = "" then .error .noNet
  else if (o.formula = "") = (o.formulaFile = "") then .error .formulaCount
  else .ok o

/-- The options that words without NUL characters give. -/
def ofWords (words : List String) : Except UsageError Options := do
  (← readFrom words.length {} words).validate

/-- The options that words give. -/
def parse (words : List String) : Except UsageError Options :=
  ofWords (words.map Text.beforeNul)

/-- How the program is used. -/
def usage (program : String) : String :=
  "Usage: " ++ program ++ " -n <net> (-f <formula> | -ff <file>) [OPTIONS]\n"
    ++ "       " ++ program ++ " --selftest\n"
    ++ "\n"
    ++ "SMT-based reachability checker for Petri nets.\n"
    ++ "\n"
    ++ "Options:\n"
    ++ "  -n, --net <file>           Petri net in .net format\n"
    ++ "  -f, --formula <formula>    Reachability formula\n"
    ++ "  -ff, --formula-file <file> File holding the formula\n"
    ++ "  --methods <M>...           STATE-EQUATION INDUCTION BMC K-INDUCTION DUMMY\n"
    ++ "                             (default: all; K-INDUCTION implies BMC)\n"
    ++ "  --timeout <s>              Time budget in seconds (default: 225)\n"
    ++ "  --encoding int|bool        Place encoding (default: int)\n"
    ++ "  --solver process|embedded  Solver backend (default: process)\n"
    ++ "  --solver-cmd \"<cmd>\"       Backend command (default: \"z3 -in\")\n"
    ++ "  -v, --verbose              Print the inputs and progress\n"
    ++ "  --debug                    Echo the solver traffic\n"
    ++ "  --show-time                Print the elapsed time\n"
    ++ "  --selftest                 Run built-in tests\n"
    ++ "  --version                  Print the version\n"
    ++ "  --help, -h                 Show this message\n"
    ++ "\n"
    ++ "Formula syntax:\n"
    ++ "  atoms      sum (= | != | < | <= | > | >=) sum\n"
    ++ "  sums       p, 3, 2*p, p1 + p2, \x7blabel with spaces\x7d\n"
    ++ "  logic      T  F  -f  f /\\ g  f \\/ g  (f)\n"

end Options

end PetriReach
