import PetriReach.Text

/-!
# Backends

A backend is a script for a solver process: the answers it gives, what it says when they are used
up, and how it ends. The process reads lines and reacts to those that end in `(check-sat)`.
-/

namespace PetriReach

/-- The script of a process. After the answers it says `tail` and closes its output, or stays
silent if it hangs. It exits after `exitAfter` answers. -/
structure Backend where
  answers : List String := []
  tail : String := ""
  hangs : Bool := false
  exitAfter : Option Nat := none
  deriving DecidableEq, Repr

/-- A running process: the script that is left, the input line that is not ended yet, the lines it
wrote that nobody has read, and all it was sent. -/
structure Process where
  script : Backend
  line : List Char := []
  pending : List String := []
  closed : Bool := false
  gone : Bool := false
  received : List String := []
  deriving DecidableEq, Repr

/-- What a reader gets from a process. -/
inductive Reply where
  | line (text : String)
  | closed
  | silent
  deriving DecidableEq, Repr

/-- All lines that a script can write. -/
def Backend.lines (b : Backend) : List String :=
  b.answers.flatMap Text.lines ++ Text.endedLines b.tail

namespace Process

/-- A new process. -/
def start (b : Backend) : Process :=
  { script := b, closed := b.exitAfter = some 0, gone := b.exitAfter = some 0 }

/-- Reacts to a request for an answer. -/
def answer (p : Process) : Process :=
  if p.closed then p
  else
    match p.script.answers with
    | a :: rest =>
      let left := p.script.exitAfter.map (· - 1)
      { p with
        script := { p.script with answers := rest, exitAfter := left }
        pending := p.pending ++ Text.lines a
        closed := left = some 0
        gone := left = some 0 }
    | [] =>
      if p.script.hangs then p
      else { p with pending := p.pending ++ Text.endedLines p.script.tail, closed := true }

/-- Reacts to a line of input. -/
def hear (p : Process) (line : List Char) : Process :=
  if "(check-sat)".toList.isSuffixOf line then p.answer else p

/-- Takes in a text. -/
def feed (p : Process) (text : String) : Process :=
  let parts := Text.pieces (· = '\n') (p.line ++ text.toList)
  parts.dropLast.foldl hear
    { p with line := parts.getLast?.getD [], received := p.received ++ [text] }

/-- Reads a line of output. -/
def take (p : Process) : Reply × Process :=
  match p.pending with
  | l :: rest => (.line l, { p with pending := rest })
  | [] => (if p.closed then .closed else .silent, p)

/-- How many lines can still be read. -/
def supply (p : Process) : Nat :=
  p.pending.length + p.script.lines.length

end Process

end PetriReach
