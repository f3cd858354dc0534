import PetriReach.Program

/-!
# Command line

Reads the files that the command line names and the answers of the solver processes, one line of
standard input for each process, runs the program and prints what it says.
-/

namespace PetriReach.Program

/-- The text of an open file; a folder has none. -/
def readText (file : IO.FS.Handle) : IO String := do
  try file.readToEnd catch _ => return ""

/-- The paths that can be opened, with their texts. -/
def readFiles (paths : List String) : IO (List (String × String)) := do
  let mut files := []
  for path in paths do
    try
      let file ← IO.FS.Handle.mk path .read
      files := files ++ [(path, ← readText file)]
    catch _ => pure ()
  return files

/-- The scripts of the solver processes: the answers on each line. -/
partial def readBackends (input : IO.FS.Stream) : IO (List (Option Backend)) := do
  let line ← input.getLine
  if line.isEmpty then return []
  let rest ← readBackends input
  return some { answers := Text.fields line } :: rest

/-- Prints a piece of output; the elapsed time is counted from `start`, in milliseconds. -/
def printPiece (start : Nat) : Printed → IO Unit
  | .text s => IO.print s
  | .elapsed => do
    let ms := (← IO.monoMsNow) - start
    IO.println s!"# Time: {ms.toFloat / 1000}"

/-- Runs the program on the words of a command line. -/
def execute (words : List String) : IO UInt32 := do
  let start ← IO.monoMsNow
  let files ← readFiles (paths words)
  let backends ← if files.isEmpty then pure [] else readBackends (← IO.getStdin)
  let out := run words (files.lookup ·) backends
  IO.eprint out.stderr
  for piece in out.stdout do printPiece start piece
  return out.exit.toUInt32

end PetriReach.Program

def main (args : List String) : IO UInt32 :=
  PetriReach.Program.execute args
