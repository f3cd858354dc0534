import PetriReach.Text

/-!
# File trees

Files and folders, and where a path leads among them. A path that begins with a slash starts at the
root, any other at the working folder. A name leads down, `..` leads up, and `.` or nothing between
two slashes stays; each of them needs a folder to start from. A folder reads as an empty text.
-/

namespace PetriReach

/-- The names from the root down to a file or a folder. -/
abbrev Location := List String

/-- The files with their texts, the folders that hold none of them, and the working folder. A tree
has the usual folders and the empty device. -/
structure FileTree where
  files : List (Location × String) := [(["dev", "null"], "")]
  folders : List Location := [["bin"], ["etc"], ["lib"], ["proc"], ["tmp"], ["usr"]]
  work : Location := ["tmp", "work"]
  deriving DecidableEq, Repr

namespace FileTree

/-- The length in bytes from which on a path leads nowhere. -/
def pathLimit : Nat := 4096

/-- The names in a path, empty ones included. -/
def names (path : String) : List String :=
  (Text.pieces (· = '/') path.toList).map String.ofList

/-- Whether there is a file. -/
def isFile (t : FileTree) (l : Location) : Bool :=
  (t.files.lookup l).isSome

/-- Whether there is a folder: the working one, one of those listed, or one around a file, and all
that are around it. -/
def isFolder (t : FileTree) (l : Location) : Bool :=
  !t.isFile l && (t.work :: t.folders ++ t.files.map (·.1)).any (l.isPrefixOf ·)

/-- Where a name leads from a location. -/
def step (t : FileTree) (l : Location) (name : String) : Option Location :=
  if !t.isFolder l then none
  else if name = "" ∨ name = "." then some l
  else if name = ".." then some l.dropLast
  else if t.isFile (l ++ [name]) || t.isFolder (l ++ [name]) then some (l ++ [name])
  else none

/-- Where names lead, one after another. -/
def walk (t : FileTree) (l : Location) : List String → Option Location
  | [] => some l
  | name :: rest => (t.step l name).bind (t.walk · rest)

/-- Where a path leads. It ends before a NUL character; the empty path leads nowhere. -/
def locate (t : FileTree) (path : String) : Option Location :=
  let path := Text.beforeNul path
  if path = "" ∨ pathLimit ≤ path.utf8ByteSize then none
  else t.walk (if path.toList.head? = some '/' then [] else t.work) (names path)

/-- The text that a path leads to. -/
def read (t : FileTree) (path : String) : Option String :=
  (t.locate path).map fun l => (t.files.lookup l).getD ""

/-- Writes a file, named by the way down from the working folder. -/
def write (t : FileTree) (path text : String) : FileTree :=
  let down := (names (Text.beforeNul path)).filter fun name => name ≠ "" ∧ name ≠ "."
  { t with files := (t.work ++ down, text) :: t.files }

/-- The tree with the given files in the working folder; a later one of the same name counts. -/
def ofList (files : List (String × String)) : FileTree :=
  files.foldl (fun t f => t.write f.1 f.2) {}

end FileTree

end PetriReach
