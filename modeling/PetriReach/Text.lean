/-!
# Text

Character classes, trimming, and cutting a text into fields and lines. All classes are ASCII ones;
every other character is an ordinary letter. A NUL character is an ordinary letter too, but the
messages of errors and the names handed to the system end before it.

Token counts, weights and constants lie below `2 ^ 63`. Digits are taken one by one and the reading
stops before a value would pass the limit.
-/

namespace PetriReach

namespace Text

/-- What separates words: space, tab, line feed, vertical tab, form feed, carriage return. -/
def isBlank (c : Char) : Bool :=
  c = ' ' || c = '\t' || c = '\n' || c = '\x0b' || c = '\x0c' || c = '\r'

/-- What trimming removes: the blanks except vertical tab and form feed. -/
def isEdge (c : Char) : Bool :=
  c = ' ' || c = '\t' || c = '\r' || c = '\n'

/-- A nonempty run of decimal digits. -/
def isNumeral (cs : List Char) : Bool :=
  !cs.isEmpty && cs.all Char.isDigit

/-- The text before the first NUL character. -/
def beforeNul (s : String) : String :=
  String.ofList (s.toList.takeWhile (· ≠ '\x00'))

/-- The text without the edge characters at both ends. -/
def trim (s : String) : String :=
  String.ofList ((s.toList.dropWhile isEdge).reverse.dropWhile isEdge).reverse

/-- The parts between the characters of class `p`, empty ones included: always at least one. -/
def pieces (p : Char → Bool) : List Char → List (List Char)
  | [] => [[]]
  | c :: cs =>
    if p c then [] :: pieces p cs
    else match pieces p cs with
      | [] => [[c]]
      | w :: ws => (c :: w) :: ws

/-- The maximal runs without blanks. -/
def fields (s : String) : List String :=
  ((pieces isBlank s.toList).filter (!·.isEmpty)).map String.ofList

/-- The parts between line feeds; a final line feed is followed by an empty line. -/
def lines (s : String) : List String :=
  (pieces (· = '\n') s.toList).map String.ofList

/-- The lines that a line feed ends; what follows the last line feed is no line. -/
def endedLines (s : String) : List String :=
  (lines s).dropLast

/-- The lines of a stored text: a final line feed ends the last line and starts no other. -/
def storedLines (s : String) : List String :=
  let ls := lines s
  if ls.getLast? = some "" then ls.dropLast else ls

/-- The text as one diagnostic: it ends in a line feed, added where it is missing. -/
def asLine (s : String) : String :=
  if s.toList.getLast? = some '\n' then s else s ++ "\n"

end Text

namespace Number

/-- The greatest number that can be read. -/
def limit : Nat := 9223372036854775807

/-- The weight of a character as a digit: its distance from `'0'`. Characters before `'0'` and
characters outside ASCII have none. -/
def digit? (c : Char) : Option Nat :=
  if '0' ≤ c ∧ c.toNat < 128 then some (c.toNat - '0'.toNat) else none

/-- Appends digits to `value`; `none` as soon as the limit would be passed. -/
def readFrom (value : Nat) : List Char → Option Nat
  | [] => some value
  | c :: cs =>
    match digit? c with
    | none => none
    | some d => if value ≤ (limit - d) / 10 then readFrom (value * 10 + d) cs else none

/-- The value of a digit string, if it is within the limit. -/
def read (cs : List Char) : Option Nat :=
  readFrom 0 cs

end Number

end PetriReach
