import PetriReach.Text
import PetriReach.Token
import PetriReach.Formula.Error

/-!
# Scanning

Cutting the text of a formula into tokens. A word is a maximal run of letters that are neither blank
nor special; `{…}` is one identifier and nothing inside it is interpreted. A read that fails leaves
the cursor where it was.

A text is given by its bytes, whatever they are, or by its characters. The scanner is the same: only
ASCII characters are told from others, and columns count bytes.
-/

namespace PetriReach

/-- What a text is made of. The scanner takes a letter for a character, and knows its width in
bytes. -/
class Letter (α : Type) where
  char : α → Char
  width : α → Nat

instance : Letter UInt8 where
  char := Char.ofUInt8
  width _ := 1

instance : Letter Char where
  char c := c
  width := Char.utf8Size

/-- Bytes taken by letters. -/
def Letter.widthAll {α : Type} [Letter α] : List α → Nat
  | [] => 0
  | a :: w => width a + widthAll w

/-- A position in a text: the byte column of the next letter, and what is left. -/
structure Cursor (α : Type := Char) where
  column : Nat
  rest : List α
  deriving DecidableEq, Repr

/-- A token as it stands in a text. -/
structure RawToken (α : Type) where
  kind : Token.Kind
  text : List α
  column : Nat
  deriving DecidableEq, Repr

namespace Cursor

/-- The beginning of a text. -/
def start (s : String) : Cursor :=
  ⟨1, s.toList⟩

variable {α : Type} [Letter α]

/-- Moves over `n` letters. -/
def advance (c : Cursor α) (n : Nat) : Cursor α :=
  ⟨c.column + Letter.widthAll (c.rest.take n), c.rest.drop n⟩

/-- Moves over the blanks. -/
def skipBlanks (c : Cursor α) : Cursor α :=
  c.advance (c.rest.takeWhile fun a => Text.isBlank (Letter.char a)).length

end Cursor

namespace Token

/-- The characters that end a word. -/
def isSpecial (c : Char) : Bool :=
  "()+*<>=!/\\\x7b\x7d-".toList.contains c || Text.isBlank c

/-- The operators with their classes; of two that share a beginning the longer stands first. -/
def operators : List (String × Kind) :=
  [("(", .lparen), (")", .rparen), ("+", .plus), ("*", .star), ("-", .minus), ("=", .eq),
    ("/\\", .and), ("\\/", .or), ("!=", .ne), ("<=", .le), ("<", .lt), (">=", .ge), (">", .gt)]

/-- The class of a word. -/
def wordKind (w : List Char) : Kind :=
  if Text.isNumeral w then .integer
  else if w = ['T'] then .tt
  else if w = ['F'] then .ff
  else .identifier

end Token

namespace RawToken

open Token

variable {α : Type} [Letter α]

/-- Whether a text begins with these characters. -/
def begins : List Char → List α → Bool
  | [], _ => true
  | _ :: _, [] => false
  | c :: cs, a :: rest => c = Letter.char a && begins cs rest

/-- The operator that a text begins with. -/
def operator? (rest : List α) : Option (String × Kind) :=
  operators.find? fun o => begins o.1.toList rest

/-- A name that stands for itself in a formula, without braces. -/
def isPlain (name : List α) : Bool :=
  let cs := name.map Letter.char
  if cs.isEmpty || cs = ['T'] || cs = ['F'] || Text.isNumeral cs then false
  else !cs.any isSpecial

/-- The label whose opening brace the cursor stands at. -/
def label (c : Cursor α) : Except SyntaxError (RawToken α × Cursor α) :=
  let body := (c.rest.drop 1).takeWhile fun a => Letter.char a ≠ '}'
  if body.length + 1 = c.rest.length then .error ⟨.unterminatedLabel, c.column⟩
  else if body.isEmpty then .error ⟨.emptyLabel, c.column⟩
  else .ok (⟨.identifier, body, c.column⟩, c.advance (body.length + 2))

/-- The word that the cursor stands at. -/
def word (c : Cursor α) : RawToken α × Cursor α :=
  let w := c.rest.takeWhile fun a => !isSpecial (Letter.char a)
  (⟨wordKind (w.map Letter.char), w, c.column⟩, c.advance w.length)

/-- The next token, and the cursor behind it. At the end of the text this is the end token, again
and again. -/
def next (c : Cursor α) : Except SyntaxError (RawToken α × Cursor α) :=
  let c := c.skipBlanks
  match c.rest with
  | [] => .ok (⟨.eof, [], c.column⟩, c)
  | a :: _ =>
    match operator? c.rest with
    | some (text, kind) =>
      .ok (⟨kind, c.rest.take text.length, c.column⟩, c.advance text.length)
    | none =>
      if Letter.char a = '{' then label c
      else if isSpecial (Letter.char a) then
        .error ⟨.unexpectedCharacter (Letter.char a), c.column⟩
      else .ok (word c)

/-- At most `n` tokens and the end token. -/
def scanFrom : Nat → Cursor α → Except SyntaxError (List (RawToken α))
  | 0, c => (next c).map fun r => [r.1]
  | n + 1, c =>
    match next c with
    | .error e => .error e
    | .ok (t, c') => if t.kind = .eof then .ok [t] else (scanFrom n c').map (t :: ·)

/-- The tokens of a text, the end token last. Every token before it takes a letter, so the length of
the text bounds their number. -/
def scan (w : List α) : Except SyntaxError (List (RawToken α)) :=
  scanFrom w.length ⟨1, w⟩

end RawToken

namespace Token

/-- A token in a text of characters. -/
def ofRaw (t : RawToken Char) : Token :=
  ⟨t.kind, String.ofList t.text, t.column⟩

/-- The next token of a text of characters, and the cursor behind it. -/
def next (c : Cursor) : Except SyntaxError (Token × Cursor) :=
  (RawToken.next c).map fun r => (ofRaw r.1, r.2)

/-- The tokens of a text, the end token last. -/
def scan (s : String) : Except SyntaxError (List Token) :=
  (RawToken.scan s.toList).map (List.map ofRaw)

/-- A name that stands for itself in a formula, without braces. -/
def isPlain (name : String) : Bool :=
  RawToken.isPlain name.toList

end Token

end PetriReach
