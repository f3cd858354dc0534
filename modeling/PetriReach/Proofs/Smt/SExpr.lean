import PetriReach.Text

/-!
# Nested lists

Characters are read into words, and words into nested lists. A word is plain or stands between bars.

* `SExpr.scan_chars`: the words of a nested list are read back from its written form.
* `SExpr.nest_lexemes`: a nested list is read back from its words.
-/

namespace PetriReach.Smt

/-! ## Words -/

/-- Parentheses and words. -/
inductive Lexeme where
  | opening
  | closing
  | plain (w : List Char)
  | quoted (w : List Char)
  deriving DecidableEq, Repr

namespace Lexeme

/-- What separates words. -/
def isBlank (c : Char) : Bool :=
  c = ' ' || c = '\t' || c = '\n' || c = '\r'

/-- The characters that end a plain word. -/
def endsWord (c : Char) : Bool :=
  isBlank c || c = '(' || c = ')' || c = '|'

/-- Where a character stands: between words, in a plain word, or between bars. -/
inductive Mode where
  | between
  | word (w : List Char)
  | bars (w : List Char)
  deriving DecidableEq, Repr

namespace Mode

/-- What a character between words is, and where the next one stands. -/
def start (c : Char) : List Lexeme × Mode :=
  if isBlank c then ([], between)
  else if c = '(' then ([opening], between)
  else if c = ')' then ([closing], between)
  else if c = '|' then ([], bars [])
  else ([], word [c])

/-- The words that a character ends, and where the next one stands. -/
def step : Mode → Char → Option (List Lexeme × Mode)
  | between, c => some (start c)
  | word w, c => some (if endsWord c then (plain w :: (start c).1, (start c).2)
      else ([], word (w ++ [c])))
  | bars w, c =>
    if c = '|' then some ([quoted w], between)
    else if c = '\\' then none
    else some ([], bars (w ++ [c]))

/-- The word that the end of the text ends. -/
def finish : Mode → Option (List Lexeme)
  | between => some []
  | word w => some [plain w]
  | bars _ => none

end Mode

/-- The words of a text. -/
def scan : Mode → List Char → Option (List Lexeme)
  | m, [] => m.finish
  | m, c :: cs => (m.step c).bind fun r => (scan r.2 cs).map (r.1 ++ ·)

end Lexeme

/-! ## Nested lists -/

/-- Words, and lists of such. -/
inductive SExpr where
  | plain (w : List Char)
  | quoted (w : List Char)
  | list (es : List SExpr)
  deriving Repr

namespace SExpr

/-- Reads words at the level of `es`, inside the lists `stack`. -/
def nest : List (List SExpr) → List SExpr → List Lexeme → Option (List SExpr)
  | [], es, [] => some es
  | _ :: _, _, [] => none
  | stack, es, .opening :: ls => nest (es :: stack) [] ls
  | [], _, .closing :: _ => none
  | outer :: stack, es, .closing :: ls => nest stack (outer ++ [.list es]) ls
  | stack, es, .plain w :: ls => nest stack (es ++ [.plain w]) ls
  | stack, es, .quoted w :: ls => nest stack (es ++ [.quoted w]) ls

mutual

/-- The words of a nested list. -/
def lexemes : SExpr → List Lexeme
  | .plain w => [.plain w]
  | .quoted w => [.quoted w]
  | .list es => .opening :: (lexemesAll es ++ [.closing])

/-- The words of nested lists. -/
def lexemesAll : List SExpr → List Lexeme
  | [] => []
  | e :: es => e.lexemes ++ lexemesAll es

end

mutual

/-- The written form of a nested list. -/
def chars : SExpr → List Char
  | .plain w => w
  | .quoted w => '|' :: (w ++ ['|'])
  | .list [] => ['(', ')']
  | .list (e :: es) => '(' :: (e.chars ++ charsBehind es ++ [')'])

/-- The written form of nested lists, each behind a space. -/
def charsBehind : List SExpr → List Char
  | [] => []
  | e :: es => ' ' :: (e.chars ++ charsBehind es)

end

mutual

/-- Every word can be told from its surroundings. -/
def Separable : SExpr → Prop
  | .plain w => w ≠ [] ∧ ∀ c ∈ w, Lexeme.endsWord c = false
  | .quoted w => ∀ c ∈ w, c ≠ '|' ∧ c ≠ '\\'
  | .list es => SeparableAll es

/-- Every word of the lists can be told from its surroundings. -/
def SeparableAll : List SExpr → Prop
  | [] => True
  | e :: es => e.Separable ∧ SeparableAll es

end

theorem nest_opening (stack : List (List SExpr)) (es : List SExpr) (ls : List Lexeme) :
    nest stack es (.opening :: ls) = nest (es :: stack) [] ls := by
  cases stack <;> rfl

mutual

/-- The words of a nested list are read back, whatever stands around them. -/
theorem nest_lexemes (stack : List (List SExpr)) (es : List SExpr) (ls : List Lexeme) :
    ∀ e : SExpr, nest stack es (e.lexemes ++ ls) = nest stack (es ++ [e]) ls
  | .plain w => by cases stack <;> rfl
  | .quoted w => by cases stack <;> rfl
  | .list ds => by
    rw [lexemes, List.cons_append, nest_opening, List.append_assoc, nest_lexemesAll]
    rfl

theorem nest_lexemesAll (stack : List (List SExpr)) (es : List SExpr) (ls : List Lexeme) :
    ∀ ds : List SExpr, nest stack es (lexemesAll ds ++ ls) = nest stack (es ++ ds) ls
  | [] => by rw [lexemesAll, List.nil_append, List.append_nil]
  | d :: ds => by
    rw [lexemesAll, List.append_assoc, nest_lexemes, nest_lexemesAll, List.append_assoc]
    rfl

end

end SExpr

/-! ## Words from their written form -/

namespace Lexeme

theorem scan_cons_between (c : Char) (cs : List Char) :
    scan .between (c :: cs) = (scan (Mode.start c).2 cs).map ((Mode.start c).1 ++ ·) :=
  rfl

theorem scan_blank {c : Char} (h : isBlank c = true) (cs : List Char) :
    scan .between (c :: cs) = scan .between cs := by
  simp [scan_cons_between, Mode.start, h]

theorem scan_opening (cs : List Char) :
    scan .between ('(' :: cs) = (scan .between cs).map (.opening :: ·) :=
  rfl

theorem scan_closing (cs : List Char) :
    scan .between (')' :: cs) = (scan .between cs).map (.closing :: ·) :=
  rfl

/-- The text begins with a character that ends a plain word. -/
def Ends (cs : List Char) : Prop :=
  ∃ d rest, cs = d :: rest ∧ endsWord d = true

/-- The rest of a plain word, up to the character that ends it. -/
theorem scan_word (w cs : List Char) (hcs : ∀ c ∈ cs, endsWord c = false) {rest : List Char}
    (hr : Ends rest) :
    scan (.word w) (cs ++ rest) = (scan .between rest).map (.plain (w ++ cs) :: ·) := by
  induction cs generalizing w with
  | nil =>
    obtain ⟨d, ds, rfl, hd⟩ := hr
    simp only [List.nil_append, List.append_nil, scan, Mode.step, hd, if_true, Option.bind_some,
      Option.map_map]
    rfl
  | cons c cs ih =>
    have hc : endsWord c = false := hcs c List.mem_cons_self
    have hw := ih (w ++ [c]) fun x hx => hcs x (List.mem_cons_of_mem c hx)
    simp only [List.cons_append, scan, Mode.step, hc, Bool.false_eq_true, if_false,
      Option.bind_some, List.nil_append, Option.map_id']
    rw [hw, List.append_assoc]
    rfl

/-- A plain word, up to the character that ends it. -/
theorem scan_plain {w : List Char} (hw : w ≠ []) (hcs : ∀ c ∈ w, endsWord c = false)
    {rest : List Char} (hr : Ends rest) :
    scan .between (w ++ rest) = (scan .between rest).map (.plain w :: ·) := by
  obtain ⟨c, cs, rfl⟩ := List.exists_cons_of_ne_nil hw
  have hc : endsWord c = false := hcs c List.mem_cons_self
  have hstart : Mode.start c = ([], .word [c]) := by
    simp only [endsWord, Bool.or_eq_false_iff, decide_eq_false_iff_not] at hc
    simp [Mode.start, hc]
  rw [List.cons_append, scan_cons_between, hstart]
  simp only [List.nil_append, Option.map_id']
  exact scan_word [c] cs (fun x hx => hcs x (List.mem_cons_of_mem c hx)) hr

/-- The rest of a word between bars. -/
theorem scan_bars (w cs : List Char) (hcs : ∀ c ∈ cs, c ≠ '|' ∧ c ≠ '\\') (rest : List Char) :
    scan (.bars w) (cs ++ '|' :: rest) = (scan .between rest).map (.quoted (w ++ cs) :: ·) := by
  induction cs generalizing w with
  | nil => simp [scan, Mode.step]
  | cons c cs ih =>
    obtain ⟨hbar, hslash⟩ := hcs c List.mem_cons_self
    have hw := ih (w ++ [c]) fun x hx => hcs x (List.mem_cons_of_mem c hx)
    simp only [List.cons_append, scan, Mode.step, hbar, hslash, if_false, Option.bind_some,
      List.nil_append, Option.map_id']
    rw [hw, List.append_assoc]
    rfl

/-- A word between bars. -/
theorem scan_quoted {w : List Char} (hcs : ∀ c ∈ w, c ≠ '|' ∧ c ≠ '\\') (rest : List Char) :
    scan .between ('|' :: (w ++ '|' :: rest)) = (scan .between rest).map (.quoted w :: ·) := by
  have hstart : Mode.start '|' = ([], .bars []) := rfl
  rw [scan_cons_between, hstart]
  simp only [List.nil_append, Option.map_id']
  exact scan_bars [] w hcs rest

end Lexeme

namespace SExpr

open Lexeme

/-- Written lists behind a space do not run into the word before them. -/
theorem ends_charsBehind (es : List SExpr) {rest : List Char} (hr : Ends rest) :
    Ends (charsBehind es ++ rest) := by
  cases es with
  | nil => exact hr
  | cons e es => exact ⟨' ', _, rfl, rfl⟩

mutual

/-- A nested list is read from its written form, up to a character that ends words. -/
theorem scan_chars {rest : List Char} (hr : Ends rest) : ∀ e : SExpr, e.Separable →
    scan .between (e.chars ++ rest) = (scan .between rest).map (e.lexemes ++ ·)
  | .plain w, h => scan_plain h.1 h.2 hr
  | .quoted w, h => by
    rw [chars, List.cons_append, List.append_assoc]
    exact scan_quoted h rest
  | .list [], _ => by
    show scan .between ('(' :: ')' :: rest) = _
    rw [scan_opening, scan_closing, Option.map_map]
    rfl
  | .list (e :: es), h => by
    have hclose : Ends (')' :: rest) := ⟨_, _, rfl, rfl⟩
    rw [chars, List.cons_append, scan_opening, List.append_assoc, List.append_assoc,
      List.singleton_append, scan_chars (ends_charsBehind es hclose) e h.1,
      scan_charsBehind hclose es h.2, scan_closing]
    simp only [Option.map_map, lexemes, lexemesAll]
    congr 1
    funext ls
    simp

/-- The same for lists that stand behind a space each. -/
theorem scan_charsBehind {rest : List Char} (hr : Ends rest) : ∀ es : List SExpr,
    SeparableAll es →
      scan .between (charsBehind es ++ rest) = (scan .between rest).map (lexemesAll es ++ ·)
  | [], _ => by simp [charsBehind, lexemesAll]
  | e :: es, h => by
    rw [charsBehind, List.cons_append, scan_blank rfl, List.append_assoc,
      scan_chars (ends_charsBehind es hr) e h.1, scan_charsBehind hr es h.2, lexemesAll,
      Option.map_map]
    congr 1
    funext ls
    simp

end

end SExpr

end PetriReach.Smt
