import Mathlib.Tactic.Common
import PetriReach.Proofs.Smt.SExpr
import PetriReach.Smt.Command

/-!
# Reading scripts

The text of a script, read back. `|a|` and `a` are the same symbol; a numeral has no sign. What is
not the written form of a command of `Smt.Command` is not read.

* `Script.ofText?_eq_mapM`: a text is read command by command.
* `Script.ofText?_render`: a readable script is read back from its text.
-/

namespace PetriReach

/-- A map whose steps all succeed is a plain map. -/
theorem mapM_eq_pure {m : Type → Type} [Monad m] [LawfulMonad m] {α β : Type} {f : α → m β}
    {g : α → β} {as : List α} (h : ∀ a ∈ as, f a = pure (g a)) :
    as.mapM f = pure (as.map g) := by
  induction as with
  | nil => rfl
  | cons a as ih =>
    have has := ih fun b hb => h b (List.mem_cons_of_mem a hb)
    rw [List.mapM_cons, h a List.mem_cons_self, has]
    simp

namespace Smt

/-! ## Terms and commands -/

/-- The words that are no symbols unless they stand between bars. -/
def reservedWords : List String :=
  ["!", "_", "as", "BINARY", "DECIMAL", "exists", "HEXADECIMAL", "forall", "let", "match",
    "NUMERAL", "par", "STRING", "assert", "check-sat", "check-sat-assuming", "declare-const",
    "declare-datatype", "declare-datatypes", "declare-fun", "declare-sort", "define-fun",
    "define-fun-rec", "define-funs-rec", "define-sort", "echo", "exit", "get-assertions",
    "get-assignment", "get-info", "get-model", "get-option", "get-proof",
    "get-unsat-assumptions", "get-unsat-core", "get-value", "pop", "push", "reset",
    "reset-assertions", "set-info", "set-logic", "set-option"]

/-- All operators. -/
def Op.all : List Op :=
  [.not, .and, .or, .eq, .distinct, .le, .lt, .ge, .gt, .add, .sub, .mul]

/-- The operator with a given written form. -/
def Op.ofText? (w : List Char) : Option Op :=
  Op.all.find? (·.text.toList = w)

namespace SExpr

/-- The truth value that a symbol names. -/
def truth? (w : List Char) : Option Bool :=
  if w = "true".toList then some true else if w = "false".toList then some false else none

/-- The symbol that a word is. -/
def symbol? : SExpr → Option Symbol
  | .plain w =>
    if isSimple (String.ofList w) ∧ String.ofList w ∉ reservedWords then some ⟨String.ofList w⟩
    else none
  | .quoted w => some ⟨String.ofList w⟩
  | .list _ => none

/-- The term that a word is. -/
def atom? : SExpr → Option Term
  | .plain w =>
    if Text.isNumeral w then some (.num (Nat.ofDigitChars 10 w 0))
    else match truth? w with
      | some b => some (.bool b)
      | none => (symbol? (.plain w)).map .sym
  | .quoted w =>
    match truth? w with
    | some b => some (.bool b)
    | none => (symbol? (.quoted w)).map .sym
  | .list _ => none

mutual

/-- The term that a nested list is. -/
def term? : SExpr → Option Term
  | .plain w => atom? (.plain w)
  | .quoted w => atom? (.quoted w)
  | .list (.plain w :: es) => (Op.ofText? w).bind fun op => (terms? es).map (.app op)
  | .list _ => none

/-- The terms that nested lists are. -/
def terms? : List SExpr → Option (List Term)
  | [] => some []
  | e :: es => (term? e).bind fun t => (terms? es).map (t :: ·)

end

/-- The sort that a word names. -/
def sort? : SExpr → Option VarSort
  | .plain w =>
    if w = "Int".toList then some .int else if w = "Bool".toList then some .bool else none
  | _ => none

/-- The command that a nested list is. -/
def command? : SExpr → Option Command
  | .list [.plain w, e, .list [], τ] =>
    if w = "declare-fun".toList then
      (symbol? e).bind fun s => (sort? τ).map (.declare s)
    else none
  | .list [.plain w, e] => if w = "assert".toList then (term? e).map .assert else none
  | .list [.plain w] =>
    if w = "push".toList then some .push
    else if w = "pop".toList then some .pop
    else if w = "check-sat".toList then some .checkSat
    else none
  | _ => none

end SExpr

/-- The script that a text is. -/
def Script.ofText? (s : String) : Option Script :=
  ((Lexeme.scan .between s.toList).bind (SExpr.nest [] [])).bind (·.mapM SExpr.command?)

/-! ## Written forms as nested lists -/

/-- The written form of a symbol. -/
def Symbol.sexpr (s : Symbol) : SExpr :=
  if isSimple s.name then .plain s.name.toList else .quoted s.name.toList

namespace Term

mutual

/-- The written form of a term. -/
def sexpr : Term → SExpr
  | .sym s => s.sexpr
  | .num n => .plain (toString n).toList
  | .bool b => .plain (if b then "true" else "false").toList
  | .app op ts => .list (.plain op.text.toList :: sexprs ts)

/-- The written form of terms. -/
def sexprs : List Term → List SExpr
  | [] => []
  | t :: ts => t.sexpr :: sexprs ts

end

end Term

/-- The written form of a sort. -/
def VarSort.sexpr (τ : VarSort) : SExpr :=
  .plain τ.text.toList

/-- The written form of a command. -/
def Command.sexpr : Command → SExpr
  | .declare s τ => .list [.plain "declare-fun".toList, s.sexpr, .list [], τ.sexpr]
  | .assert t => .list [.plain "assert".toList, t.sexpr]
  | .push => .list [.plain "push".toList]
  | .pop => .list [.plain "pop".toList]
  | .checkSat => .list [.plain "check-sat".toList]

theorem Symbol.toList_render (s : Symbol) : s.render.toList = s.sexpr.chars := by
  unfold Symbol.render Symbol.sexpr
  split
  · rfl
  · simp [SExpr.chars]

/-- Operands are written behind a space each. -/
theorem toList_intercalate_space (x : String) (xs : List String) :
    (" ".intercalate (x :: xs)).toList = x.toList ++ xs.flatMap fun y => ' ' :: y.toList := by
  induction xs generalizing x with
  | nil => simp
  | cons y ys ih =>
    rw [String.intercalate_cons_cons, String.toList_append, String.toList_append, ih]
    simp

namespace Term

mutual

theorem toList_render : ∀ t : Term, t.render.toList = t.sexpr.chars
  | .sym s => s.toList_render
  | .num n => rfl
  | .bool b => by cases b <;> rfl
  | .app op ts => by
    rw [render, Op.apply, String.toList_append, String.toList_append, toList_intercalate_space,
      flatMap_renderAll, sexpr, SExpr.chars, SExpr.chars]
    rfl

theorem flatMap_renderAll : ∀ ts : List Term,
    (renderAll ts).flatMap (fun y => ' ' :: y.toList) = SExpr.charsBehind (sexprs ts)
  | [] => rfl
  | t :: ts => by
    rw [renderAll, List.flatMap_cons, toList_render, flatMap_renderAll, sexprs,
      SExpr.charsBehind]
    rfl

end

end Term

theorem SExpr.chars_pair (w : List Char) (e : SExpr) :
    (SExpr.list [.plain w, e]).chars = '(' :: (w ++ ' ' :: (e.chars ++ [')'])) := by
  simp [SExpr.chars, SExpr.charsBehind]

theorem SExpr.chars_declaration (w u : List Char) (e : SExpr) :
    (SExpr.list [.plain w, e, .list [], .plain u]).chars =
      '(' :: (w ++ ' ' :: (e.chars ++ ' ' :: '(' :: ')' :: ' ' :: (u ++ [')']))) := by
  simp [SExpr.chars, SExpr.charsBehind]

theorem Command.toList_render (c : Command) : c.render.toList = c.sexpr.chars ++ ['\n'] := by
  cases c with
  | declare s τ =>
    show ("(declare-fun " ++ s.render ++ " () " ++ τ.text ++ ")\n").toList = _
    rw [Command.sexpr, VarSort.sexpr, SExpr.chars_declaration, ← s.toList_render]
    simp only [String.toList_append, List.append_assoc, List.cons_append]
    rfl
  | assert t =>
    show ("(assert " ++ t.render ++ ")\n").toList = _
    rw [Command.sexpr, SExpr.chars_pair, ← t.toList_render]
    simp only [String.toList_append, List.append_assoc, List.cons_append]
    rfl
  | push => rfl
  | pop => rfl
  | checkSat => rfl

/-! ## Reading back -/

/-- The symbol can be written, on one line. -/
def Symbol.Written (s : Symbol) : Prop :=
  isQuotable s.name = true ∧ '\n' ∉ s.name.toList

/-- The symbol is read back from its written form, as a symbol. -/
def Symbol.Readable (s : Symbol) : Prop :=
  s.Written ∧ (isSimple s.name = true →
    s.name ∉ reservedWords ∧ s.name ≠ "true" ∧ s.name ≠ "false")

/-- The symbol can be written, on one line or more. -/
def Symbol.Quotable (s : Symbol) : Prop :=
  isQuotable s.name = true

/-- The symbol is read back from its written form, on one line or more. -/
def Symbol.ReadBack (s : Symbol) : Prop :=
  s.Quotable ∧ (isSimple s.name = true →
    s.name ∉ reservedWords ∧ s.name ≠ "true" ∧ s.name ≠ "false")

theorem Symbol.Readable.readBack {s : Symbol} (h : s.Readable) : s.ReadBack :=
  ⟨h.1.1, h.2⟩

namespace Term

mutual

/-- Symbols satisfy `P`, and numerals have no sign. -/
def Within (P : Symbol → Prop) : Term → Prop
  | .sym s => P s
  | .num n => 0 ≤ n
  | .bool _ => True
  | .app _ ts => WithinAll P ts

/-- All terms are such. -/
def WithinAll (P : Symbol → Prop) : List Term → Prop
  | [] => True
  | t :: ts => t.Within P ∧ WithinAll P ts

end

variable {P Q : Symbol → Prop}

mutual

theorem Within.mono (h : ∀ {s}, P s → Q s) : ∀ {t : Term}, t.Within P → t.Within Q
  | .sym _, ht => h ht
  | .num _, ht => ht
  | .bool _, ht => ht
  | .app _ ts, ht => WithinAll.mono h (show WithinAll P ts from ht)

theorem WithinAll.mono (h : ∀ {s}, P s → Q s) : ∀ {ts : List Term}, WithinAll P ts → WithinAll Q ts
  | [], _ => trivial
  | _ :: _, hts => ⟨Within.mono h hts.1, WithinAll.mono h hts.2⟩

end

end Term

/-- The symbols of the command satisfy `P`, and its numerals have no sign. -/
def Command.Within (P : Symbol → Prop) : Command → Prop
  | .declare s _ => P s
  | .assert t => t.Within P
  | _ => True

/-- Everything in the command is readable. -/
abbrev Command.Readable (c : Command) : Prop :=
  c.Within Symbol.Readable

/-- Everything in the command can be written. -/
abbrev Command.Written (c : Command) : Prop :=
  c.Within Symbol.Written

theorem Command.Within.mono {P Q : Symbol → Prop} (h : ∀ {s}, P s → Q s) {c : Command}
    (hc : c.Within P) : c.Within Q := by
  cases c with
  | declare s τ => exact h hc
  | assert t => exact Term.Within.mono h hc
  | push => trivial
  | pop => trivial
  | checkSat => trivial

theorem Command.Readable.written {c : Command} (h : c.Readable) : c.Written :=
  Command.Within.mono And.left h

theorem endsWord_of_isSimpleChar {c : Char} (h : isSimpleChar c = true) :
    Lexeme.endsWord c = false := by
  by_contra hc
  simp only [Lexeme.endsWord, Lexeme.isBlank, Bool.not_eq_false, Bool.or_eq_true,
    decide_eq_true_eq] at hc
  rcases hc with (((((rfl | rfl) | rfl) | rfl) | rfl) | rfl) | rfl <;> exact absurd h (by decide)

theorem isSimple_iff {name : String} : isSimple name = true ↔
    name.toList ≠ [] ∧ (∀ c, name.toList.head? = some c → c.isDigit = false) ∧
      ∀ c ∈ name.toList, isSimpleChar c = true := by
  cases h : name.toList with
  | nil => simp [isSimple, h]
  | cons c cs => simp [isSimple, h]

theorem isQuotable_iff {name : String} : isQuotable name = true ↔
    ∀ c ∈ name.toList, c ≠ '|' ∧ c ≠ '\\' := by
  simp [isQuotable]

namespace Symbol

variable {s : Symbol}

theorem Quotable.separable (h : s.Quotable) : s.sexpr.Separable := by
  unfold sexpr
  split
  · next hs =>
    obtain ⟨hne, -, hall⟩ := isSimple_iff.mp hs
    exact ⟨hne, fun c hc => endsWord_of_isSimpleChar (hall c hc)⟩
  · exact isQuotable_iff.mp h

theorem ReadBack.symbol?_sexpr (h : s.ReadBack) : s.sexpr.symbol? = some s := by
  unfold sexpr
  split
  · next hs => rw [SExpr.symbol?, String.ofList_toList, if_pos ⟨hs, (h.2 hs).1⟩]
  · rw [SExpr.symbol?, String.ofList_toList]

theorem isNumeral_eq_false (hs : isSimple s.name = true) :
    Text.isNumeral s.name.toList = false := by
  obtain ⟨hne, hhead, -⟩ := isSimple_iff.mp hs
  obtain ⟨c, cs, hcs⟩ := List.exists_cons_of_ne_nil hne
  have hc : c.isDigit = false := hhead c (by rw [hcs]; rfl)
  simp [Text.isNumeral, hcs, hc]

theorem truth?_eq_none {w : String} (ht : w ≠ "true") (hf : w ≠ "false") :
    SExpr.truth? w.toList = none := by
  rw [SExpr.truth?, if_neg (fun h => ht (String.toList_inj.mp h)),
    if_neg (fun h => hf (String.toList_inj.mp h))]

theorem ReadBack.term?_sexpr (h : s.ReadBack) : s.sexpr.term? = some (.sym s) := by
  have hsym := h.symbol?_sexpr
  unfold sexpr at hsym ⊢
  split at hsym
  · next hs =>
    obtain ⟨-, ht, hf⟩ := h.2 hs
    rw [if_pos hs, SExpr.term?, SExpr.atom?, if_neg (by simp [isNumeral_eq_false hs]),
      truth?_eq_none ht hf, hsym]
    rfl
  · next hs =>
    have ht : s.name ≠ "true" := fun hn => hs (by rw [hn]; rfl)
    have hf : s.name ≠ "false" := fun hn => hs (by rw [hn]; rfl)
    rw [if_neg hs, SExpr.term?, SExpr.atom?, truth?_eq_none ht hf, hsym]
    rfl

end Symbol

theorem Op.ofText?_text (op : Op) : Op.ofText? op.text.toList = some op := by
  cases op <;> decide

/-- That a word can be told from its surroundings is a matter of computation. -/
theorem SExpr.separable_plain {w : List Char}
    (h : (!w.isEmpty && w.all fun c => !Lexeme.endsWord c) = true) : (SExpr.plain w).Separable := by
  rw [Bool.and_eq_true, List.all_eq_true] at h
  exact ⟨by simpa using h.1, fun c hc => by simpa using h.2 c hc⟩

theorem Op.separable_text (op : Op) : (SExpr.plain op.text.toList).Separable := by
  cases op <;> exact SExpr.separable_plain (by decide)

/-- A decimal number is a sign and digits. -/
theorem toList_toString (k : Int) : (toString k).toList =
    if 0 ≤ k then Nat.toDigits 10 k.toNat else '-' :: Nat.toDigits 10 (-k).toNat := by
  rw [Int.toString_eq_repr, Int.repr_eq_if]
  split
  · rw [Nat.toList_repr]
  · rw [String.toList_append, Nat.toList_repr]
    rfl

theorem toList_toString_ofNat (n : Nat) : (toString (n : Int)).toList = Nat.toDigits 10 n := by
  rw [toList_toString, if_pos (Int.natCast_nonneg n), Int.toNat_natCast]

theorem isDigit_of_mem_toDigits {n : Nat} {c : Char} (h : c ∈ Nat.toDigits 10 n) :
    c.isDigit = true :=
  Nat.isDigit_of_mem_toDigits (by decide) (by decide) h

theorem isNumeral_toDigits (n : Nat) : Text.isNumeral (Nat.toDigits 10 n) = true := by
  have hne : Nat.toDigits 10 n ≠ [] := Nat.toDigits_ne_nil
  have hall : ∀ c ∈ Nat.toDigits 10 n, c.isDigit = true := fun _ => isDigit_of_mem_toDigits
  simp [Text.isNumeral, hne, List.all_eq_true.mpr hall]

namespace Term

theorem term?_num (n : Nat) : (Term.num n).sexpr.term? = some (.num n) := by
  rw [sexpr, SExpr.term?, SExpr.atom?, toList_toString_ofNat, if_pos (isNumeral_toDigits n),
    Nat.ofDigitChars_ten_toDigits]

theorem separable_num (n : Nat) : (Term.num n).sexpr.Separable := by
  rw [sexpr, toList_toString_ofNat]
  refine ⟨Nat.toDigits_ne_nil, fun c hc => endsWord_of_isSimpleChar ?_⟩
  have hd : c.isDigit = true := isDigit_of_mem_toDigits hc
  simp [isSimpleChar, Char.isAlphanum, hd]

mutual

theorem Within.separable : ∀ {t : Term}, t.Within Symbol.Quotable → t.sexpr.Separable
  | .sym _, h => Symbol.Quotable.separable h
  | .num n, h => by
    obtain ⟨k, rfl⟩ := Int.eq_ofNat_of_zero_le h
    exact separable_num k
  | .bool b, _ => by cases b <;> exact SExpr.separable_plain (by decide)
  | .app op _, h => ⟨op.separable_text, WithinAll.separable h⟩

theorem WithinAll.separable : ∀ {ts : List Term}, WithinAll Symbol.Quotable ts →
    SExpr.SeparableAll (sexprs ts)
  | [], _ => trivial
  | _ :: _, h => ⟨Within.separable h.1, WithinAll.separable h.2⟩

end

mutual

/-- A readable term is read back. -/
theorem Within.term?_sexpr : ∀ {t : Term}, t.Within Symbol.ReadBack → t.sexpr.term? = some t
  | .sym _, h => Symbol.ReadBack.term?_sexpr h
  | .num n, h => by
    obtain ⟨k, rfl⟩ := Int.eq_ofNat_of_zero_le h
    exact term?_num k
  | .bool b, _ => by cases b <;> rfl
  | .app op ts, h => by
    rw [sexpr, SExpr.term?, op.ofText?_text, Option.bind_some, WithinAll.terms?_sexprs h]
    rfl

theorem WithinAll.terms?_sexprs : ∀ {ts : List Term}, WithinAll Symbol.ReadBack ts →
    SExpr.terms? (sexprs ts) = some ts
  | [], _ => rfl
  | t :: ts, h => by
    rw [sexprs, SExpr.terms?, Within.term?_sexpr h.1, Option.bind_some,
      WithinAll.terms?_sexprs h.2]
    rfl

end

end Term

namespace Command

theorem Within.separable {c : Command} (h : c.Within Symbol.Quotable) : c.sexpr.Separable := by
  cases c with
  | declare s τ =>
    have hτ : τ.sexpr.Separable := by cases τ <;> exact SExpr.separable_plain (by decide)
    exact ⟨SExpr.separable_plain (by decide), Symbol.Quotable.separable h, trivial, hτ, trivial⟩
  | assert t => exact ⟨SExpr.separable_plain (by decide), Term.Within.separable h, trivial⟩
  | push => exact ⟨SExpr.separable_plain (by decide), trivial⟩
  | pop => exact ⟨SExpr.separable_plain (by decide), trivial⟩
  | checkSat => exact ⟨SExpr.separable_plain (by decide), trivial⟩

/-- A readable command is read back. -/
theorem Within.command?_sexpr {c : Command} (h : c.Within Symbol.ReadBack) :
    c.sexpr.command? = some c := by
  cases c with
  | declare s τ =>
    have hτ : τ.sexpr.sort? = some τ := by cases τ <;> rfl
    have hs : s.sexpr.symbol? = some s := Symbol.ReadBack.symbol?_sexpr h
    rw [Command.sexpr, SExpr.command?, if_pos rfl, hs, hτ]
    rfl
  | assert t =>
    rw [Command.sexpr, SExpr.command?, if_pos rfl, Term.Within.term?_sexpr h]
    rfl
  | push => rfl
  | pop => rfl
  | checkSat => rfl

end Command

namespace Script

theorem toList_render_cons (c : Command) (cs : Script) : (Script.render (c :: cs)).toList =
    c.sexpr.chars ++ '\n' :: (Script.render cs).toList := by
  rw [Script.render, List.map_cons, String.toList_join, List.flatMap_cons, c.toList_render,
    Script.render, String.toList_join, List.append_assoc]
  rfl

/-- The words of a script are read from its text. -/
theorem scan_render {cs : Script} (h : ∀ c ∈ cs, c.Within Symbol.Quotable) :
    Lexeme.scan .between (Script.render cs).toList =
      some (SExpr.lexemesAll (cs.map Command.sexpr)) := by
  induction cs with
  | nil => rfl
  | cons c cs ih =>
    have hc : c.sexpr.Separable := (h c List.mem_cons_self).separable
    have hcs := ih fun d hd => h d (List.mem_cons_of_mem c hd)
    rw [toList_render_cons, SExpr.scan_chars ⟨'\n', _, rfl, rfl⟩ _ hc, Lexeme.scan_blank rfl, hcs]
    rfl

/-- A text is read command by command. -/
theorem ofText?_eq_mapM {cs : Script} (h : ∀ c ∈ cs, c.Within Symbol.Quotable) :
    Script.ofText? (Script.render cs) = cs.mapM fun c => c.sexpr.command? := by
  have hnest : SExpr.nest [] [] (SExpr.lexemesAll (cs.map Command.sexpr)) =
      some (cs.map Command.sexpr) := by
    have hall := SExpr.nest_lexemesAll [] [] [] (cs.map Command.sexpr)
    rw [List.append_nil, List.nil_append] at hall
    exact hall
  rw [Script.ofText?, scan_render h, Option.bind_some, hnest, Option.bind_some, List.mapM_map]
  rfl

/-- **What is read back symbol by symbol is read back as a script.** -/
theorem ofText?_render_of_readBack {cs : Script} (h : ∀ c ∈ cs, c.Within Symbol.ReadBack) :
    Script.ofText? (Script.render cs) = some cs := by
  have hall : ∀ c ∈ cs, c.sexpr.command? = pure (id c) := fun c hc => (h c hc).command?_sexpr
  rw [ofText?_eq_mapM fun c hc => (h c hc).mono And.left, mapM_eq_pure hall, List.map_id]
  rfl

/-- A readable script is read back from its text. -/
theorem ofText?_render {cs : Script} (h : ∀ c ∈ cs, c.Readable) :
    Script.ofText? (Script.render cs) = some cs :=
  ofText?_render_of_readBack fun c hc => (h c hc).mono Symbol.Readable.readBack

end Script

end Smt

end PetriReach
