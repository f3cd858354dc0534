import PetriReach.Formula.Printer
import PetriReach.Proofs.Smt.Reader
import PetriReach.Proofs.Token.Stream

/-!
# Texts cut into tokens

How a text that is put together from words, labels, operators and blanks is cut into tokens, from
the last token to the first.

* `RawToken.Scans`: the text is cut into tokens with a given property.
* `RawToken.Scans.operator`, `RawToken.Scans.word`, `RawToken.Scans.label`, `RawToken.Scans.name`:
  what one more token at the front comes to.
* `Token.Scans`: the same for texts of characters, with numbers and places.
-/

namespace PetriReach

namespace RawToken

open Token

variable {α : Type} [Letter α] {w : List α} {P Q : List (RawToken α) → Prop}

/-- At whatever column it begins, the text is cut into tokens with the property `P` and the end
token. -/
def Scans (w : List α) (P : List (RawToken α) → Prop) : Prop :=
  ∀ column n, w.length ≤ n → ∃ ts e, scanFrom n ⟨column, w⟩ = .ok (ts ++ [e]) ∧
    e.kind = .eof ∧ P ts

/-- A token of class `k` with the text `text`, and tokens with the property `P` behind it. -/
def Behind (k : Kind) (text : List α) (P : List (RawToken α) → Prop) (ts : List (RawToken α)) :
    Prop :=
  ∃ t us, ts = t :: us ∧ t.kind = k ∧ t.text = text ∧ P us

/-- A word may end here. -/
def EndsWord (w : List α) : Prop :=
  ∀ a, w.head? = some a → isSpecial (Letter.char a) = true

theorem endsWord_nil : EndsWord ([] : List α) := by
  rintro a ⟨⟩

theorem endsWord_cons {a : α} (h : isSpecial (Letter.char a) = true) : EndsWord (a :: w) := by
  rintro b ⟨⟩
  exact h

theorem Scans.mono (h : Scans w P) (hPQ : ∀ ts, P ts → Q ts) : Scans w Q := by
  intro column n hn
  obtain ⟨ts, e, hscan, he, hts⟩ := h column n hn
  exact ⟨ts, e, hscan, he, hPQ ts hts⟩

/-! ## The cursor -/

theorem skipBlanks_of_head {column : Nat} {a : α} (h : Text.isBlank (Letter.char a) = false) :
    (⟨column, a :: w⟩ : Cursor α).skipBlanks = ⟨column, a :: w⟩ := by
  simp [Cursor.skipBlanks, Cursor.advance, h, Letter.widthAll]

theorem skipBlanks_cons {a : α} (h : Text.isBlank (Letter.char a) = true) (column : Nat)
    (w : List α) : (⟨column, a :: w⟩ : Cursor α).skipBlanks =
      (⟨column + Letter.width a, w⟩ : Cursor α).skipBlanks := by
  simp only [Cursor.skipBlanks, Cursor.advance, List.takeWhile_cons, h, if_true, List.length_cons,
    List.take_succ_cons, List.drop_succ_cons, Letter.widthAll, Nat.add_assoc]

/-! ## One token more -/

theorem Scans.nil (h : P []) : Scans [] P := by
  intro column n _
  refine ⟨[], ⟨.eof, [], column⟩, ?_, rfl, h⟩
  cases n <;> rfl

/-- A blank at the front does nothing. -/
theorem Scans.blank (h : Scans w P) {a : α} (ha : Text.isBlank (Letter.char a) = true) :
    Scans (a :: w) P := by
  intro column n hn
  cases n with
  | zero => cases hn
  | succ n =>
    rw [List.length_cons] at hn
    obtain ⟨ts, e, hscan, he, hts⟩ := h (column + Letter.width a) (n + 1) (by omega)
    refine ⟨ts, e, ?_, he, hts⟩
    rw [← hscan, scanFrom, scanFrom, next, next, skipBlanks_cons ha]

/-- A token that the scanner finds at the front comes before the others. -/
theorem Scans.cons {v text : List α} {k : Kind} (h : Scans w P) (hk : k ≠ .eof) (hv : v ≠ [])
    (hnext : ∀ column, next ⟨column, v ++ w⟩ =
      .ok (⟨k, text, column⟩, (⟨column, v ++ w⟩ : Cursor α).advance v.length)) :
    Scans (v ++ w) (Behind k text P) := by
  intro column n hn
  have hpos := List.length_pos_iff.mpr hv
  rw [List.length_append] at hn
  cases n with
  | zero => omega
  | succ n =>
    have hadvance : (⟨column, v ++ w⟩ : Cursor α).advance v.length =
        ⟨column + Letter.widthAll v, w⟩ := by
      simp [Cursor.advance]
    obtain ⟨ts, e, hscan, he, hts⟩ := h (column + Letter.widthAll v) n (by omega)
    refine ⟨⟨k, text, column⟩ :: ts, e, ?_, he, _, ts, rfl, rfl, rfl, hts⟩
    rw [scanFrom, hnext column, hadvance]
    show (if k = .eof then _ else _) = _
    rw [if_neg hk, hscan]
    rfl

/-! ## Operators -/

/-- An operator begins with a special character that is neither blank nor a brace. -/
theorem exists_head_of_mem_operators {o : String × Kind} (ho : o ∈ operators) :
    ∃ a w, o.1.toList = a :: w ∧ Text.isBlank a = false ∧ isSpecial a = true ∧ a ≠ '{' := by
  have hhead : ∀ o ∈ operators,
      o.1.toList.head?.any (fun a => !Text.isBlank a && isSpecial a && a != '{') = true := by
    decide
  have hany := hhead o ho
  cases h : o.1.toList with
  | nil =>
    rw [h] at hany
    cases hany
  | cons a w =>
    rw [h] at hany
    exact ⟨a, w, rfl, by simpa [and_assoc] using hany⟩

theorem operator?_eq_none {a : α} (h : isSpecial (Letter.char a) = false ∨ Letter.char a = '{') :
    operator? (a :: w) = none := by
  refine List.find?_eq_none.mpr fun o ho hbegins => ?_
  obtain ⟨b, v, hb, -, hspecial, hbrace⟩ := exists_head_of_mem_operators ho
  rw [hb, begins, Bool.and_eq_true, decide_eq_true_eq] at hbegins
  obtain ⟨rfl, -⟩ := hbegins
  rcases h with h | h
  · rw [h] at hspecial
    cases hspecial
  · exact hbrace h

/-- A read at an operator. -/
theorem next_of_operator {column : Nat} {a : α} {o : String × Kind}
    (h : Text.isBlank (Letter.char a) = false) (hop : operator? (a :: w) = some o) :
    next ⟨column, a :: w⟩ = .ok (⟨o.2, (a :: w).take o.1.length, column⟩,
      (⟨column, a :: w⟩ : Cursor α).advance o.1.length) := by
  simp only [next, skipBlanks_of_head h, hop]

/-- A read at a letter that neither is blank nor begins an operator. -/
theorem next_of_no_operator {column : Nat} {a : α} (h : Text.isBlank (Letter.char a) = false)
    (hop : operator? (a :: w) = none) : next ⟨column, a :: w⟩ =
      if Letter.char a = '{' then label ⟨column, a :: w⟩
      else if isSpecial (Letter.char a) then
        .error ⟨.unexpectedCharacter (Letter.char a), column⟩
      else .ok (word ⟨column, a :: w⟩) := by
  simp only [next, skipBlanks_of_head h, hop]

/-- An operator at the front. -/
theorem Scans.operator {v : List α} {o : String × Kind} (h : Scans w P)
    (hv : v.map Letter.char = o.1.toList) (hop : operator? (v ++ w) = some o) :
    Scans (v ++ w) (Behind o.2 v P) := by
  have hmem := (operator?_eq_some hop).1
  obtain ⟨c, cs, hc, hblank, -, -⟩ := exists_head_of_mem_operators hmem
  have hlength : o.1.length = v.length := by
    rw [← String.length_toList, ← hv, List.length_map]
  cases v with
  | nil =>
    rw [← hv] at hc
    cases hc
  | cons a v =>
    rw [← hv, List.map_cons, List.cons.injEq] at hc
    refine h.cons (operators_proper _ hmem).2.1 (List.cons_ne_nil a v) fun column => ?_
    rw [List.cons_append] at hop ⊢
    rw [next_of_operator (hc.1 ▸ hblank) hop, hlength, ← List.cons_append, List.take_left]

/-! ## Words -/

theorem isBlank_of_isSpecial {a : Char} (h : isSpecial a = false) : Text.isBlank a = false := by
  rw [isSpecial, Bool.or_eq_false_iff] at h
  exact h.2

/-- A read at a letter of a word. -/
theorem next_of_letter {column : Nat} {a : α} (h : isSpecial (Letter.char a) = false) :
    next ⟨column, a :: w⟩ = .ok (word ⟨column, a :: w⟩) := by
  have hbrace : Letter.char a ≠ '{' := by
    intro hbrace
    rw [hbrace] at h
    cases h
  rw [next_of_no_operator (isBlank_of_isSpecial h) (operator?_eq_none (.inl h)), if_neg hbrace,
    if_neg (Bool.eq_false_iff.mp h)]

/-- A word at the front. -/
theorem Scans.word {v : List α} (h : Scans w P) (hw : EndsWord w) (hv : v ≠ [])
    (hplain : ∀ a ∈ v, isSpecial (Letter.char a) = false) :
    Scans (v ++ w) (Behind (wordKind (v.map Letter.char)) v P) := by
  refine h.cons (wordKind_ne_eof _) hv fun column => ?_
  have htake : (v ++ w).takeWhile (fun a => !isSpecial (Letter.char a)) = v := by
    rw [List.takeWhile_append_of_pos fun a ha => by simp [hplain a ha]]
    cases w with
    | nil => simp
    | cons a w => simp [hw a rfl]
  cases v with
  | nil => exact absurd rfl hv
  | cons a v =>
    rw [List.cons_append] at htake ⊢
    rw [next_of_letter (hplain a List.mem_cons_self), RawToken.word]
    dsimp only
    rw [htake]

/-- A name in braces at the front. -/
theorem Scans.label {a b : α} {name : List α} (h : Scans w P) (ha : Letter.char a = '{')
    (hb : Letter.char b = '}') (hname : IsLabel name) :
    Scans (a :: (name ++ b :: w)) (Behind .identifier name P) := by
  have hshape : a :: (name ++ b :: w) = (a :: (name ++ [b])) ++ w := by simp
  rw [hshape]
  refine h.cons (by decide) (List.cons_ne_nil _ _) fun column => ?_
  rw [← hshape]
  have hblank : Text.isBlank (Letter.char a) = false := by
    rw [ha]
    rfl
  rw [next_of_no_operator hblank (operator?_eq_none (.inr ha)), if_pos ha,
    label_closed hname.2 hb, if_neg hname.1]
  simp

/-- Plain names are words, but no constants and no numbers. -/
theorem isPlain_iff {name : List α} : isPlain name = true ↔
    name ≠ [] ∧ wordKind (name.map Letter.char) = .identifier ∧
      ∀ a ∈ name, isSpecial (Letter.char a) = false := by
  unfold isPlain wordKind
  by_cases hnil : name = []
  · simp [hnil]
  · by_cases hnumeral : Text.isNumeral (name.map Letter.char) = true
    · simp [hnumeral]
    · by_cases htrue : name.map Letter.char = ['T']
      · simp [htrue, show Text.isNumeral ['T'] = false from rfl]
      · by_cases hfalse : name.map Letter.char = ['F']
        · simp [hfalse, show Text.isNumeral ['F'] = false from rfl]
        · simp [hnil, hnumeral, htrue, hfalse]

/-- A name as it is written down, with these letters for braces if it needs them. -/
def braced (a b : α) (name : List α) : List α :=
  if isPlain name then name else a :: (name ++ [b])

/-- A name at the front, in braces or not. -/
theorem Scans.name {a b : α} {name : List α} (h : Scans w P) (hw : EndsWord w)
    (ha : Letter.char a = '{') (hb : Letter.char b = '}') (hname : IsLabel name) :
    Scans (braced a b name ++ w) (Behind .identifier name P) := by
  unfold braced
  split
  · next hplain =>
    obtain ⟨hne, hkind, hordinary⟩ := isPlain_iff.mp hplain
    have hword := h.word hw hne hordinary
    rwa [hkind] at hword
  · simpa using h.label ha hb hname

end RawToken

/-! ## Texts of characters -/

namespace Token

open RawToken (EndsWord endsWord_cons)

variable {cs : List Char} {P Q : List Token → Prop}

/-- At whatever column it begins, the text is cut into tokens with the property `P` and the end
token. -/
def Scans (cs : List Char) (P : List Token → Prop) : Prop :=
  RawToken.Scans cs fun ts => P (ts.map ofRaw)

/-- A token of class `k` with the text `text`, and tokens with the property `P` behind it. -/
def Behind (k : Kind) (text : String) (P : List Token → Prop) (ts : List Token) : Prop :=
  ∃ t us, ts = t :: us ∧ t.kind = k ∧ t.text = text ∧ P us

theorem behind_ofRaw {k : Kind} {text : List Char} {ts : List (RawToken Char)}
    (h : RawToken.Behind k text (fun ts => P (ts.map ofRaw)) ts) :
    Behind k (String.ofList text) P (ts.map ofRaw) := by
  obtain ⟨t, us, rfl, hkind, htext, hus⟩ := h
  exact ⟨ofRaw t, us.map ofRaw, rfl, hkind, congrArg String.ofList htext, hus⟩

namespace Scans

theorem nil (h : P []) : Scans [] P :=
  RawToken.Scans.nil h

theorem mono (h : Scans cs P) (hPQ : ∀ ts, P ts → Q ts) : Scans cs Q :=
  RawToken.Scans.mono h fun ts => hPQ (ts.map ofRaw)

theorem space (h : Scans cs P) : Scans (' ' :: cs) P :=
  RawToken.Scans.blank h rfl

/-- The tokens of the whole text. -/
theorem exists_scan {s : String} (h : Scans s.toList P) :
    ∃ ts e, scan s = .ok (ts ++ [e]) ∧ e.kind = .eof ∧ P ts := by
  obtain ⟨ts, e, hscan, he, hts⟩ := h 1 s.toList.length (Nat.le_refl _)
  refine ⟨ts.map ofRaw, ofRaw e, ?_, he, hts⟩
  rw [scan, RawToken.scan, hscan, ← List.map_singleton, ← List.map_append]
  rfl

/-- An operator at the front. -/
theorem operator {text : String} {k : Kind} (h : Scans cs P)
    (hop : RawToken.operator? (text.toList ++ cs) = some (text, k)) :
    Scans (text.toList ++ cs) (Behind k text P) := by
  have hoperator := RawToken.Scans.operator (o := (text, k)) h (map_char text.toList) hop
  refine hoperator.mono fun ts hts => ?_
  have hbehind := behind_ofRaw hts
  rwa [String.ofList_toList] at hbehind

/-- A word at the front. -/
theorem word {w : List Char} (h : Scans cs P) (hcs : EndsWord cs) (hw : w ≠ [])
    (hplain : ∀ a ∈ w, isSpecial a = false) :
    Scans (w ++ cs) (Behind (wordKind w) (String.ofList w) P) := by
  have hword := RawToken.Scans.word h hcs hw hplain
  rw [map_char] at hword
  exact hword.mono fun ts => behind_ofRaw

end Scans

theorem isSpecial_of_isDigit {a : Char} (h : a.isDigit = true) : isSpecial a = false := by
  have hlist : "()+*<>=!/\\\x7b\x7d-".toList.all (!Char.isDigit ·) = true := by decide
  rw [isSpecial, Bool.or_eq_false_iff]
  constructor
  · rw [Bool.eq_false_iff, ne_eq, List.contains_iff_mem]
    intro hmem
    simpa [h] using List.all_eq_true.mp hlist a hmem
  · rw [Bool.eq_false_iff]
    intro hblank
    simp only [Text.isBlank, Bool.or_eq_true, decide_eq_true_eq] at hblank
    rcases hblank with ((((rfl | rfl) | rfl) | rfl) | rfl) | rfl <;> cases h

/-- A number at the front. -/
theorem Scans.numeral {n : Nat} (h : Scans cs P) (hcs : EndsWord cs) :
    Scans ((toString (n : Int)).toList ++ cs) (Behind .integer (toString (n : Int)) P) := by
  have hdigits := Smt.toList_toString_ofNat n
  have hnumeral := Smt.isNumeral_toDigits n
  have hkind : wordKind (Nat.toDigits 10 n) = .integer := by
    rw [wordKind, if_pos hnumeral]
  have hplain : ∀ a ∈ Nat.toDigits 10 n, isSpecial a = false :=
    fun a ha => isSpecial_of_isDigit (Smt.isDigit_of_mem_toDigits ha)
  have hword := h.word hcs Nat.toDigits_ne_nil hplain
  rw [hkind, ← hdigits, String.ofList_toList] at hword
  exact hword

theorem toList_placeText (name : String) :
    (placeText name).toList = RawToken.braced '{' '}' name.toList := by
  unfold placeText RawToken.braced isPlain
  split
  · rfl
  · simp

/-- A place at the front, in braces or not. -/
theorem Scans.place {name : String} (h : Scans cs P) (hcs : EndsWord cs) (hname : IsLabel name) :
    Scans ((placeText name).toList ++ cs) (Behind .identifier name P) := by
  have hlabel : RawToken.IsLabel name.toList := by
    rw [← isLabel_iff, String.ofList_toList]
    exact hname
  rw [toList_placeText]
  refine (RawToken.Scans.name h hcs rfl rfl hlabel).mono fun ts hts => ?_
  have hbehind := behind_ofRaw hts
  rwa [String.ofList_toList] at hbehind

end Token

end PetriReach
