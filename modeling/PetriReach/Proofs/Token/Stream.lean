import Mathlib.Tactic.Common
import PetriReach.Token.Scan

/-!
# Scanned tokens

What one read of the scanner can do, and what a scanned list of tokens looks like.

* `Number.read_numeral`: digits are read as the number they denote, up to the limit.
* `RawToken.next_cases`: a read finds the end, an operator, a label or a word.
* `Token.stream_of_scan`: a scanned list ends in the end token, which stands nowhere else; its
  integers are digit strings, and its names can be written in braces.
-/

namespace PetriReach

/-! ## Numbers -/

namespace Number

theorem le_ofDigitChars (cs : List Char) (v : Nat) : v ≤ Nat.ofDigitChars 10 cs v := by
  induction cs generalizing v with
  | nil => exact Nat.le_refl v
  | cons c cs ih =>
    rw [Nat.ofDigitChars_cons]
    have := ih (10 * v + (c.toNat - '0'.toNat))
    omega

/-- Digits are weighed by their distance from `'0'`. -/
theorem digit?_eq {c : Char} (h : c.isDigit = true) :
    digit? c = some (c.toNat - '0'.toNat) ∧ c.toNat - '0'.toNat ≤ 9 := by
  have hc : 48 ≤ c.toNat ∧ c.toNat ≤ 57 := by
    simpa [Char.isDigit, UInt32.le_iff_toNat_le] using h
  have hzero : '0' ≤ c := by
    rw [Char.le_def, UInt32.le_iff_toNat_le]
    exact hc.1
  refine ⟨by rw [digit?, if_pos ⟨hzero, by omega⟩], ?_⟩
  show c.toNat - 48 ≤ 9
  omega

theorem readFrom_digits {cs : List Char} (hcs : ∀ c ∈ cs, c.isDigit = true) {v : Nat}
    (hv : v ≤ limit) : readFrom v cs =
      if Nat.ofDigitChars 10 cs v ≤ limit then some (Nat.ofDigitChars 10 cs v) else none := by
  induction cs generalizing v with
  | nil => simp [readFrom, hv]
  | cons c cs ih =>
    rw [List.forall_mem_cons] at hcs
    obtain ⟨hdigit, hle⟩ := digit?_eq hcs.1
    have hiff : v ≤ (limit - (c.toNat - '0'.toNat)) / 10 ↔
        v * 10 + (c.toNat - '0'.toNat) ≤ limit := by
      unfold limit
      omega
    rw [readFrom, hdigit, Nat.ofDigitChars_cons, Nat.mul_comm 10 v]
    show (if v ≤ (limit - (c.toNat - '0'.toNat)) / 10 then _ else none) = _
    by_cases hnext : v * 10 + (c.toNat - '0'.toNat) ≤ limit
    · rw [if_pos (hiff.mpr hnext), ih hcs.2 hnext]
    · have hgrows := le_ofDigitChars cs (v * 10 + (c.toNat - '0'.toNat))
      rw [if_neg fun h => hnext (hiff.mp h), if_neg (by omega)]

/-- **Digits are read as the number they denote**, up to the limit. -/
theorem read_numeral {cs : List Char} (h : Text.isNumeral cs = true) : read cs =
    if Nat.ofDigitChars 10 cs 0 ≤ limit then some (Nat.ofDigitChars 10 cs 0) else none := by
  rw [Text.isNumeral, Bool.and_eq_true, List.all_eq_true] at h
  exact readFrom_digits h.2 (Nat.zero_le _)

example : limit = 2 ^ 63 - 1 := rfl

end Number

/-! ## One read -/

namespace Token

/-- An operator has a text, and its class is none of the words. -/
theorem operators_proper : ∀ o ∈ operators,
    0 < o.1.length ∧ o.2 ≠ .eof ∧ o.2 ≠ .integer ∧ o.2 ≠ .identifier := by
  decide

theorem wordKind_ne_eof (w : List Char) : wordKind w ≠ .eof := by
  unfold wordKind
  split
  · decide
  · split
    · decide
    · split <;> decide

theorem wordKind_eq_integer {w : List Char} (h : wordKind w = .integer) :
    Text.isNumeral w = true := by
  unfold wordKind at h
  split at h
  · assumption
  · split at h
    · cases h
    · split at h <;> cases h

/-- A name that can be written in braces. -/
def IsLabel (name : String) : Prop :=
  name.toList ≠ [] ∧ '}' ∉ name.toList

end Token

namespace RawToken

open Token

variable {α : Type} [Letter α]

theorem begins_iff {cs : List Char} {rest : List α} :
    begins cs rest = true ↔ cs <+: rest.map Letter.char := by
  induction cs generalizing rest with
  | nil => simp [begins]
  | cons c cs ih =>
    cases rest with
    | nil => simp [begins]
    | cons a rest => simp [begins, ih, List.cons_prefix_cons]

/-- What is found stands at the front. -/
theorem operator?_eq_some {rest : List α} {o : String × Kind} (h : operator? rest = some o) :
    o ∈ operators ∧ o.1.toList <+: rest.map Letter.char := by
  have hbegins := List.find?_some h
  exact ⟨List.mem_of_find?_eq_some h, begins_iff.mp hbegins⟩

theorem map_take_of_operator? {rest : List α} {o : String × Kind} (h : operator? rest = some o) :
    (rest.take o.1.length).map Letter.char = o.1.toList := by
  have hbegins := List.prefix_iff_eq_take.mp (operator?_eq_some h).2
  rw [List.map_take, ← String.length_toList, ← hbegins]

/-- Letters that make up a name that can be written in braces. -/
def IsLabel (name : List α) : Prop :=
  name ≠ [] ∧ ∀ a ∈ name, Letter.char a ≠ '}'

/-- A text has no closing brace, or a first one. -/
theorem unbraced_or_split (w : List α) : (∀ a ∈ w, Letter.char a ≠ '}') ∨
    ∃ body b rest, w = body ++ b :: rest ∧ (∀ a ∈ body, Letter.char a ≠ '}') ∧
      Letter.char b = '}' := by
  have hsplit := List.takeWhile_append_dropWhile (p := (Letter.char · ≠ '}')) (l := w)
  have hbody : ∀ a ∈ w.takeWhile (Letter.char · ≠ '}'), Letter.char a ≠ '}' := fun a ha => by
    simpa using List.all_eq_true.mp (List.all_takeWhile (p := (Letter.char · ≠ '}'))) a ha
  cases hdrop : w.dropWhile (Letter.char · ≠ '}') with
  | nil =>
    rw [hdrop, List.append_nil] at hsplit
    rw [hsplit] at hbody
    exact .inl hbody
  | cons b rest =>
    have hstop := List.head?_dropWhile_not (Letter.char · ≠ '}') w
    rw [hdrop] at hsplit hstop
    exact .inr ⟨_, b, rest, hsplit.symm, hbody, by simpa using hstop⟩

/-- A label that is not closed. -/
theorem label_open {k : Nat} {a : α} {w : List α} (hw : ∀ b ∈ w, Letter.char b ≠ '}') :
    label ⟨k, a :: w⟩ = .error ⟨.unterminatedLabel, k⟩ := by
  have htake : (w ++ []).takeWhile (fun b => Letter.char b ≠ '}') = w ++ [] :=
    List.takeWhile_append_of_pos fun b hb => decide_eq_true (hw b hb)
  rw [List.append_nil] at htake
  unfold label
  simp only [List.drop_one, List.tail_cons, htake, List.length_cons, if_true]

/-- A label runs to the first closing brace. -/
theorem label_closed {k : Nat} {a b : α} {body rest : List α}
    (hbody : ∀ d ∈ body, Letter.char d ≠ '}') (hb : Letter.char b = '}') :
    label ⟨k, a :: (body ++ b :: rest)⟩ =
      if body = [] then .error ⟨.emptyLabel, k⟩
      else .ok (⟨.identifier, body, k⟩,
        (⟨k, a :: (body ++ b :: rest)⟩ : Cursor α).advance (body.length + 2)) := by
  have htake : (body ++ b :: rest).takeWhile (fun d => Letter.char d ≠ '}') = body := by
    rw [List.takeWhile_append_of_pos fun d hd => decide_eq_true (hbody d hd)]
    simp [hb]
  have hlength : ¬ body.length + 1 = (a :: (body ++ b :: rest)).length := by
    rw [List.length_cons, List.length_append, List.length_cons]
    omega
  unfold label
  simp only [List.drop_one, List.tail_cons, htake, if_neg hlength, List.isEmpty_iff]

theorem label_ok {c c' : Cursor α} {t : RawToken α} {a : α} {w : List α} (hc : c.rest = a :: w)
    (h : label c = .ok (t, c')) : ∃ body b rest, c.rest = a :: (body ++ b :: rest) ∧
      IsLabel body ∧ Letter.char b = '}' ∧ t = ⟨.identifier, body, c.column⟩ ∧
      c' = c.advance (body.length + 2) := by
  obtain ⟨k, rest⟩ := c
  subst hc
  rcases unbraced_or_split w with hw | ⟨body, b, rest, rfl, hbody, hb⟩
  · rw [label_open hw] at h
    cases h
  · rw [label_closed hbody hb] at h
    split at h
    · cases h
    · next hne =>
      cases h
      exact ⟨body, b, rest, rfl, ⟨hne, hbody⟩, hb, rfl, rfl⟩

/-- **What one read can do** behind the blanks: find the end, an operator, a label or a word. -/
theorem next_cases {c c' : Cursor α} {t : RawToken α} (h : next c = .ok (t, c')) :
    (c.skipBlanks.rest = [] ∧ t = ⟨.eof, [], c.skipBlanks.column⟩ ∧ c' = c.skipBlanks) ∨
    (∃ text kind, operator? c.skipBlanks.rest = some (text, kind) ∧
      t = ⟨kind, c.skipBlanks.rest.take text.length, c.skipBlanks.column⟩ ∧
      c' = c.skipBlanks.advance text.length) ∨
    (∃ a body b rest, c.skipBlanks.rest = a :: (body ++ b :: rest) ∧ Letter.char a = '{' ∧
      IsLabel body ∧ Letter.char b = '}' ∧ t = ⟨.identifier, body, c.skipBlanks.column⟩ ∧
      c' = c.skipBlanks.advance (body.length + 2)) ∨
    (∃ w, w = c.skipBlanks.rest.takeWhile (fun a => !isSpecial (Letter.char a)) ∧ w ≠ [] ∧
      t = ⟨wordKind (w.map Letter.char), w, c.skipBlanks.column⟩ ∧
      c' = c.skipBlanks.advance w.length) := by
  unfold next at h
  generalize c.skipBlanks = d at h ⊢
  dsimp only at h
  split at h
  · next hend =>
    cases h
    exact .inl ⟨hend, rfl, rfl⟩
  · next a w hcons =>
    split at h
    · next text kind hop =>
      cases h
      exact .inr (.inl ⟨text, kind, hop, rfl, rfl⟩)
    · split at h
      · next hbrace =>
        obtain ⟨body, b, rest, hd, hbody, hb, ht, hc⟩ := label_ok hcons h
        exact .inr (.inr (.inl ⟨a, body, b, rest, hd, hbrace, hbody, hb, ht, hc⟩))
      · split at h
        · cases h
        · next hspecial =>
          cases h
          refine .inr (.inr (.inr ⟨_, rfl, ?_, rfl, rfl⟩))
          rw [hcons, List.takeWhile_cons, if_pos (by simpa using hspecial)]
          exact List.cons_ne_nil _ _

/-- A read does not go back, and moves on unless it finds the end. -/
theorem next_moves {c c' : Cursor α} {t : RawToken α} (h : next c = .ok (t, c')) :
    t.kind = .eof ∨ c'.rest.length < c.rest.length := by
  have hblanks : c.skipBlanks.rest.length ≤ c.rest.length := by
    simp [Cursor.skipBlanks, Cursor.advance]
  have hadvance : ∀ {n : Nat}, 0 < n → c.skipBlanks.rest ≠ [] →
      (c.skipBlanks.advance n).rest.length < c.rest.length := by
    intro n hn hne
    have := List.length_pos_iff.mpr hne
    simp only [Cursor.advance, List.length_drop]
    omega
  rcases next_cases h with ⟨-, rfl, rfl⟩ | ⟨text, kind, hop, rfl, rfl⟩ |
    ⟨a, body, b, rest, hd, -, -, -, rfl, rfl⟩ | ⟨w, hw, hne, rfl, rfl⟩
  · exact .inl rfl
  · have hproper := operators_proper _ (operator?_eq_some hop).1
    refine .inr (hadvance hproper.1 fun hnil => ?_)
    rw [hnil] at hop
    cases hop
  · exact .inr (hadvance (by omega) (by rw [hd]; exact List.cons_ne_nil _ _))
  · refine .inr (hadvance (List.length_pos_iff.mpr hne) fun hnil => hne ?_)
    rw [hw, hnil, List.takeWhile_nil]

/-- An integer is a digit string. -/
theorem isNumeral_of_next {c c' : Cursor α} {t : RawToken α} (h : next c = .ok (t, c'))
    (ht : t.kind = .integer) : Text.isNumeral (t.text.map Letter.char) = true := by
  rcases next_cases h with ⟨-, rfl, -⟩ | ⟨text, kind, hop, rfl, -⟩ |
    ⟨a, body, b, rest, -, -, -, -, rfl, -⟩ | ⟨w, -, -, rfl, -⟩
  · cases ht
  · exact absurd ht (operators_proper _ (operator?_eq_some hop).1).2.2.1
  · cases ht
  · exact wordKind_eq_integer ht

/-- A name is not empty and holds no closing brace. -/
theorem isLabel_of_next {c c' : Cursor α} {t : RawToken α} (h : next c = .ok (t, c'))
    (ht : t.kind = .identifier) : IsLabel t.text := by
  rcases next_cases h with ⟨-, rfl, -⟩ | ⟨text, kind, hop, rfl, -⟩ |
    ⟨a, body, b, rest, -, -, hbody, -, rfl, -⟩ | ⟨w, hw, hne, rfl, -⟩
  · cases ht
  · exact absurd ht (operators_proper _ (operator?_eq_some hop).1).2.2.2
  · exact hbody
  · refine ⟨hne, fun b hb hbrace => ?_⟩
    rw [hw] at hb
    have hplain := List.all_eq_true.mp
      (List.all_takeWhile (p := fun a => !isSpecial (Letter.char a))) _ hb
    rw [hbrace] at hplain
    cases hplain

/-! ## Whole texts -/

/-- A list of tokens as the scanner makes them: the end token stands at the end only, integers are
digit strings, and names can be written in braces. -/
def Stream (ts : List (RawToken α)) : Prop :=
  ∃ us e, ts = us ++ [e] ∧ e.kind = .eof ∧ ∀ t ∈ us, t.kind ≠ .eof ∧
    (t.kind = .integer → Text.isNumeral (t.text.map Letter.char) = true) ∧
    (t.kind = .identifier → IsLabel t.text)

theorem stream_of_scanFrom {n : Nat} {c : Cursor α} {ts : List (RawToken α)}
    (hn : c.rest.length ≤ n) (h : scanFrom n c = .ok ts) : Stream ts := by
  induction n generalizing c ts with
  | zero =>
    unfold scanFrom at h
    cases hnext : next c with
    | error e =>
      rw [hnext] at h
      cases h
    | ok r =>
      obtain ⟨t, c'⟩ := r
      rw [hnext] at h
      cases h
      refine ⟨[], t, rfl, ?_, by simp⟩
      rcases next_moves hnext with ht | hlt
      · exact ht
      · omega
  | succ n ih =>
    unfold scanFrom at h
    split at h
    · cases h
    · next t c' hnext =>
      split at h
      · next ht =>
        cases h
        exact ⟨[], t, rfl, ht, by simp⟩
      · next ht =>
        have hlt := (next_moves hnext).resolve_left ht
        cases hrest : scanFrom n c' with
        | error e =>
          rw [hrest] at h
          cases h
        | ok us =>
          rw [hrest] at h
          cases h
          obtain ⟨us, e, rfl, he, hus⟩ := ih (by omega) hrest
          refine ⟨t :: us, e, rfl, he, ?_⟩
          rw [List.forall_mem_cons]
          exact ⟨⟨ht, isNumeral_of_next hnext, isLabel_of_next hnext⟩, hus⟩

theorem stream_of_scan {w : List α} {ts : List (RawToken α)} (h : scan w = .ok ts) : Stream ts :=
  stream_of_scanFrom (c := ⟨1, w⟩) (Nat.le_refl _) h

end RawToken

namespace Token

theorem map_char (cs : List Char) : cs.map Letter.char = cs :=
  List.map_id' cs

theorem isLabel_iff {name : List Char} : IsLabel (String.ofList name) ↔ RawToken.IsLabel name := by
  rw [IsLabel, String.toList_ofList]
  refine and_congr_right' ⟨fun h a ha hbrace => h (hbrace ▸ ha), fun h hmem => h '}' hmem rfl⟩

/-- A list of tokens as the scanner makes them: the end token stands at the end only, integers are
digit strings, and names can be written in braces. -/
def Stream (ts : List Token) : Prop :=
  ∃ us e, ts = us ++ [e] ∧ e.kind = .eof ∧ ∀ t ∈ us, t.kind ≠ .eof ∧
    (t.kind = .integer → Text.isNumeral t.text.toList = true) ∧
    (t.kind = .identifier → IsLabel t.text)

/-- Tokens of a text of characters are scanned as they stand there. -/
theorem scan_eq_ok {s : String} {ts : List Token} (h : scan s = .ok ts) :
    ∃ rs, RawToken.scan s.toList = .ok rs ∧ ts = rs.map ofRaw := by
  unfold scan at h
  cases hscan : RawToken.scan s.toList with
  | error e =>
    rw [hscan] at h
    cases h
  | ok rs =>
    rw [hscan] at h
    cases h
    exact ⟨rs, rfl, rfl⟩

/-- **A scanned list is a stream.** -/
theorem stream_of_scan {s : String} {ts : List Token} (h : scan s = .ok ts) : Stream ts := by
  obtain ⟨rs, hscan, rfl⟩ := scan_eq_ok h
  obtain ⟨us, e, rfl, he, hus⟩ := RawToken.stream_of_scan hscan
  refine ⟨us.map ofRaw, ofRaw e, List.map_append, he, List.forall_mem_map.mpr fun t ht => ?_⟩
  obtain ⟨hne, hinteger, hname⟩ := hus t ht
  refine ⟨hne, fun hkind => ?_, fun hkind => isLabel_iff.mpr (hname hkind)⟩
  have hnumeral := hinteger hkind
  rw [map_char] at hnumeral
  rw [ofRaw, String.toList_ofList]
  exact hnumeral

end Token

end PetriReach
