import Mathlib.Tactic.Common
import PetriReach.Proofs.Token.Edges

/-!
# Characters and their bytes

A text comes to the same tokens whether it is scanned by its characters or by the bytes of its UTF-8
form, and to the same error if it comes to none. For the scanner tells ASCII characters only from
others, and the bytes of another character are none of them.

* `Utf8.takeWhile_encode`: a run of characters is a run of bytes.
* `RawToken.next_encode`: one read.
* `RawToken.scan_encode`, `Token.scan_bytes`: a whole text.
-/

namespace PetriReach

namespace Utf8

/-- The bytes of characters. -/
def encode (cs : List Char) : List UInt8 :=
  cs.flatMap String.utf8EncodeChar

theorem encode_cons (c : Char) (cs : List Char) :
    encode (c :: cs) = String.utf8EncodeChar c ++ encode cs :=
  rfl

theorem encode_append (cs ds : List Char) : encode (cs ++ ds) = encode cs ++ encode ds :=
  List.flatMap_append

/-- The bytes of a text. -/
theorem toList_toByteArray (s : String) : s.toByteArray.data.toList = encode s.toList := by
  conv => lhs; rw [← String.ofList_toList (s := s)]
  exact List.toList_data_toByteArray

theorem toNat_char (b : UInt8) : (Letter.char b).toNat = b.toNat :=
  UInt8.toNat_toUInt32 b

theorem toNat_ofNat {n : Nat} (h : n < 256) : (UInt8.ofNat n).toNat = n := by
  simp [h]

/-- The bytes of a character: one that stands for it, or some that stand for no ASCII character. -/
theorem encodeChar_cases (c : Char) :
    (∃ b, String.utf8EncodeChar c = [b] ∧ Letter.char b = c ∧ c.toNat < 128) ∨
    (∃ b bs, String.utf8EncodeChar c = b :: bs ∧ (∀ d ∈ b :: bs, 128 ≤ (Letter.char d).toNat) ∧
      128 ≤ c.toNat) := by
  have hbyte : ∀ n, 128 ≤ n → n < 256 → 128 ≤ (Letter.char (UInt8.ofNat n)).toNat := by
    intro n hle hlt
    rw [toNat_char, toNat_ofNat hlt]
    exact hle
  have hc : c.val.toNat = c.toNat := rfl
  unfold String.utf8EncodeChar
  simp only [hc]
  split
  · next hascii =>
    refine .inl ⟨_, rfl, Char.toNat_inj.mp ?_, by omega⟩
    rw [toNat_char, toNat_ofNat (by omega)]
  · split
    · refine .inr ⟨_, _, rfl, ?_, by omega⟩
      simp only [List.forall_mem_cons]
      exact ⟨hbyte _ (by omega) (by omega), hbyte _ (by omega) (by omega), by simp⟩
    · split
      · refine .inr ⟨_, _, rfl, ?_, by omega⟩
        simp only [List.forall_mem_cons]
        exact ⟨hbyte _ (by omega) (by omega), hbyte _ (by omega) (by omega),
          hbyte _ (by omega) (by omega), by simp⟩
      · refine .inr ⟨_, _, rfl, ?_, by omega⟩
        simp only [List.forall_mem_cons]
        exact ⟨hbyte _ (by omega) (by omega), hbyte _ (by omega) (by omega),
          hbyte _ (by omega) (by omega), hbyte _ (by omega) (by omega), by simp⟩

theorem widthAll_encode (cs : List Char) : Letter.widthAll (encode cs) = Letter.widthAll cs := by
  induction cs with
  | nil => rfl
  | cons c cs ih =>
    rw [encode_cons, Letter.widthAll_append, ih, Letter.widthAll_bytes,
      String.length_utf8EncodeChar]
    rfl

theorem length_le_length_encode (cs : List Char) : cs.length ≤ (encode cs).length := by
  induction cs with
  | nil => exact Nat.le_refl 0
  | cons c cs ih =>
    have hpos : 0 < (String.utf8EncodeChar c).length := by
      rcases encodeChar_cases c with ⟨b, hb, -⟩ | ⟨b, bs, hb, -⟩ <;> rw [hb] <;> simp
    rw [encode_cons, List.length_append, List.length_cons]
    omega

/-- A class that does not tell apart the characters beyond ASCII. -/
def Coarse (p : Char → Bool) : Prop :=
  ∃ v, ∀ c : Char, 128 ≤ c.toNat → p c = v

/-- A run of bytes of a character beyond ASCII. -/
theorem Coarse.eq_of_mem {p : Char → Bool} (h : Coarse p) {c : Char} (hc : 128 ≤ c.toNat)
    {bs : List UInt8} (hbs : ∀ d ∈ bs, 128 ≤ (Letter.char d).toNat) :
    ∀ d ∈ bs, p (Letter.char d) = p c := by
  obtain ⟨v, hv⟩ := h
  intro d hd
  rw [hv _ (hbs d hd), hv c hc]

/-- **A run of characters is a run of bytes.** -/
theorem takeWhile_encode {p : Char → Bool} (hp : Coarse p) (cs : List Char) :
    (encode cs).takeWhile (fun b => p (Letter.char b)) = encode (cs.takeWhile p) := by
  induction cs with
  | nil => rfl
  | cons c cs ih =>
    rw [encode_cons, List.takeWhile_cons]
    rcases encodeChar_cases c with ⟨b, hb, hchar, -⟩ | ⟨b, bs, hb, hbs, hc⟩
    · rw [hb, List.singleton_append, List.takeWhile_cons, hchar]
      split
      · rw [ih, encode_cons, hb]
        rfl
      · rfl
    · have hsame := hp.eq_of_mem hc hbs
      split
      · next hpc =>
        rw [List.takeWhile_append_of_pos, ih, encode_cons]
        intro d hd
        rw [hb] at hd
        rw [hsame d hd, hpc]
      · next hpc =>
        rw [hb, List.cons_append, List.takeWhile_cons, hsame b List.mem_cons_self, if_neg hpc]
        rfl

theorem ne_of_le {c d : Char} (h : 128 ≤ c.toNat) (hd : d.toNat < 128) : c ≠ d := by
  rintro rfl
  omega

theorem isBlank_of_le {c : Char} (h : 128 ≤ c.toNat) : Text.isBlank c = false := by
  rw [Bool.eq_false_iff]
  intro hblank
  simp only [Text.isBlank, Bool.or_eq_true, decide_eq_true_eq] at hblank
  rcases hblank with ((((rfl | rfl) | rfl) | rfl) | rfl) | rfl <;> exact absurd h (by decide)

theorem isSpecial_of_le {c : Char} (h : 128 ≤ c.toNat) : Token.isSpecial c = false := by
  have hlist : "()+*<>=!/\\\x7b\x7d-".toList.all (·.toNat < 128) = true := rfl
  rw [Token.isSpecial, isBlank_of_le h, Bool.or_false, Bool.eq_false_iff, ne_eq,
    List.contains_iff_mem]
  intro hmem
  have hlt := of_decide_eq_true (List.all_eq_true.mp hlist c hmem)
  omega

theorem coarse_isBlank : Coarse Text.isBlank :=
  ⟨false, fun _ => isBlank_of_le⟩

theorem coarse_word : Coarse fun c => !Token.isSpecial c := by
  refine ⟨true, fun c h => ?_⟩
  dsimp only
  rw [isSpecial_of_le h]
  rfl

theorem coarse_label : Coarse fun c => c ≠ '}' :=
  ⟨true, fun _ h => decide_eq_true (ne_of_le h (by decide))⟩

theorem coarse_isDigit : Coarse Char.isDigit := by
  refine ⟨false, fun c h => ?_⟩
  rw [Bool.eq_false_iff]
  intro hdigit
  have hrange : 48 ≤ c.toNat ∧ c.toNat ≤ 57 := by
    simpa [Char.isDigit, UInt32.le_iff_toNat_le] using hdigit
  omega

theorem all_encode {p : Char → Bool} (hp : Coarse p) (cs : List Char) :
    ((encode cs).map Letter.char).all p = cs.all p := by
  induction cs with
  | nil => rfl
  | cons c cs ih =>
    rw [encode_cons, List.map_append, List.all_append, ih, List.all_cons]
    rcases encodeChar_cases c with ⟨b, hb, hchar, -⟩ | ⟨b, bs, hb, hbs, hc⟩
    · rw [hb, List.map_singleton, hchar, List.all_cons, List.all_nil, Bool.and_true]
    · have hsame := hp.eq_of_mem hc hbs
      congr 1
      rw [hb, Bool.eq_iff_iff, List.all_map, List.all_eq_true]
      constructor
      · intro hall
        rw [← hsame b List.mem_cons_self]
        exact hall b List.mem_cons_self
      · intro hpc d hd
        rw [Function.comp_apply, hsame d hd, hpc]

theorem encode_eq_nil_iff {cs : List Char} : encode cs = [] ↔ cs = [] := by
  constructor
  · intro h
    have hle := length_le_length_encode cs
    rw [h] at hle
    exact List.eq_nil_of_length_eq_zero (Nat.le_zero.mp hle)
  · rintro rfl
    rfl

/-- ASCII characters are read as themselves, byte by byte, and nothing else is. -/
theorem map_char_encode_eq_iff {cs ds : List Char} (hds : ∀ d ∈ ds, d.toNat < 128) :
    (encode cs).map Letter.char = ds ↔ cs = ds := by
  induction cs generalizing ds with
  | nil => exact Iff.rfl
  | cons c cs ih =>
    cases ds with
    | nil => simp [encode_eq_nil_iff]
    | cons d ds =>
      obtain ⟨hd, hds⟩ := List.forall_mem_cons.mp hds
      rw [encode_cons, List.map_append]
      rcases encodeChar_cases c with ⟨b, hb, hchar, -⟩ | ⟨b, bs, hb, hbs, hc⟩
      · rw [hb, List.map_singleton, hchar, List.singleton_append, List.cons.injEq, List.cons.injEq,
          ih hds]
      · rw [hb, List.map_cons, List.cons_append, List.cons.injEq, List.cons.injEq]
        have hle := hbs b List.mem_cons_self
        refine iff_of_false ?_ ?_
        · rintro ⟨rfl, -⟩
          omega
        · rintro ⟨rfl, -⟩
          omega

theorem length_encode {cs : List Char} (h : ∀ c ∈ cs, c.toNat < 128) :
    (encode cs).length = cs.length := by
  have hmap := congrArg List.length ((map_char_encode_eq_iff h).mpr rfl)
  rwa [List.length_map] at hmap

theorem wordKind_encode (cs : List Char) :
    Token.wordKind ((encode cs).map Letter.char) = Token.wordKind cs := by
  have hempty : ((encode cs).map Letter.char).isEmpty = cs.isEmpty := by
    rw [Bool.eq_iff_iff, List.isEmpty_iff, List.isEmpty_iff, List.map_eq_nil_iff, encode_eq_nil_iff]
  have hnumeral : Text.isNumeral ((encode cs).map Letter.char) = Text.isNumeral cs := by
    rw [Text.isNumeral, Text.isNumeral, all_encode coarse_isDigit, hempty]
  have htrue : (encode cs).map Letter.char = ['T'] ↔ cs = ['T'] :=
    map_char_encode_eq_iff (List.forall_mem_singleton.mpr (by decide))
  have hfalse : (encode cs).map Letter.char = ['F'] ↔ cs = ['F'] :=
    map_char_encode_eq_iff (List.forall_mem_singleton.mpr (by decide))
  simp only [Token.wordKind, hnumeral, htrue, hfalse]

end Utf8

/-! ## One read -/

/-- The same position in the bytes of the text. -/
def Cursor.encode (c : Cursor) : Cursor UInt8 :=
  ⟨c.column, Utf8.encode c.rest⟩

namespace RawToken

open Token Utf8

/-- The same token in the bytes of the text. -/
def encode (t : RawToken Char) : RawToken UInt8 :=
  ⟨t.kind, Utf8.encode t.text, t.column⟩

/-- What a read comes to in the bytes. -/
def encodeRead (r : Except SyntaxError (RawToken Char × Cursor)) :
    Except SyntaxError (RawToken UInt8 × Cursor UInt8) :=
  r.map fun x => (x.1.encode, x.2.encode)

variable {k : Nat} {a : Char} {cs : List Char}

theorem encode_advance {c : Cursor} {v rest : List Char} (h : c.rest = v ++ rest) :
    (c.advance v.length).encode = c.encode.advance (Utf8.encode v).length := by
  have hbytes : c.encode.rest = Utf8.encode v ++ Utf8.encode rest := by
    rw [Cursor.encode, h, encode_append]
  rw [advance_append h, advance_append hbytes, widthAll_encode]
  rfl

theorem operators_ascii {o : String × Kind} (h : o ∈ operators) :
    ∀ c ∈ o.1.toList, c.toNat < 128 := by
  have hall : operators.all (fun o => o.1.toList.all (·.toNat < 128)) = true := rfl
  intro c hc
  simpa using List.all_eq_true.mp (List.all_eq_true.mp hall o h) c hc

theorem begins_encode {w : List Char} (hw : ∀ c ∈ w, c.toNat < 128) (cs : List Char) :
    begins w (Utf8.encode cs) = begins w cs := by
  induction w generalizing cs with
  | nil => simp [begins]
  | cons c w ih =>
    obtain ⟨hc, hw⟩ := List.forall_mem_cons.mp hw
    cases cs with
    | nil => rfl
    | cons d cs =>
      rw [encode_cons]
      rcases encodeChar_cases d with ⟨b, hb, hchar, -⟩ | ⟨b, bs, hb, hbs, hd⟩
      · rw [hb, List.singleton_append, begins, begins, hchar, ih hw]
        rfl
      · have hle := hbs b List.mem_cons_self
        have hne : ¬ c = Letter.char b := by
          rintro rfl
          omega
        have hne' : ¬ c = Letter.char d := by
          rintro rfl
          exact absurd hc (Nat.not_lt.mpr hd)
        rw [hb, List.cons_append, begins, begins, decide_eq_false hne, decide_eq_false hne',
          Bool.false_and, Bool.false_and]

theorem operator?_encode (cs : List Char) : operator? (Utf8.encode cs) = operator? cs :=
  List.find?_congr fun _ ho => begins_encode (operators_ascii ho) cs

/-- An operator is found where it stands in the bytes. -/
theorem take_encode_of_operator? {o : String × Kind} (h : operator? cs = some o) :
    (Utf8.encode cs).take o.1.length = Utf8.encode (cs.take o.1.length) ∧
      (Utf8.encode (cs.take o.1.length)).length = o.1.length := by
  have htext : cs.take o.1.length = o.1.toList := by
    have hmap := map_take_of_operator? h
    rwa [map_char] at hmap
  have hlength : (Utf8.encode (cs.take o.1.length)).length = o.1.length := by
    rw [htext, length_encode (operators_ascii (operator?_eq_some h).1), String.length_toList]
  have hsplit := encode_append (cs.take o.1.length) (cs.drop o.1.length)
  rw [List.take_append_drop] at hsplit
  exact ⟨by rw [hsplit, List.take_left' hlength], hlength⟩

theorem forall_char_encode {p : Char → Bool} (hp : Coarse p) (h : ∀ c ∈ cs, p c = true) :
    ∀ b ∈ Utf8.encode cs, p (Letter.char b) = true := by
  have hall := all_encode hp cs
  rw [List.all_eq_true.mpr h, List.all_map, List.all_eq_true] at hall
  exact hall

theorem unbraced_encode (h : ∀ c ∈ cs, Letter.char c ≠ '}') :
    ∀ b ∈ Utf8.encode cs, Letter.char b ≠ '}' := fun b hb =>
  of_decide_eq_true (forall_char_encode coarse_label (fun c hc => decide_eq_true (h c hc)) b hb)

/-- A read of a label. -/
theorem label_encode (k : Nat) (cs : List Char) :
    label ⟨k, Utf8.encode ('{' :: cs)⟩ = encodeRead (label ⟨k, '{' :: cs⟩) := by
  have hopen (ds : List Char) : Utf8.encode ('{' :: ds) = 0x7b :: Utf8.encode ds := rfl
  rcases unbraced_or_split cs with hcs | ⟨body, b, rest, rfl, hbody, hb⟩
  · rw [hopen, label_open hcs, label_open (unbraced_encode hcs)]
    rfl
  · obtain rfl : b = '}' := hb
    have hbytes : Utf8.encode (body ++ '}' :: rest) =
        Utf8.encode body ++ 0x7d :: Utf8.encode rest := encode_append body ('}' :: rest)
    rw [hopen, hbytes, label_closed (b := '}') hbody rfl,
      label_closed (unbraced_encode hbody) rfl]
    by_cases hnil : body = []
    · rw [if_pos hnil, if_pos (encode_eq_nil_iff.mpr hnil)]
      rfl
    · rw [if_neg hnil, if_neg (mt encode_eq_nil_iff.mp hnil)]
      have hsplit : '{' :: (body ++ '}' :: rest) = '{' :: (body ++ ['}']) ++ rest := by simp
      have hadvance := encode_advance (c := ⟨k, '{' :: (body ++ '}' :: rest)⟩) hsplit
      have hlength : (Utf8.encode ('{' :: (body ++ ['}']))).length =
          (Utf8.encode body).length + 2 := by
        rw [hopen, encode_append, List.length_cons, List.length_append]
        rfl
      rw [hlength, List.length_cons, List.length_append, List.length_singleton,
        Cursor.encode, Cursor.encode, hopen, hbytes] at hadvance
      exact congrArg (fun d => Except.ok (_, d)) hadvance.symm

/-- A read of a word. -/
theorem word_encode (k : Nat) (cs : List Char) :
    word ⟨k, Utf8.encode cs⟩ = ((word ⟨k, cs⟩).1.encode, (word ⟨k, cs⟩).2.encode) := by
  have hrun := takeWhile_encode coarse_word cs
  have hadvance := encode_advance (c := ⟨k, cs⟩)
    (List.takeWhile_append_dropWhile (p := fun c => !isSpecial c)).symm
  unfold word
  dsimp only
  rw [hrun, wordKind_encode, map_char]
  exact Prod.ext rfl hadvance.symm

/-- The first byte is the first character, or both are beyond ASCII. -/
theorem encode_head (c : Char) (cs : List Char) : ∃ b bs, Utf8.encode (c :: cs) = b :: bs ∧
    (Letter.char b = c ∨ 128 ≤ (Letter.char b).toNat ∧ 128 ≤ c.toNat) := by
  rw [encode_cons]
  rcases encodeChar_cases c with ⟨b, hb, hchar, -⟩ | ⟨b, bs, hb, hbs, hc⟩
  · exact ⟨b, _, by rw [hb]; rfl, .inl hchar⟩
  · exact ⟨b, _, by rw [hb]; rfl, .inr ⟨hbs b List.mem_cons_self, hc⟩⟩

/-- A read at a character that is no blank. -/
theorem next_encode_of_head {c : Char} (hc : Text.isBlank (Letter.char c) = false) (k : Nat)
    (cs : List Char) :
    next ⟨k, Utf8.encode (c :: cs)⟩ = encodeRead (next ⟨k, c :: cs⟩) := by
  obtain ⟨b, bs, hbytes, hchar | ⟨hb, hc'⟩⟩ := encode_head c cs
  · have hb : Text.isBlank (Letter.char b) = false := by
      rw [hchar]
      exact hc
    have hop := operator?_encode (c :: cs)
    rw [hbytes] at hop ⊢
    cases hfound : operator? (c :: cs) with
    | some o =>
      obtain ⟨htake, hlength⟩ := take_encode_of_operator? hfound
      have hadvance := encode_advance (c := ⟨k, c :: cs⟩) (List.take_append_drop o.1.length _).symm
      rw [hlength, List.length_take_of_le (length_le_of_operator? hfound)] at hadvance
      rw [next_of_operator hc hfound, next_of_operator hb (hop.trans hfound), ← hbytes, htake]
      exact congrArg (fun d => Except.ok (_, d)) hadvance.symm
    | none =>
      rw [next_of_no_operator hc hfound, next_of_no_operator hb (hop.trans hfound), hchar,
        ← hbytes]
      show _ = encodeRead (if c = '{' then _ else if isSpecial c = true then _ else _)
      split
      · next hbrace =>
        rw [hbrace]
        exact label_encode k cs
      · split
        · rfl
        · exact congrArg Except.ok (word_encode k (c :: cs))
  · have hword : next ⟨k, c :: cs⟩ = .ok (word ⟨k, c :: cs⟩) := next_of_letter (isSpecial_of_le hc')
    rw [hword, hbytes, next_of_letter (isSpecial_of_le hb), ← hbytes]
    exact congrArg Except.ok (word_encode k (c :: cs))

/-- **One read** comes to the same in characters and in bytes. -/
theorem next_encode (c : Cursor) : next c.encode = encodeRead (next c) := by
  obtain ⟨k, cs⟩ := c
  rw [Cursor.encode]
  dsimp only
  have hblank {ds : List Char} (h : Blank ds) : Blank (Utf8.encode ds) :=
    forall_char_encode coarse_isBlank h
  rcases blank_or_split cs with hcs | ⟨lead, a, v, rfl, hlead, ha⟩
  · rw [next_of_blank hcs, next_of_blank (hblank hcs), widthAll_encode]
    rfl
  · rw [encode_append, next_blanks hlead, next_blanks (hblank hlead), widthAll_encode]
    exact next_encode_of_head ha _ v

/-! ## Whole texts -/

theorem scanFrom_encode {m n : Nat} {c : Cursor} (hn : c.rest.length ≤ n)
    (hm : (Utf8.encode c.rest).length ≤ m) :
    scanFrom m c.encode = (scanFrom n c).map (List.map encode) := by
  induction n generalizing m c with
  | zero =>
    obtain ⟨k, cs⟩ := c
    obtain rfl : cs = [] := List.eq_nil_of_length_eq_zero (Nat.le_zero.mp hn)
    rw [scanFrom_finish (next_nil k) rfl]
    exact scanFrom_finish (next_nil k) rfl
  | succ n ih =>
    have hread := next_encode c
    cases hnext : next c with
    | error e =>
      rw [hnext] at hread
      rw [scanFrom_error hnext, scanFrom_error hread]
      rfl
    | ok r =>
      obtain ⟨t, c'⟩ := r
      rw [hnext] at hread
      by_cases heof : t.kind = .eof
      · rw [scanFrom_finish hnext heof, scanFrom_finish hread heof]
        rfl
      · have hmoves : c'.rest.length < c.rest.length := (next_moves hnext).resolve_left heof
        have hmoves' : (Utf8.encode c'.rest).length < (Utf8.encode c.rest).length :=
          (next_moves hread).resolve_left heof
        obtain ⟨m, rfl⟩ : ∃ m', m = m' + 1 := ⟨m - 1, by omega⟩
        rw [scanFrom_token hnext heof, scanFrom_token hread heof]
        dsimp only
        rw [ih (by omega) (by omega)]
        cases scanFrom n c' <;> rfl

/-- **A text comes to the same in characters and in bytes.** -/
theorem scan_encode (cs : List Char) :
    scan (Utf8.encode cs) = (scan cs).map (List.map encode) :=
  scanFrom_encode (c := ⟨1, cs⟩) (Nat.le_refl _) (Nat.le_refl _)

end RawToken

namespace Token

/-- **The tokens of a text are those of its bytes.** -/
theorem scan_bytes (s : String) : RawToken.scan s.toByteArray.data.toList =
    (scan s).map (List.map fun t => ⟨t.kind, t.text.toByteArray.data.toList, t.column⟩) := by
  rw [Utf8.toList_toByteArray, RawToken.scan_encode, scan]
  cases RawToken.scan s.toList with
  | error e => rfl
  | ok ts =>
    show Except.ok _ = Except.ok (List.map _ (List.map _ _))
    rw [List.map_map]
    congr 1
    refine List.map_congr_left fun t _ => ?_
    rw [Function.comp_apply, Utf8.toList_toByteArray, ofRaw, String.toList_ofList]
    rfl

end Token

end PetriReach
