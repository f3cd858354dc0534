import PetriReach.Proofs.Formula.Grammar
import PetriReach.Proofs.Net.Quantities
import PetriReach.Proofs.Number.Words

/-!
# Numbers in texts

The numbers of nets and of formulas are read exactly. A quantity of a net is read as the number it
denotes if that is within the limit, and refused otherwise, and so is an integer of a formula.
Worked out in signed words of 64 bits, both readers come to the same, without an overflow.

* `Formula.integerValue`: the reading of integers, as it stands in the reading of sums.
* `Word.parse_eq`, `Word.integerValue_eq`: the readers in words.
* `Number.literals_exact`: all of it.
-/

namespace PetriReach

/-! ## Integers of formulas -/

namespace Formula

/-- The value of an integer, with the error at its token. -/
def integerValue (t : Token) : Except SyntaxError Nat :=
  match Number.read t.text.toList with
  | some n => .ok n
  | none => .error ⟨.integerRange t.text, t.column⟩

/-- Reads on behind the integer `t` of the value `n`, which is a factor or a constant. -/
def integerDone (depth : Nat) (s : TokenSum) (t : Token) (ts : List Token) (n : Nat) :
    Except SyntaxError (TokenSum × List Token) :=
  if leads .star ts then starDue depth s n ts
  else do
    let s ← addLiteral s n t
    termDone depth s ts

theorem termDue_integer {t : Token} (ht : t.kind = .integer) (depth : Nat) (s : TokenSum)
    (ts : List Token) :
    termDue depth s (t :: ts) = (integerValue t).bind (integerDone depth s t ts) := by
  rw [termDue, ht, integerValue]
  cases Number.read t.text.toList with
  | none => rfl
  | some n =>
    simp only [Except.bind, integerDone]
    split
    · rfl
    · cases addLiteral s n t <;> rfl

/-- An integer is read as the number of its digits if that is within the limit. -/
theorem integerValue_eq {t : Token} (h : ∀ a ∈ t.text.toList, a.isDigit = true) : integerValue t =
    if t.value ≤ Number.limit then .ok t.value
    else .error ⟨.integerRange t.text, t.column⟩ := by
  have hread : Number.read t.text.toList = if t.value ≤ Number.limit then some t.value else none :=
    Number.readFrom_digits h (Nat.zero_le _)
  rw [integerValue, hread]
  by_cases hle : t.value ≤ Number.limit
  · rw [if_pos hle, if_pos hle]
  · rw [if_neg hle, if_neg hle]

theorem integerValue_eq_ok_iff {t : Token} (h : ∀ a ∈ t.text.toList, a.isDigit = true) {n : Nat} :
    integerValue t = .ok n ↔ t.value = n ∧ n ≤ Number.limit := by
  rw [integerValue_eq h]
  by_cases hle : t.value ≤ Number.limit
  · rw [if_pos hle, Except.ok.injEq]
    exact ⟨fun hn => ⟨hn, hn ▸ hle⟩, And.left⟩
  · rw [if_neg hle]
    constructor
    · rintro ⟨⟩
    · rintro ⟨rfl, hn⟩
      exact absurd hn hle

theorem integerValue_eq_error_iff {t : Token} (h : ∀ a ∈ t.text.toList, a.isDigit = true) :
    integerValue t = .error ⟨.integerRange t.text, t.column⟩ ↔
      Number.limit < t.value := by
  rw [integerValue_eq h]
  by_cases hle : t.value ≤ Number.limit
  · rw [if_pos hle]
    constructor
    · rintro ⟨⟩
    · exact fun hlt => absurd hle (Nat.not_le.mpr hlt)
  · rw [if_neg hle]
    exact ⟨fun _ => Nat.not_le.mp hle, fun _ => rfl⟩

end Formula

/-! ## In words -/

namespace Word

open Number (limit)

/-- The value of digits. -/
def ofDigits (cs : List Char) : Option (Except Quantity.Error Int64) := do
  match ← read cs with
  | some n => return .ok n
  | none => return .error (.outOfRange (String.ofList cs))

/-- `n` multiplied by `m`, for the suffix of the text `s`. -/
def scale (s : String) (n m : Int64) : Option (Except Quantity.Error Int64) := do
  let most ← div Int64.maxValue m
  if most < n then
    return .error (.outOfRange s)
  let product ← mul n m
  return .ok product

/-- A quantity. Nothing is an overflow. -/
def parse (s : String) : Option (Except Quantity.Error Int64) :=
  let cs := s.toList
  if Text.isNumeral cs then ofDigits cs
  else
    match cs.getLast?.bind Quantity.multiplier? with
    | none => some (.error (.malformed s))
    | some m =>
      if Text.isNumeral cs.dropLast then do
        match ← ofDigits cs.dropLast with
        | .error e => return .error e
        | .ok n => scale s n (Int64.ofNat m)
      else some (.error (.malformed s))

/-- An integer of a formula. Nothing is an overflow. -/
def integerValue (t : Token) : Option (Except SyntaxError Int64) := do
  match ← read t.text.toList with
  | some n => return .ok n
  | none => return .error ⟨.integerRange t.text, t.column⟩

theorem ofDigits_eq {cs : List Char} (h : Text.isNumeral cs = true) :
    ofDigits cs = some ((Quantity.ofDigits cs).map Int64.ofNat) := by
  rw [ofDigits, read_eq (Quantity.isNumeral_iff.mp h).2, Quantity.ofDigits]
  cases Number.read cs <;> rfl

theorem multiplier?_le {c : Char} {m : Nat} (h : Quantity.multiplier? c = some m) :
    0 < m ∧ m ≤ limit := by
  obtain ⟨k, hk, rfl⟩ := Quantity.exists_of_multiplier? h
  have hall : ∀ p ∈ Quantity.suffixes, 0 < Nat.pow 10 p.2 ∧ Nat.pow 10 p.2 ≤ limit := by decide
  exact hall _ hk

theorem scale_eq {m n : Nat} (hm : 0 < m ∧ m ≤ limit) (hn : n ≤ limit) (s : String) :
    scale s (Int64.ofNat n) (Int64.ofNat m) =
      some (if n ≤ limit / m then .ok (Int64.ofNat (n * m)) else .error (.outOfRange s)) := by
  have hmost : limit / m ≤ limit := Nat.div_le_self limit m
  simp only [scale, Option.bind_eq_bind, Option.pure_def]
  rw [maxValue_eq, div_ofNat (Nat.le_refl limit) hm.2 hm.1, Option.bind_some]
  by_cases hle : n ≤ limit / m
  · have hproduct : n * m ≤ limit := (Nat.le_div_iff_mul_le hm.1).mp hle
    rw [if_neg, if_pos hle, mul_ofNat hn hm.2 hproduct, Option.bind_some]
    rw [ofNat_lt_ofNat hmost hn]
    exact Nat.not_lt.mpr hle
  · rw [if_pos, if_neg hle]
    rw [ofNat_lt_ofNat hmost hn]
    exact Nat.not_le.mp hle

/-- **Quantities are read in words** as in unbounded numbers, without an overflow. -/
theorem parse_eq (s : String) : parse s = some ((Quantity.parse s).map Int64.ofNat) := by
  simp only [parse, Quantity.parse]
  by_cases hplain : Text.isNumeral s.toList = true
  · rw [if_pos hplain, if_pos hplain, ofDigits_eq hplain]
  rw [if_neg hplain, if_neg hplain]
  cases hlast : s.toList.getLast?.bind Quantity.multiplier? with
  | none => rfl
  | some m =>
    obtain ⟨c, -, hc⟩ := Option.bind_eq_some_iff.mp hlast
    by_cases hdigits : Text.isNumeral s.toList.dropLast = true
    · simp only [if_pos hdigits, ofDigits_eq hdigits]
      cases hn : Quantity.ofDigits s.toList.dropLast with
      | error e => rfl
      | ok n =>
        refine (scale_eq (multiplier?_le hc) (Quantity.ofDigits_le_limit hdigits hn) s).trans ?_
        by_cases hle : n ≤ limit / m
        · simp only [if_pos hle, Except.map]
        · simp only [if_neg hle, Except.map]
    · simp only [if_neg hdigits, Except.map]

theorem integerValue_eq {t : Token} (h : ∀ a ∈ t.text.toList, a.isDigit = true) :
    integerValue t = some ((Formula.integerValue t).map Int64.ofNat) := by
  rw [integerValue, read_eq h, Formula.integerValue]
  cases Number.read t.text.toList <;> rfl

/-- The number that a word holds, for an outcome without overflow. -/
theorem map_toInt {ε : Type} {r : Except ε Nat} (h : ∀ n, r = .ok n → n ≤ limit) :
    (r.map Int64.ofNat).map Int64.toInt = r.map Int.ofNat := by
  cases r with
  | error e => rfl
  | ok n => exact congrArg Except.ok (toInt_ofNat (h n rfl))

end Word

/-! ## Both readers -/

/-- The quantity `s` is read exactly. -/
structure Quantity.Exact (s : String) : Prop where
  value : ∀ n, parse s = .ok n ↔ Denotes s n ∧ n ≤ Number.limit
  refused : (∃ e, parse s = .error e) ↔ ∀ n, Denotes s n → Number.limit < n
  malformed : parse s = .error (.malformed s) ↔ ∀ n, ¬ Denotes s n
  words : (Word.parse s).map (·.map Int64.toInt) = some ((parse s).map Int.ofNat)

/-- The integer `t` of a formula is read exactly, and the reader of sums goes by that. -/
structure Formula.IntegerExact (t : Token) : Prop where
  value : ∀ n, integerValue t = .ok n ↔
    t.value = n ∧ n ≤ Number.limit
  refused : integerValue t = .error ⟨.integerRange t.text, t.column⟩ ↔
    Number.limit < t.value
  words : (Word.integerValue t).map (·.map Int64.toInt) = some ((integerValue t).map Int.ofNat)
  heeded : t.kind = .integer → ∀ depth s ts,
    termDue depth s (t :: ts) = (integerValue t).bind (integerDone depth s t ts)

theorem Quantity.exact (s : String) : Exact s := by
  refine ⟨fun n => parse_eq_ok_iff, parse_eq_error_iff, parse_eq_malformed_iff, ?_⟩
  rw [Word.parse_eq, Option.map_some, Word.map_toInt fun n hn => le_limit hn]

theorem Formula.integerExact {t : Token} (h : ∀ a ∈ t.text.toList, a.isDigit = true) :
    IntegerExact t := by
  refine ⟨fun n => integerValue_eq_ok_iff h, integerValue_eq_error_iff h, ?_, termDue_integer⟩
  rw [Word.integerValue_eq h, Option.map_some,
    Word.map_toInt fun n hn => ((integerValue_eq_ok_iff h).mp hn).2]

/-- **Numbers are read exactly.** A quantity of a net is read as the number it denotes if that is
within the limit, and every other text is refused. So it is with an integer of a formula, for every
digit string. No operation on words of 64 bits that the readers are made of overflows. -/
theorem Number.literals_exact : (∀ s, Quantity.Exact s) ∧
    ∀ t : Token, (∀ a ∈ t.text.toList, a.isDigit = true) → Formula.IntegerExact t :=
  ⟨Quantity.exact, fun _ => Formula.integerExact⟩

/-- The greatest quantity with the suffix `K`, the next one, which is out of range, and an integer
one above the limit, with leading zeros. -/
theorem Number.literals_exact_at_limit :
    Quantity.Denotes "9223372036854775K" 9223372036854775000 ∧
    (∀ n, Quantity.Denotes "9223372036854776K" n → limit < n) ∧
    limit < (⟨.integer, "009223372036854775808", 1⟩ : Token).value ∧
    (Word.integerValue ⟨.integer, "009223372036854775808", 1⟩).map (·.map Int64.toInt) =
      some (.error ⟨.integerRange "009223372036854775808", 1⟩) := by
  have hread : Quantity.parse "9223372036854775K" = .ok 9223372036854775000 := by decide +kernel
  have hscaled : Quantity.parse "9223372036854776K" =
      .error (.outOfRange "9223372036854776K") := by decide +kernel
  have hdigits : ∀ a ∈ "009223372036854775808".toList, a.isDigit = true :=
    List.all_eq_true.mp (by decide +kernel)
  have hinteger : Formula.integerValue ⟨.integer, "009223372036854775808", 1⟩ =
      .error ⟨.integerRange "009223372036854775808", 1⟩ := by decide +kernel
  have hexact := literals_exact.2 ⟨.integer, "009223372036854775808", 1⟩ hdigits
  refine ⟨(((literals_exact.1 _).value _).mp hread).1,
    (literals_exact.1 _).refused.mp ⟨_, hscaled⟩, hexact.refused.mp hinteger, ?_⟩
  rw [hexact.words, hinteger]
  rfl

end PetriReach
