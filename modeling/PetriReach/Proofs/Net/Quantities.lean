import PetriReach.Net.Quantity
import PetriReach.Proofs.Token.Stream

/-!
# Quantities that texts denote

A text denotes a number if it is digits, or digits and a suffix. It is then read as that number if
the number is within the limit, and any other text is refused; leading zeros do not count.

* `Quantity.Denotes`: the number that a text denotes, however large.
* `Quantity.parse_of_denotes`, `Quantity.parse_of_not_denotes`: what becomes of a text.
* `Quantity.parse_eq_ok_iff`, `Quantity.parse_eq_error_iff`: which texts are read, and which are
  refused.
-/

namespace PetriReach.Quantity

/-- The suffixes, with the power of ten that each stands for. -/
def suffixes : List (Char × Nat) :=
  [('K', 3), ('M', 6), ('G', 9), ('T', 12), ('P', 15), ('E', 18)]

/-- The text is digits, perhaps with a suffix behind them, and denotes the number. -/
inductive Denotes (s : String) : Nat → Prop where
  | plain (hne : s.toList ≠ []) (hdigits : ∀ a ∈ s.toList, a.isDigit = true) :
      Denotes s (Nat.ofDigitChars 10 s.toList 0)
  | scaled {cs : List Char} {c : Char} {k : Nat} (hs : s.toList = cs ++ [c]) (hne : cs ≠ [])
      (hdigits : ∀ a ∈ cs, a.isDigit = true) (hc : (c, k) ∈ suffixes) :
      Denotes s (Nat.ofDigitChars 10 cs 0 * Nat.pow 10 k)

theorem isNumeral_iff {cs : List Char} :
    Text.isNumeral cs = true ↔ cs ≠ [] ∧ ∀ c ∈ cs, c.isDigit = true := by
  simp [Text.isNumeral]

theorem multiplier?_of_mem {c : Char} {k : Nat} (h : (c, k) ∈ suffixes) :
    multiplier? c = some (Nat.pow 10 k) ∧ c.isDigit = false := by
  simp only [suffixes, List.mem_cons, Prod.mk.injEq, List.not_mem_nil, or_false] at h
  rcases h with ⟨rfl, rfl⟩ | ⟨rfl, rfl⟩ | ⟨rfl, rfl⟩ | ⟨rfl, rfl⟩ | ⟨rfl, rfl⟩ | ⟨rfl, rfl⟩ <;>
    exact ⟨rfl, rfl⟩

theorem exists_of_multiplier? {c : Char} {m : Nat} (h : multiplier? c = some m) :
    ∃ k, (c, k) ∈ suffixes ∧ m = Nat.pow 10 k := by
  unfold multiplier? at h
  split at h <;> cases h
  · exact ⟨3, by decide, rfl⟩
  · exact ⟨6, by decide, rfl⟩
  · exact ⟨9, by decide, rfl⟩
  · exact ⟨12, by decide, rfl⟩
  · exact ⟨15, by decide, rfl⟩
  · exact ⟨18, by decide, rfl⟩

theorem ofDigits_of_isNumeral {cs : List Char} (h : Text.isNumeral cs = true) : ofDigits cs =
    if Nat.ofDigitChars 10 cs 0 ≤ Number.limit then .ok (Nat.ofDigitChars 10 cs 0)
    else .error (.outOfRange (String.ofList cs)) := by
  rw [ofDigits, Number.read_numeral h]
  by_cases hle : Nat.ofDigitChars 10 cs 0 ≤ Number.limit
  · rw [if_pos hle, if_pos hle]
  · rw [if_neg hle, if_neg hle]

theorem ofDigits_le_limit {cs : List Char} (h : Text.isNumeral cs = true) {n : Nat}
    (hn : ofDigits cs = .ok n) : n ≤ Number.limit := by
  rw [ofDigits_of_isNumeral h] at hn
  by_cases hle : Nat.ofDigitChars 10 cs 0 ≤ Number.limit
  · rw [if_pos hle] at hn
    cases hn
    exact hle
  · rw [if_neg hle] at hn
    cases hn

theorem parse_plain {s : String} (h : Text.isNumeral s.toList = true) :
    parse s = ofDigits s.toList := by
  simp only [parse, h, if_true]

/-- Digits with a suffix. If they pass the limit already without it, the error is about them
alone. -/
theorem parse_scaled {s : String} {cs : List Char} {c : Char} {k : Nat} (hs : s.toList = cs ++ [c])
    (h : Text.isNumeral cs = true) (hc : (c, k) ∈ suffixes) : parse s =
      if Nat.ofDigitChars 10 cs 0 * Nat.pow 10 k ≤ Number.limit then
        .ok (Nat.ofDigitChars 10 cs 0 * Nat.pow 10 k)
      else if Nat.ofDigitChars 10 cs 0 ≤ Number.limit then .error (.outOfRange s)
      else .error (.outOfRange (String.ofList cs)) := by
  obtain ⟨hm, hdigit⟩ := multiplier?_of_mem hc
  have hsuffix : Text.isNumeral (cs ++ [c]) = false := by simp [Text.isNumeral, hdigit]
  have hpos : 0 < Nat.pow 10 k := Nat.pow_pos (by decide)
  simp only [parse, hs, hsuffix, List.getLast?_concat, Option.bind_some, hm,
    List.dropLast_concat, h, if_true, ofDigits_of_isNumeral h]
  generalize Nat.ofDigitChars 10 cs 0 = v
  -- the reader divides the limit by the multiplier, which is to multiply within the limit
  by_cases hv : v ≤ Number.limit
  · simp only [if_pos hv, Nat.le_div_iff_mul_le hpos]
    rfl
  · have hscaled : ¬ v * Nat.pow 10 k ≤ Number.limit :=
      fun hle => hv (Nat.le_trans (Nat.le_mul_of_pos_right v hpos) hle)
    simp only [if_neg hv, if_neg hscaled]
    rfl

/-- **A text that denotes a number** is read as that number if it is within the limit, and is out
of range otherwise. -/
theorem parse_of_denotes {s : String} {n : Nat} (h : Denotes s n) :
    (n ≤ Number.limit → parse s = .ok n) ∧
      (Number.limit < n → ∃ text, parse s = .error (.outOfRange text)) := by
  cases h with
  | plain hne hdigits =>
    have hnum := isNumeral_iff.mpr ⟨hne, hdigits⟩
    rw [parse_plain hnum, ofDigits_of_isNumeral hnum]
    exact ⟨fun hle => if_pos hle, fun hlt => ⟨_, if_neg (Nat.not_le.mpr hlt)⟩⟩
  | scaled hs hne hdigits hc =>
    rw [parse_scaled hs (isNumeral_iff.mpr ⟨hne, hdigits⟩) hc]
    refine ⟨fun hle => if_pos hle, fun hlt => ?_⟩
    rw [if_neg (Nat.not_le.mpr hlt)]
    split
    · exact ⟨_, rfl⟩
    · exact ⟨_, rfl⟩

/-- **A text that denotes no number** is malformed. -/
theorem parse_of_not_denotes {s : String} (h : ∀ n, ¬ Denotes s n) :
    parse s = .error (.malformed s) := by
  have hplain : ¬ Text.isNumeral s.toList = true := by
    intro hnum
    obtain ⟨hne, hdigits⟩ := isNumeral_iff.mp hnum
    exact h _ (.plain hne hdigits)
  simp only [parse]
  rw [if_neg hplain]
  split
  · rfl
  · next m hm =>
    obtain ⟨c, hlast, hc⟩ := Option.bind_eq_some_iff.mp hm
    obtain ⟨cs, hs⟩ := List.getLast?_eq_some_iff.mp hlast
    obtain ⟨k, hk, -⟩ := exists_of_multiplier? hc
    rw [hs, List.dropLast_concat]
    refine if_neg fun hnum => ?_
    obtain ⟨hne, hdigits⟩ := isNumeral_iff.mp hnum
    exact h _ (.scaled hs hne hdigits hk)

theorem parse_eq_ok_iff {s : String} {n : Nat} :
    parse s = .ok n ↔ Denotes s n ∧ n ≤ Number.limit := by
  constructor
  · intro h
    by_cases hdenotes : ∃ k, Denotes s k
    · obtain ⟨k, hk⟩ := hdenotes
      obtain ⟨hread, hrange⟩ := parse_of_denotes hk
      rcases Nat.lt_or_ge Number.limit k with hlt | hle
      · obtain ⟨text, herror⟩ := hrange hlt
        cases herror.symm.trans h
      · obtain rfl : k = n := Except.ok.inj ((hread hle).symm.trans h)
        exact ⟨hk, hle⟩
    · cases (parse_of_not_denotes (not_exists.mp hdenotes)).symm.trans h
  · rintro ⟨hn, hle⟩
    exact (parse_of_denotes hn).1 hle

theorem parse_eq_error_iff {s : String} :
    (∃ e, parse s = .error e) ↔ ∀ n, Denotes s n → Number.limit < n := by
  constructor
  · rintro ⟨e, he⟩ n hn
    refine Nat.lt_of_not_le fun hle => ?_
    cases ((parse_of_denotes hn).1 hle).symm.trans he
  · intro h
    cases hparse : parse s with
    | error e => exact ⟨e, rfl⟩
    | ok n =>
      obtain ⟨hn, hle⟩ := parse_eq_ok_iff.mp hparse
      exact absurd hle (Nat.not_le.mpr (h n hn))

theorem parse_eq_malformed_iff {s : String} :
    parse s = .error (.malformed s) ↔ ∀ n, ¬ Denotes s n := by
  refine ⟨fun h n hn => ?_, parse_of_not_denotes⟩
  obtain ⟨text, hrange⟩ := (parse_of_denotes hn).2 (parse_eq_error_iff.mp ⟨_, h⟩ n hn)
  cases h.symm.trans hrange

/-- What was read is within the limit. -/
theorem le_limit {s : String} {n : Nat} (h : parse s = .ok n) : n ≤ Number.limit :=
  (parse_eq_ok_iff.mp h).2

end PetriReach.Quantity
