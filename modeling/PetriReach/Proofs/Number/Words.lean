import PetriReach.Proofs.Token.Stream

/-!
# Digits in machine words

The reading of digits, worked out in signed words of 64 bits. An operation on words overflows where
its result is not the exact one. The test before each digit divides instead of multiplying, and
lets through just the digits whose number is still a word, so none of the operations overflows.

* `Word.add`, `Word.sub`, `Word.mul`, `Word.div`: the operations, which give nothing if they
  overflow.
* `Word.readFrom_cons`: one digit more.
* `Word.read_eq`: in words, digits are read as in unbounded numbers.
-/

namespace PetriReach.Word

open Number (limit)

/-! ## Operations -/

/-- The result `w` of an operation whose exact result is `x`; nothing if the operation overflows. -/
def exactly (w : Int64) (x : Int) : Option Int64 :=
  if w.toInt = x then some w else none

def add (a b : Int64) : Option Int64 :=
  exactly (a + b) (a.toInt + b.toInt)

def sub (a b : Int64) : Option Int64 :=
  exactly (a - b) (a.toInt - b.toInt)

def mul (a b : Int64) : Option Int64 :=
  exactly (a * b) (a.toInt * b.toInt)

/-- The quotient, rounded towards zero. There is none by zero. -/
def div (a b : Int64) : Option Int64 :=
  if b = 0 then none else exactly (a / b) (a.toInt.tdiv b.toInt)

variable {m n : Nat}

theorem maxValue_eq : Int64.maxValue = Int64.ofNat limit :=
  rfl

theorem toInt_ofNat (h : n ≤ limit) : (Int64.ofNat n).toInt = n :=
  Int64.toInt_ofNat_of_lt (Nat.lt_of_le_of_lt h (by decide))

theorem ofNat_lt_ofNat (hm : m ≤ limit) (hn : n ≤ limit) :
    Int64.ofNat m < Int64.ofNat n ↔ m < n := by
  rw [Int64.lt_iff_toInt_lt, toInt_ofNat hm, toInt_ofNat hn, Int.ofNat_lt]

theorem exactly_ofNat (h : n ≤ limit) : exactly (Int64.ofNat n) n = some (Int64.ofNat n) :=
  if_pos (toInt_ofNat h)

theorem add_ofNat (h : m + n ≤ limit) :
    add (Int64.ofNat m) (Int64.ofNat n) = some (Int64.ofNat (m + n)) := by
  rw [add, ← Int64.ofNat_add, toInt_ofNat (by omega), toInt_ofNat (by omega), ← Int.natCast_add]
  exact exactly_ofNat h

example : add Int64.maxValue 1 = none := by decide

theorem sub_ofNat (hm : m ≤ limit) (h : n ≤ m) :
    sub (Int64.ofNat m) (Int64.ofNat n) = some (Int64.ofNat (m - n)) := by
  rw [sub, ← Int64.ofNat_sub m n h, toInt_ofNat hm, toInt_ofNat (by omega), ← Int.ofNat_sub h]
  exact exactly_ofNat (by omega)

theorem mul_ofNat (hm : m ≤ limit) (hn : n ≤ limit) (h : m * n ≤ limit) :
    mul (Int64.ofNat m) (Int64.ofNat n) = some (Int64.ofNat (m * n)) := by
  rw [mul, ← Int64.ofNat_mul, toInt_ofNat hm, toInt_ofNat hn, ← Int.natCast_mul]
  exact exactly_ofNat h

theorem div_ofNat (hm : m ≤ limit) (hn : n ≤ limit) (h : 0 < n) :
    div (Int64.ofNat m) (Int64.ofNat n) = some (Int64.ofNat (m / n)) := by
  have hne : Int64.ofNat n ≠ 0 := by
    rw [ne_eq, ← Int64.toInt_inj, toInt_ofNat hn]
    exact Int.ofNat_ne_zero.mpr (by omega)
  have hlt : ∀ {k : Nat}, k ≤ limit → k < 2 ^ 63 :=
    fun hk => Nat.lt_of_le_of_lt hk (by decide)
  rw [div, if_neg hne, ← Int64.ofNat_div (hlt hm) (hlt hn), toInt_ofNat hm, toInt_ofNat hn,
    ← Int.ofNat_tdiv]
  exact exactly_ofNat (Nat.le_trans (Nat.div_le_self m n) hm)

/-! ## Digits -/

def ofChar (c : Char) : Int64 :=
  Int64.ofNat c.toNat

/-- Appends digits to `value`. The outer nothing is an overflow, the inner one a number that passes
the limit. -/
def readFrom (value : Int64) : List Char → Option (Option Int64)
  | [] => some (some value)
  | c :: cs => do
    let d ← sub (ofChar c) (ofChar '0')
    let room ← sub Int64.maxValue d
    let most ← div room 10
    if most < value then
      return none
    let tens ← mul value 10
    let next ← add tens d
    readFrom next cs

/-- The value of a digit string. -/
def read (cs : List Char) : Option (Option Int64) :=
  readFrom 0 cs

/-- **One digit more.** The number so far is multiplied only if it has room for the digit. -/
theorem readFrom_cons {c : Char} {d : Nat} (hc : c.toNat = '0'.toNat + d) (hd : d ≤ 9) {v : Nat}
    (hv : v ≤ limit) (cs : List Char) : readFrom (Int64.ofNat v) (c :: cs) =
      if v ≤ (limit - d) / 10 then readFrom (Int64.ofNat (v * 10 + d)) cs else some none := by
  have hten : (10 : Int64) = Int64.ofNat 10 := rfl
  have hlimit : '0'.toNat + 9 ≤ limit := by decide
  have hdigit : sub (ofChar c) (ofChar '0') = some (Int64.ofNat d) := by
    rw [ofChar, ofChar, sub_ofNat (by omega) (by omega), hc, Nat.add_sub_cancel_left]
  have hspare : sub Int64.maxValue (Int64.ofNat d) = some (Int64.ofNat (limit - d)) := by
    rw [maxValue_eq, sub_ofNat (Nat.le_refl limit) (by omega)]
  have hmost : div (Int64.ofNat (limit - d)) 10 = some (Int64.ofNat ((limit - d) / 10)) := by
    rw [hten, div_ofNat (Nat.sub_le limit d) (by decide) (by decide)]
  have hless : Int64.ofNat ((limit - d) / 10) < Int64.ofNat v ↔ (limit - d) / 10 < v :=
    ofNat_lt_ofNat (by omega) hv
  -- each operation is on words that hold known numbers, so it gives the word of their result
  simp only [readFrom, Option.bind_eq_bind, Option.pure_def]
  rw [hdigit, Option.bind_some, hspare, Option.bind_some, hmost, Option.bind_some]
  by_cases hroom : v ≤ (limit - d) / 10
  · have hnext : v * 10 + d ≤ limit := by omega
    rw [if_neg fun h => absurd (hless.mp h) (Nat.not_lt.mpr hroom), if_pos hroom, hten,
      mul_ofNat hv (by decide) (by omega), Option.bind_some, add_ofNat hnext, Option.bind_some]
  · rw [if_pos (hless.mpr (Nat.not_le.mp hroom)), if_neg hroom]

/-- The loop over the digits does not overflow, and comes to what it comes to in numbers. -/
theorem readFrom_eq {cs : List Char} (hcs : ∀ c ∈ cs, c.isDigit = true) {v : Nat}
    (hv : v ≤ limit) :
    readFrom (Int64.ofNat v) cs = some ((Number.readFrom v cs).map Int64.ofNat) := by
  -- the invariant is `v ≤ limit`: the word of `v` then holds `v`
  induction cs generalizing v with
  | nil => rfl
  | cons c cs ih =>
    rw [List.forall_mem_cons] at hcs
    obtain ⟨hdigit, hle⟩ := Number.digit?_eq hcs.1
    have hchar : c.toNat = '0'.toNat + (c.toNat - '0'.toNat) := by
      have hrange := Char.isDigit_iff_toNat.mp hcs.1
      omega
    rw [readFrom_cons hchar hle hv, Number.readFrom, hdigit]
    dsimp only
    generalize c.toNat - '0'.toNat = d at hle
    by_cases hroom : v ≤ (limit - d) / 10
    · have hnext : v * 10 + d ≤ limit := by
        have hnine : 9 ≤ limit := by decide
        omega
      rw [if_pos hroom, if_pos hroom]
      exact ih hcs.2 hnext
    · rw [if_neg hroom, if_neg hroom]
      rfl

/-- **In words, digits are read as in unbounded numbers**, without an overflow. -/
theorem read_eq {cs : List Char} (hcs : ∀ c ∈ cs, c.isDigit = true) :
    read cs = some ((Number.read cs).map Int64.ofNat) :=
  readFrom_eq hcs (Nat.zero_le limit)

end PetriReach.Word
