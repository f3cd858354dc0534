import Mathlib.Tactic.Common
import PetriReach.Proofs.Smt.Legal

/-!
# Naming

The symbols that are made from names of a net. A name can be written if it holds neither a bar nor a
backslash, at every step or at none. A symbol with a step is never a word of the language, and name
and step can be told from it.

* `Symbol.make_eq`: which names can be written.
* `Symbol.indexed_inj`: name and step are told from the symbol.
* `Symbol.readable_indexed`: symbols with a step are readable.
-/

namespace PetriReach.Smt

theorem isQuotable_of_isSimple {name : String} (h : isSimple name = true) :
    isQuotable name = true := by
  obtain ⟨-, -, hall⟩ := isSimple_iff.mp h
  rw [isQuotable_iff]
  intro c hc
  have hsimple := hall c hc
  constructor
  · rintro rfl
    exact absurd hsimple (by decide)
  · rintro rfl
    exact absurd hsimple (by decide)

theorem isQuotable_append (a b : String) :
    isQuotable (a ++ b) = (isQuotable a && isQuotable b) := by
  simp [isQuotable]

theorem mem_toString {k : Int} {c : Char} (h : c ∈ (toString k).toList) :
    c = '-' ∨ c.isDigit = true := by
  rw [toList_toString] at h
  split at h
  · exact .inr (isDigit_of_mem_toDigits h)
  · rcases List.mem_cons.mp h with rfl | h
    · exact .inl rfl
    · exact .inr (isDigit_of_mem_toDigits h)

theorem toDigits_inj {m n : Nat} (h : Nat.toDigits 10 m = Nat.toDigits 10 n) : m = n := by
  have hval := congrArg (fun ds => Nat.ofDigitChars 10 ds 0) h
  simpa [Nat.ofDigitChars_ten_toDigits] using hval

theorem toString_inj {i j : Int} (h : (toString i).toList = (toString j).toList) : i = j := by
  have hminus : ∀ {m n : Nat}, Nat.toDigits 10 m ≠ '-' :: Nat.toDigits 10 n := by
    intro m n hmn
    have hmem : '-' ∈ Nat.toDigits 10 m := by rw [hmn]; exact List.mem_cons_self
    exact absurd (isDigit_of_mem_toDigits hmem) (by decide)
  rw [toList_toString, toList_toString] at h
  split at h <;> split at h
  · have := toDigits_inj h
    omega
  · exact absurd h hminus
  · exact absurd h.symm hminus
  · have := toDigits_inj (List.cons.inj h).2
    omega

theorem isQuotable_toString (k : Int) : isQuotable (toString k) = true := by
  rw [isQuotable_iff]
  intro c hc
  rcases mem_toString hc with rfl | hd
  · decide
  · constructor <;> (rintro rfl; exact absurd hd (by decide))

namespace Symbol

theorem isQuotable_indexed (id : String) (k : Option Int) :
    isQuotable (indexed id k) = isQuotable id := by
  cases k with
  | none => rfl
  | some k =>
    have hat : isQuotable "@" = true := by decide
    rw [indexed, isQuotable_append, isQuotable_append, isQuotable_toString, hat, Bool.and_true,
      Bool.and_true]

/-- A name can be written at every step or at none. -/
theorem make_eq (id : String) (k : Option Int) :
    make id k = if isQuotable id then .ok ⟨indexed id k⟩ else .error ⟨id⟩ := by
  have hor : (isSimple (indexed id k) || isQuotable (indexed id k)) = isQuotable id := by
    rw [isQuotable_indexed]
    cases hs : isSimple (indexed id k) with
    | false => rfl
    | true =>
      have hq := isQuotable_of_isSimple hs
      rw [isQuotable_indexed] at hq
      rw [hq]
      rfl
  simp only [make, hor]

theorem firingCount_eq (id : String) :
    firingCount id = if isQuotable id then .ok ⟨id ++ "@fc"⟩ else .error ⟨id ++ "@fc"⟩ := by
  have hfc : isQuotable "@fc" = true := by decide
  rw [firingCount, make_eq, isQuotable_append, hfc, Bool.and_true]
  rfl

theorem at_not_mem_toString (k : Int) : '@' ∉ (toString k).toList := by
  intro h
  rcases mem_toString h with h | h <;> exact absurd h (by decide)

/-- Lists that agree up to a mark, and hold none behind it, agree on both sides of it. -/
theorem append_cons_inj {α : Type} {m : α} {as bs cs ds : List α} (hcs : m ∉ cs) (hds : m ∉ ds)
    (h : as ++ m :: cs = bs ++ m :: ds) : as = bs ∧ cs = ds := by
  induction as generalizing bs with
  | nil =>
    cases bs with
    | nil => exact ⟨rfl, (List.cons.inj h).2⟩
    | cons b bs =>
      have hm : m ∈ cs := by
        rw [(List.cons.inj h).2]
        exact List.mem_append_right _ List.mem_cons_self
      exact absurd hm hcs
  | cons a as ih =>
    cases bs with
    | nil =>
      have hm : m ∈ ds := by
        rw [← (List.cons.inj h).2]
        exact List.mem_append_right _ List.mem_cons_self
      exact absurd hm hds
    | cons b bs =>
      obtain ⟨hab, htail⟩ := List.cons.inj h
      obtain ⟨hbs, hcd⟩ := ih htail
      exact ⟨by rw [hab, hbs], hcd⟩

/-- **Name and step are told from the symbol.** -/
theorem indexed_inj {a b : String} {i j : Int} (h : indexed a (some i) = indexed b (some j)) :
    a = b ∧ i = j := by
  have hlist : a.toList ++ '@' :: (toString i).toList = b.toList ++ '@' :: (toString j).toList := by
    have := congrArg String.toList h
    simpa [indexed] using this
  obtain ⟨hab, hij⟩ := append_cons_inj (at_not_mem_toString i) (at_not_mem_toString j) hlist
  exact ⟨String.toList_inj.mp hab, toString_inj hij⟩

theorem at_mem_indexed (id : String) (k : Int) : '@' ∈ (indexed id (some k)).toList := by
  simp [indexed]

/-- No word of the language holds an `@`. -/
theorem declarable_of_at {name : String} (h : '@' ∈ name.toList) : Declarable name := by
  have hpre : ∀ w ∈ predefined, '@' ∉ w.toList := by decide
  have hres : ∀ w ∈ reservedWords, '@' ∉ w.toList := by decide
  exact ⟨fun hn => hpre name hn h, fun hn => hres name hn h⟩

theorem readBack_of_declarable {name : String} (hq : isQuotable name = true)
    (hd : Declarable name) : (⟨name⟩ : Symbol).ReadBack := by
  refine ⟨hq, fun _ => ⟨hd.2, ?_, ?_⟩⟩
  · rintro rfl
    exact hd.1 (by decide)
  · rintro rfl
    exact hd.1 (by decide)

theorem readable_of_declarable {name : String} (hq : isQuotable name = true)
    (hline : '\n' ∉ name.toList) (hd : Declarable name) : (⟨name⟩ : Symbol).Readable :=
  ⟨⟨hq, hline⟩, (readBack_of_declarable hq hd).2⟩

theorem readable_indexed {id : String} (hq : isQuotable id = true) (hline : '\n' ∉ id.toList)
    (k : Int) : (⟨indexed id (some k)⟩ : Symbol).Readable := by
  refine readable_of_declarable (by rw [isQuotable_indexed, hq]) ?_
    (declarable_of_at (at_mem_indexed id k))
  have hdigits : '\n' ∉ (toString k).toList := by
    intro h
    rcases mem_toString h with h | h <;> exact absurd h (by decide)
  simpa [indexed] using ⟨hline, hdigits⟩

theorem declarable_firingCount (id : String) : Declarable (id ++ "@fc") :=
  declarable_of_at (by simp)

theorem readable_firingCount {id : String} (hq : isQuotable id = true)
    (hline : '\n' ∉ id.toList) : (⟨id ++ "@fc"⟩ : Symbol).Readable := by
  refine readable_of_declarable ?_ ?_ (declarable_firingCount id)
  · rw [isQuotable_append, hq]
    decide
  · simpa using hline

end Symbol

end PetriReach.Smt
