import Mathlib.Data.String.Basic
import PetriReach.Proofs.Token.Layout

/-!
# Plain names

A name is plain if and only if it is scanned as itself: one identifier, of that text, and the end.
So the test that decides where braces are printed agrees with the scanner, though it does not call
it. The name may also be any string of bytes.

* `RawToken.Laid.plain`: a text that is its own first identifier is plain, and begins with it.
* `RawToken.scan_of_isPlain`: a plain name is scanned as itself.
* `RawToken.isPlain_iff_scan_self`, `Token.isPlain_iff_scan`: both.
-/

namespace PetriReach

namespace RawToken

open Token

variable {α : Type} [Letter α]

/-- A token whose text is all of the text it stands in is a word, since braces would not fit in,
and has no room before it. -/
theorem Laid.plain {column : Nat} {w : List α} {t : RawToken α} {ts : List (RawToken α)}
    (h : Laid column w (t :: ts)) (hkind : t.kind = .identifier) (htext : t.text = w) :
    isPlain w = true ∧ t.column = column := by
  cases h with
  | finish => cases hkind
  | @token _ gap span rest _ _ hgap hspan ht hrest =>
    -- the text is as long as itself with what stands before and behind it
    have hlength := congrArg List.length htext
    rw [List.length_append, List.length_append] at hlength
    cases hspan with
    | operator ho => exact absurd hkind (operators_proper _ ho).2.2.2
    | word hne hplain =>
      dsimp only at hkind htext ht hlength
      obtain rfl : gap = [] := List.eq_nil_of_length_eq_zero (by omega)
      constructor
      · rw [← htext, isPlain_iff]
        exact ⟨hne, hkind, hplain⟩
      · rw [ht]
        rfl
    | label ha hb hname =>
      dsimp only at hlength
      rw [List.length_cons, List.length_append, List.length_singleton] at hlength
      omega

/-- **A plain name is scanned as itself.** -/
theorem scan_of_isPlain {w : List α} (h : isPlain w = true) :
    ∃ e, scan w = .ok [⟨.identifier, w, 1⟩, e] ∧ e.kind = .eof := by
  obtain ⟨hne, hkind, hplain⟩ := isPlain_iff.mp h
  have hscans := (Scans.nil (P := (· = [])) rfl).word endsWord_nil hne hplain
  rw [List.append_nil, hkind] at hscans
  obtain ⟨ts, e, hscan, he, t, us, rfl, htkind, httext, rfl⟩ := hscans 1 w.length (Nat.le_refl _)
  have hcolumn := ((laid_of_scan hscan).plain htkind httext).2
  refine ⟨e, ?_, he⟩
  obtain ⟨kind, text, column⟩ := t
  cases htkind
  cases httext
  cases hcolumn
  exact hscan

/-- **Plain names are those that are scanned as themselves**, whatever they are made of. -/
theorem isPlain_iff_scan_self (w : List α) : isPlain w = true ↔
    ∃ e, scan w = .ok [⟨.identifier, w, 1⟩, e] ∧ e.kind = .eof := by
  refine ⟨scan_of_isPlain, ?_⟩
  rintro ⟨e, hscan, -⟩
  exact ((laid_of_scan hscan).plain rfl rfl).1

end RawToken

namespace Token

theorem ofRaw_eq_iff {t : RawToken Char} {k : Kind} {text : String} {column : Nat} :
    ofRaw t = ⟨k, text, column⟩ ↔ t = ⟨k, text.toList, column⟩ := by
  obtain ⟨k', text', column'⟩ := t
  rw [ofRaw, Token.mk.injEq, RawToken.mk.injEq, String.ofList_eq]

/-- **Plain names are those that are scanned as themselves**: as one identifier of that text, at the
first column, and the end. -/
theorem isPlain_iff_scan (s : String) : isPlain s = true ↔
    ∃ e, scan s = .ok [⟨.identifier, s, 1⟩, e] ∧ e.kind = .eof := by
  rw [isPlain, RawToken.isPlain_iff_scan_self]
  constructor
  · rintro ⟨e, hscan, he⟩
    refine ⟨ofRaw e, ?_, he⟩
    rw [scan, hscan, ← ofRaw_eq_iff.mpr rfl]
    rfl
  · rintro ⟨e, hscan, he⟩
    obtain ⟨rs, hraw, hrs⟩ := scan_eq_ok hscan
    obtain ⟨t, us, rfl, ht, hus⟩ := List.map_eq_cons_iff.mp hrs.symm
    obtain ⟨e', vs, rfl, rfl, hvs⟩ := List.map_eq_cons_iff.mp hus
    rw [ofRaw_eq_iff.mp ht, List.map_eq_nil_iff.mp hvs] at hraw
    exact ⟨e', hraw, he⟩

end Token

end PetriReach
