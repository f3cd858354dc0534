import Mathlib.Tactic.Common
import PetriReach.Proofs.Smt.Legal

/-!
# Lines

A command is written on one line, and only the line of a test ends as the line of a test
does. So whoever reads a script line by line sees its tests and nothing else that looks like one.

* `Script.pieces_render`: the lines of a script are its commands.
* `Command.not_isSuffixOf`: no other command ends as a test does.
-/

namespace PetriReach

/-- The end of a line that asks for an answer. -/
def askEnd : List Char := "(check-sat)".toList

namespace Text

theorem pieces_append_cons {p : Char → Bool} {cs : List Char} (h : ∀ c ∈ cs, p c = false)
    {d : Char} (hd : p d = true) (rest : List Char) :
    pieces p (cs ++ d :: rest) = cs :: pieces p rest := by
  induction cs with
  | nil => rw [List.nil_append, pieces, if_pos hd]
  | cons c cs ih =>
    rw [List.forall_mem_cons] at h
    rw [List.cons_append, pieces, if_neg (by simp [h.1]), ih h.2]

end Text

namespace Smt

namespace SExpr

mutual

/-- No word between bars holds a line feed. -/
def Inline : SExpr → Prop
  | .plain _ => True
  | .quoted w => '\n' ∉ w
  | .list es => InlineAll es

/-- No word of the lists between bars holds a line feed. -/
def InlineAll : List SExpr → Prop
  | [] => True
  | e :: es => e.Inline ∧ InlineAll es

end

mutual

theorem Inline.not_mem_chars : ∀ {e : SExpr}, e.Inline → e.Separable → '\n' ∉ e.chars
  | .plain w, _, hs => fun hmem => absurd (hs.2 '\n' hmem) (by decide)
  | .quoted w, h, _ => by
    have hw : '\n' ∉ w := h
    simp [chars, hw]
  | .list [], _, _ => by simp [chars]
  | .list (e :: es), h, hs => by
    have he := Inline.not_mem_chars h.1 hs.1
    have hes := InlineAll.not_mem_charsBehind h.2 hs.2
    simp [chars, he, hes]

theorem InlineAll.not_mem_charsBehind : ∀ {es : List SExpr}, InlineAll es → SeparableAll es →
    '\n' ∉ charsBehind es
  | [], _, _ => by simp [charsBehind]
  | e :: es, h, hs => by
    have he := Inline.not_mem_chars h.1 hs.1
    have hes := InlineAll.not_mem_charsBehind h.2 hs.2
    simp [charsBehind, he, hes]

end

theorem not_suffix_of_getLast {l e : List Char} {c d : Char} (hcd : c ≠ d) (hl : [c] <:+ l)
    (he : [d] <:+ e) : ¬ l <:+ e := by
  intro hle
  have hsuffix := List.suffix_of_suffix_length_le (hl.trans hle) he (Nat.le_refl 1)
  simp only [List.suffix_cons_iff, List.cons.injEq, and_true, List.suffix_nil,
    List.cons_ne_nil, or_false] at hsuffix
  exact hcd hsuffix

/-- Nothing ends as the word of a test with a parenthesis before it. -/
theorem Separable.not_suffix {e : SExpr} (h : e.Separable) :
    ¬ "(check-sat".toList <:+ e.chars := by
  have hlast : ['t'] <:+ "(check-sat".toList := by decide
  cases e with
  | plain w =>
    intro hsuffix
    have hmem : '(' ∈ w := hsuffix.subset (by decide)
    exact absurd (h.2 '(' hmem) (by decide)
  | quoted w =>
    refine not_suffix_of_getLast (d := '|') (by decide) hlast ⟨'|' :: w, ?_⟩
    simp [chars]
  | list es =>
    cases es with
    | nil => exact not_suffix_of_getLast (d := ')') (by decide) hlast ⟨['('], rfl⟩
    | cons e es =>
      refine not_suffix_of_getLast (d := ')') (by decide) hlast
        ⟨'(' :: (e.chars ++ charsBehind es), ?_⟩
      simp [chars]

end SExpr

/-! ## Commands -/

theorem Symbol.Written.inline {s : Symbol} (h : s.Written) : s.sexpr.Inline := by
  unfold Symbol.sexpr
  split
  · trivial
  · exact h.2

namespace Term

mutual

theorem Within.inline : ∀ {t : Term}, t.Within Symbol.Written → t.sexpr.Inline
  | .sym _, h => Symbol.Written.inline h
  | .num _, _ => trivial
  | .bool _, _ => trivial
  | .app _ ts, h => ⟨trivial, WithinAll.inline (show WithinAll Symbol.Written ts from h)⟩

theorem WithinAll.inline : ∀ {ts : List Term}, WithinAll Symbol.Written ts →
    SExpr.InlineAll (sexprs ts)
  | [], _ => trivial
  | _ :: _, h => ⟨Within.inline h.1, WithinAll.inline h.2⟩

end

end Term

namespace Command

variable {c : Command}

theorem Written.inline (h : c.Written) : c.sexpr.Inline := by
  cases c with
  | declare s τ => exact ⟨trivial, Symbol.Written.inline h, trivial, trivial, trivial⟩
  | assert t => exact ⟨trivial, Term.Within.inline h, trivial⟩
  | push => exact ⟨trivial, trivial⟩
  | pop => exact ⟨trivial, trivial⟩
  | checkSat => exact ⟨trivial, trivial⟩

/-- A command is written on one line. -/
theorem Written.not_mem_chars (h : c.Written) : '\n' ∉ c.sexpr.chars :=
  h.inline.not_mem_chars (h.mono And.left).separable

/-- A blank before the last word of a line keeps the line from ending as a test does. -/
theorem suffix_of_blank (as : List Char) {bs : List Char} (h : askEnd <:+ as ++ ' ' :: bs) :
    askEnd <:+ bs := by
  rcases Nat.le_total (' ' :: bs).length askEnd.length with hle | hle
  · have hsuffix := List.suffix_of_suffix_length_le (List.suffix_append as (' ' :: bs)) h hle
    have hmem : ' ' ∈ askEnd := hsuffix.subset List.mem_cons_self
    exact absurd hmem (by decide)
  · have hsuffix := List.suffix_of_suffix_length_le h (List.suffix_append as (' ' :: bs)) hle
    rcases List.suffix_cons_iff.mp hsuffix with heq | hsuffix
    · have hmem : ' ' ∈ askEnd := heq ▸ List.mem_cons_self
      exact absurd hmem (by decide)
    · exact hsuffix

/-- **No other command ends as a test does.** -/
theorem not_isSuffixOf (h : c.Written) (hc : c ≠ .checkSat) : ¬ askEnd <:+ c.sexpr.chars := by
  cases c with
  | declare s τ =>
    rw [Command.sexpr, VarSort.sexpr, SExpr.chars_declaration]
    intro hsuffix
    have hlast : askEnd <:+ τ.text.toList ++ [')'] := by
      refine suffix_of_blank ('(' :: ("declare-fun".toList ++ ' ' ::
        (s.sexpr.chars ++ ' ' :: '(' :: [')']))) ?_
      simpa using hsuffix
    cases τ <;> exact absurd hlast (by decide)
  | assert t =>
    rw [Command.sexpr, SExpr.chars_pair]
    intro hsuffix
    have hlast : askEnd <:+ t.sexpr.chars ++ [')'] :=
      suffix_of_blank ('(' :: "assert".toList) hsuffix
    have happ : askEnd = "(check-sat".toList ++ [')'] := by decide
    rw [happ] at hlast
    obtain ⟨as, has⟩ := hlast
    have hchars : as ++ "(check-sat".toList = t.sexpr.chars := by
      rw [← List.append_assoc] at has
      exact List.append_cancel_right has
    have hquotable : t.Within Symbol.Quotable := Term.Within.mono And.left h
    exact hquotable.separable.not_suffix ⟨as, hchars⟩
  | push => decide
  | pop => decide
  | checkSat => exact absurd rfl hc

end Command

namespace Script

/-- The lines of a script. -/
def bodies (cs : Script) : List (List Char) :=
  cs.map fun c => c.sexpr.chars

/-- **The lines of a script are its commands.** -/
theorem pieces_render {cs : Script} (h : ∀ c ∈ cs, c.Written) :
    Text.pieces (· = '\n') (Script.render cs).toList = bodies cs ++ [[]] := by
  induction cs with
  | nil => rfl
  | cons c cs ih =>
    rw [List.forall_mem_cons] at h
    have hline : ∀ d ∈ c.sexpr.chars, decide (d = '\n') = false := by
      intro d hd
      refine decide_eq_false ?_
      rintro rfl
      exact h.1.not_mem_chars hd
    rw [toList_render_cons, Text.pieces_append_cons hline (by simp), ih h.2]
    rfl

end Script

end Smt

end PetriReach
