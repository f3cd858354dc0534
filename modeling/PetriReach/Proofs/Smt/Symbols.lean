import PetriReach.Proofs.Smt.Naming

/-!
# Symbols told apart

The name of a place and the step it is taken at are glued together, and bars are put around what is
no simple name. Both can be undone: what is written between the bars is the name with its step, and
of that the part behind the last `@` is the step. So two symbols that are written alike are one.
Names may hold any characters, `@`, digits and minus signs included. Only ASCII characters are told
from others, so the names may also be strings of arbitrary bytes, each read as the character of its
number.

* `Symbol.written`: the text of a symbol, if there is one.
* `Symbol.unbarred_render`: without the bars, a symbol is its name.
* `Symbol.render_inj`: a symbol is told by its text.
* `Symbol.written_told_apart`: name and step are told by the text.
-/

namespace PetriReach.Smt.Symbol

/-- The text of the symbol of `id`, at a step or without one. -/
def written (id : String) (k : Option Int) : Except Unwritable String :=
  (make id k).map render

/-- The text without the bars around it, if there are any. -/
def unbarred (text : String) : String :=
  let cs := text.toList
  if 2 ≤ cs.length ∧ cs.head? = some '|' ∧ cs.getLast? = some '|' then
    String.ofList cs.tail.dropLast
  else text

theorem bar_not_mem_of_isSimple {name : String} (h : isSimple name = true) :
    '|' ∉ name.toList := by
  intro hbar
  exact (isQuotable_iff.mp (isQuotable_of_isSimple h) '|' hbar).1 rfl

/-- **Without the bars, a symbol is its name**, whether or not it needed them. -/
theorem unbarred_render (x : Symbol) : unbarred x.render = x.name := by
  unfold render
  by_cases hsimple : isSimple x.name = true
  · rw [if_pos hsimple, unbarred]
    refine if_neg ?_
    rintro ⟨-, hhead, -⟩
    exact bar_not_mem_of_isSimple hsimple (List.mem_of_head? hhead)
  · have hchars : ("|" ++ x.name ++ "|").toList = '|' :: (x.name.toList ++ ['|']) := by simp
    rw [if_neg hsimple, unbarred, hchars, if_pos, List.tail_cons, List.dropLast_concat,
      String.ofList_toList]
    refine ⟨by simp, rfl, ?_⟩
    rw [← List.cons_append, List.getLast?_concat]

/-- A symbol is told by its text. -/
theorem render_inj {x y : Symbol} (h : x.render = y.render) : x = y := by
  have hname : x.name = y.name := by rw [← unbarred_render x, h, unbarred_render y]
  exact congrArg Symbol.mk hname

theorem written_eq_ok {id text : String} {k : Option Int} : written id k = .ok text ↔
    isQuotable id = true ∧ text = (⟨indexed id k⟩ : Symbol).render := by
  rw [written, make_eq]
  by_cases hq : isQuotable id = true
  · rw [if_pos hq]
    simp only [Except.map, Except.ok.injEq, hq, true_and]
    exact eq_comm
  · rw [if_neg hq]
    simp [Except.map, hq]

/-- A text is that of one name with its step. -/
theorem indexed_eq_of_written {a b text : String} {k l : Option Int}
    (ha : written a k = .ok text) (hb : written b l = .ok text) : indexed a k = indexed b l := by
  obtain ⟨-, hka⟩ := written_eq_ok.mp ha
  obtain ⟨-, hlb⟩ := written_eq_ok.mp hb
  have hsymbol : (⟨indexed a k⟩ : Symbol) = ⟨indexed b l⟩ := render_inj (hka.symm.trans hlb)
  exact congrArg Symbol.name hsymbol

/-- **Symbols are told apart by their texts.** A name has a symbol, at a step or without one, unless
it holds a bar or a backslash. Two symbols with steps that are written alike have the same name and
the same step, and two without have the same name. Without its bars, the text is the name, followed
by an `@` and the step in decimal digits if there is one. -/
theorem written_told_apart (a b : String) :
    (∀ k, (∃ text, written a k = .ok text) ↔ '|' ∉ a.toList ∧ '\\' ∉ a.toList) ∧
    (∀ (i j : Int) (text : String), written a (some i) = .ok text →
      written b (some j) = .ok text → a = b ∧ i = j) ∧
    (∀ text, written a none = .ok text → written b none = .ok text → a = b) ∧
    (∀ (i : Int) (text : String), written a (some i) = .ok text →
      unbarred text = a ++ "@" ++ toString i) ∧
    (∀ text, written a none = .ok text → unbarred text = a) := by
  have hback : ∀ (k : Option Int) (text : String), written a k = .ok text →
      unbarred text = indexed a k := by
    intro k text htext
    obtain ⟨-, rfl⟩ := written_eq_ok.mp htext
    exact unbarred_render _
  refine ⟨fun k => ?_, fun i j text ha hb => ?_, fun text ha hb => ?_, fun i => hback (some i),
    hback none⟩
  · simp only [written_eq_ok, exists_and_left, exists_eq, and_true, isQuotable_iff]
    constructor
    · intro hall
      exact ⟨fun hbar => (hall _ hbar).1 rfl, fun hslash => (hall _ hslash).2 rfl⟩
    · rintro ⟨hbar, hslash⟩ c hc
      exact ⟨fun h => hbar (h ▸ hc), fun h => hslash (h ▸ hc)⟩
  · exact indexed_inj (indexed_eq_of_written ha hb)
  · exact indexed_eq_of_written ha hb

/-- A name that looks like one with a step, at a negative step, in bars and without. -/
theorem written_told_apart_marked :
    written "p 1@-2" (some (-3)) = .ok "|p 1@-2@-3|" ∧
      unbarred "|p 1@-2@-3|" = "p 1@-2" ++ "@" ++ toString (-3 : Int) ∧
    written "p@-2" (some (-3)) = .ok "p@-2@-3" ∧
      unbarred "p@-2@-3" = "p@-2" ++ "@" ++ toString (-3 : Int) ∧
    (∀ b j, written b (some j) = .ok "p@-2@-3" → "p@-2" = b ∧ -3 = j) := by
  have hbars : written "p 1@-2" (some (-3)) = .ok "|p 1@-2@-3|" := by decide +kernel
  have hbare : written "p@-2" (some (-3)) = .ok "p@-2@-3" := by decide +kernel
  exact ⟨hbars, (written_told_apart _ "").2.2.2.1 (-3) _ hbars, hbare,
    (written_told_apart _ "").2.2.2.1 (-3) _ hbare,
    fun b j hb => (written_told_apart _ b).2.1 (-3) j _ hbare hb⟩

end PetriReach.Smt.Symbol
