import PetriReach.Proofs.Encoder.Names
import PetriReach.Proofs.Formula.Roundtrip

/-!
# The text of a goal

A goal is written as the text of one term, in tokens, over the variables of its places. Read back,
the term has the truth value of the goal. Only at a step is this so for all names: without a step, a
place that is named by a word of the language is written as that word.

* `Term.ofText?_render`: a term is read back from its text.
* `Encoder.termLegal_iff`, `Encoder.assertLegal_iff`: when the text of a term over the variables of
  a goal is legal.
-/

namespace PetriReach

open Smt

/-! ## Names in order -/

namespace Names

theorem sorted_insert {a : String} {bs : List String} (h : bs.Pairwise (· < ·)) :
    (insert a bs).Pairwise (· < ·) := by
  induction bs with
  | nil => exact List.pairwise_singleton _ _
  | cons b bs ih =>
    obtain ⟨hb, hbs⟩ := List.pairwise_cons.mp h
    unfold insert
    split
    · next hab =>
      refine List.pairwise_cons.mpr ⟨fun c hc => ?_, h⟩
      rcases List.mem_cons.mp hc with rfl | hc
      · exact hab
      · exact String.lt_trans hab (hb c hc)
    · next hlt =>
      split
      · exact h
      · next hne =>
        refine List.pairwise_cons.mpr ⟨fun c hc => ?_, ih hbs⟩
        rcases mem_insert.mp hc with rfl | hc
        · exact String.not_le.mp fun hle => hne (String.le_antisymm hle (String.not_lt.mp hlt))
        · exact hb c hc

theorem nodup_ofList (as : List String) : (ofList as).Nodup := by
  have hsorted : (ofList as).Pairwise (· < ·) := by
    induction as with
    | nil => exact List.Pairwise.nil
    | cons a as ih => exact sorted_insert ih
  refine hsorted.imp fun {a b} hlt => ?_
  rintro rfl
  exact String.lt_irrefl a hlt

end Names

/-! ## Terms as texts -/

namespace Smt

/-- A blank at the end of a text makes no difference. -/
theorem Lexeme.scan_newline (m : Lexeme.Mode) (cs : List Char) :
    Lexeme.scan m (cs ++ ['\n']) = Lexeme.scan m cs := by
  induction cs generalizing m with
  | nil => cases m <;> rfl
  | cons c cs ih => simp only [List.cons_append, Lexeme.scan, ih]

/-- The term that a text is: one, and nothing else. -/
def Term.ofText? (s : String) : Option Term :=
  match (Lexeme.scan .between s.toList).bind (SExpr.nest [] []) with
  | some [e] => e.term?
  | _ => none

/-- **A term is read back from its text.** -/
theorem Term.ofText?_render {t : Term} (h : t.Within Symbol.ReadBack) :
    Term.ofText? t.render = some t := by
  have hseparable : t.sexpr.Separable := (h.mono And.left).separable
  have hscan : Lexeme.scan .between t.render.toList = some t.sexpr.lexemes := by
    rw [t.toList_render, ← Lexeme.scan_newline,
      SExpr.scan_chars ⟨'\n', [], rfl, rfl⟩ _ hseparable]
    simp [Lexeme.scan, Lexeme.Mode.step, Lexeme.Mode.start, Lexeme.Mode.finish, Lexeme.isBlank]
  have hnest : SExpr.nest [] [] t.sexpr.lexemes = some [t.sexpr] := by
    have hone := SExpr.nest_lexemes [] [] [] t.sexpr
    rw [List.append_nil] at hone
    exact hone
  rw [Term.ofText?, hscan, Option.bind_some, hnest]
  exact h.term?_sexpr

end Smt

namespace Encoder

variable {f : Formula} {k : Option Int}

/-! ## Variables of a goal -/

/-- The variables of the places of a goal. -/
def goalSymbols (f : Formula) (k : Option Int) : List Symbol :=
  f.places.map fun p => place p k

/-- What is declared with them. -/
def goalFrame (f : Formula) (k : Option Int) : List (Symbol × VarSort) :=
  (goalSymbols f k).map fun x => (x, .int)

/-- The script that declares them. -/
def goalDeclarations (f : Formula) (k : Option Int) : Script :=
  (goalSymbols f k).flatMap (declareVar · .int)

/-- No variable of the goal is a word of the language. At a step none can be. -/
def Speakable (f : Formula) (k : Option Int) : Prop :=
  k = none → ∀ p ∈ f.places, Declarable p

theorem Speakable.declarable (h : Speakable f k) : ∀ x ∈ goalSymbols f k, Declarable x.name := by
  intro x hx
  obtain ⟨p, hp, rfl⟩ := List.mem_map.mp hx
  cases k with
  | none => exact h rfl p hp
  | some k => exact Symbol.declarable_of_at (Symbol.at_mem_indexed p k)

theorem quotable_goalSymbols (hq : ∀ p ∈ f.places, isQuotable p = true) :
    ∀ x ∈ goalSymbols f k, x.Quotable := by
  intro x hx
  obtain ⟨p, hp, rfl⟩ := List.mem_map.mp hx
  exact (Symbol.isQuotable_indexed p k).trans (hq p hp)

theorem readBack_goalSymbols (hq : ∀ p ∈ f.places, isQuotable p = true) (h : Speakable f k) :
    ∀ x ∈ goalSymbols f k, x.ReadBack :=
  fun x hx => Symbol.readBack_of_declarable (quotable_goalSymbols hq x hx) (h.declarable x hx)

theorem lookup_goalFrame {p : String} (hp : p ∈ f.mentions) :
    (goalFrame f k).lookup (place p k) = some .int := by
  have hmem : place p k ∈ goalSymbols f k := List.mem_map_of_mem (Formula.mem_places.mpr hp)
  refine lookup_of_forall (List.mem_map_of_mem hmem) fun d hd => ?_
  obtain ⟨x, -, rfl⟩ := List.mem_map.mp hd
  rfl

theorem acceptAll_goalDeclarations (h : Speakable f k) :
    ({} : Scopes).acceptAll (goalDeclarations f k) = some (({} : Scopes).extend (goalFrame f k)
      ((goalSymbols f k).flatMap (varBounds .int))) := by
  refine acceptAll_declareVars .int ((Names.nodup_ofList _).map (place_injective k)) (by simp) ?_
  exact fun x hx => (h.declarable x hx).1

/-! ## Legality -/

section Legality

variable {t : Term}

/-- Assertions over the variables of a goal, behind their declarations, are legal if no variable is
a word of the language. -/
theorem ofText?_goalDeclarations (hq : ∀ p ∈ f.places, isQuotable p = true) (h : Speakable f k)
    {ts : List Term} (hts : ∀ t ∈ ts, t.sort? (goalFrame f k) = some .bool) :
    Scopes.ofText? (Script.render (goalDeclarations f k ++ ts.map .assert)) =
      some (({} : Scopes).extend (goalFrame f k)
        ((goalSymbols f k).flatMap (varBounds .int) ++ ts)) := by
  refine Scopes.ofText?_render (fun x τ hx => ?_) ?_
  · rcases List.mem_append.mp hx with hx | hx
    · exact readBack_goalSymbols hq h x (mem_declareVars hx).1
    · obtain ⟨t, -, ht⟩ := List.mem_map.mp hx
      cases ht
  · have hsorts : ∀ t ∈ ts, t.sort? (({} : Scopes).extend (goalFrame f k)
        ((goalSymbols f k).flatMap (varBounds .int))).declared = some .bool := by
      rw [Scopes.extend_declared, Reading.declared_empty, List.nil_append]
      exact hts
    rw [Scopes.acceptAll_append, acceptAll_goalDeclarations h, Option.bind_some,
      Scopes.acceptAll_assert hsorts, Scopes.extend_extend, List.append_nil]

/-- Conversely, a legal text declares no word of the language. -/
theorem speakable_of_ofText? (hq : ∀ p ∈ f.places, isQuotable p = true) {ts : List Term}
    (hts : ∀ t ∈ ts, t.sort? (goalFrame f k) = some .bool) {s : Scopes}
    (h : Scopes.ofText? (Script.render (goalDeclarations f k ++ ts.map .assert)) = some s) :
    Speakable f k := by
  have hframe : ∀ d ∈ goalFrame f k, d.1.Quotable := by
    intro d hd
    obtain ⟨x, hx, rfl⟩ := List.mem_map.mp hd
    exact quotable_goalSymbols hq x hx
  have hquotable : ∀ c ∈ goalDeclarations f k ++ ts.map .assert, c.Within Symbol.Quotable := by
    intro c hc
    rcases List.mem_append.mp hc with hc | hc
    · exact within_declareVars (quotable_goalSymbols hq) c hc
    · obtain ⟨t, ht, rfl⟩ := List.mem_map.mp hc
      exact Term.within_of_sort? hframe (hts t ht)
  have hpop : Command.pop ∉ goalDeclarations f k ++ ts.map .assert := by
    intro hmem
    rcases List.mem_append.mp hmem with hmem | hmem
    · obtain ⟨x, -, hx⟩ := List.mem_flatMap.mp hmem
      simp [declareVar] at hx
    · obtain ⟨t, -, ht⟩ := List.mem_map.mp hmem
      cases ht
  have hdeclarable := (Scopes.declares_of_ofText? hquotable hpop h).2
  rw [declares_append, declares_assert, List.append_nil, goalDeclarations, declares_declareVars]
    at hdeclarable
  rintro rfl p hp
  exact hdeclarable (place p none) (List.mem_map_of_mem hp)

/-- Behind the declarations of the variables, the text of the term is one term, and that a truth
value. -/
def TermLegal (f : Formula) (k : Option Int) (t : Term) : Prop :=
  ∃ s, Scopes.ofText? (goalDeclarations f k).render = some s ∧ Term.ofText? t.render = some t ∧
    t.sort? s.declared = some .bool

/-- Behind the declarations of the variables, the text of the assertion is a legal assertion of the
term. -/
def AssertLegal (f : Formula) (k : Option Int) (t : Term) : Prop :=
  ∃ s, Scopes.ofText? (Script.render (goalDeclarations f k ++ [.assert t])) = some s ∧
    s.declared = goalFrame f k ∧ s.asserted.getLast? = some t

/-- **The text of a term is legal exactly if no variable is a word of the language.** -/
theorem termLegal_iff (hq : ∀ p ∈ f.places, isQuotable p = true)
    (ht : t.sort? (goalFrame f k) = some .bool) : TermLegal f k t ↔ Speakable f k := by
  have hnone : ∀ u ∈ ([] : List Term), u.sort? (goalFrame f k) = some .bool := by simp
  constructor
  · rintro ⟨s, hs, -, -⟩
    exact speakable_of_ofText? hq hnone (by rwa [List.map_nil, List.append_nil])
  · intro h
    have hdecl := ofText?_goalDeclarations hq h hnone
    rw [List.map_nil, List.append_nil] at hdecl
    have hframe : ∀ d ∈ goalFrame f k, d.1.ReadBack := by
      intro d hd
      obtain ⟨x, hx, rfl⟩ := List.mem_map.mp hd
      exact readBack_goalSymbols hq h x hx
    refine ⟨_, hdecl, Term.ofText?_render (Term.within_of_sort? hframe ht), ?_⟩
    rwa [Scopes.extend_declared, Reading.declared_empty, List.nil_append]

theorem assertLegal_iff (hq : ∀ p ∈ f.places, isQuotable p = true)
    (ht : t.sort? (goalFrame f k) = some .bool) : AssertLegal f k t ↔ Speakable f k := by
  have hone : ∀ u ∈ [t], u.sort? (goalFrame f k) = some .bool := List.forall_mem_singleton.mpr ht
  unfold AssertLegal
  rw [← List.map_singleton]
  constructor
  · rintro ⟨s, hs, -, -⟩
    exact speakable_of_ofText? hq hone hs
  · intro h
    refine ⟨_, ofText?_goalDeclarations hq h hone, ?_, ?_⟩
    · rw [Scopes.extend_declared, Reading.declared_empty, List.nil_append]
    · rw [Scopes.extend_asserted, ← List.append_assoc, List.getLast?_concat]

end Legality

/-! ## The goal -/

theorem firstError_eq_ok {α : Type} {test : α → Option EncodingError} {as : List α}
    (h : ∀ a ∈ as, test a = none) : firstError test as = .ok () := by
  rw [firstError, List.findSome?_eq_none_iff.mpr h]

/-- Values for the variables at a step, or without one. -/
theorem exists_shows (k : Option Int) (m : Marking) :
    ∃ a : Assignment, ∀ p, a (place p k) = .int (m p) :=
  ⟨fun x => .int (m (Function.invFun (fun p => place p k) x)), fun p =>
    congrArg (fun q => Value.int (m q)) (Function.leftInverse_invFun (place_injective k) p)⟩

/-- **What is written for a goal says what the goal says.** For a formula that was read and a net
that has its places, with names that can be written, there is an encoder, and at every step or
without one it writes a term, the negation of that term, and one assertion of either. Where the
variables have the tokens of a marking for values, and there are such values for every marking, the
term has the truth value of the formula at the marking, and its negation the opposite one. But the
texts are legal only if it is written for a step, or no place of the formula is named by a word of
the language. -/
theorem goalTerm_exact_iff {text : String} {net : Net} (hparse : Formula.parse text = .ok f)
    (hplaces : ∀ p ∈ f.places, net.hasPlace p = true)
    (hq : ∀ p ∈ f.places, isQuotable p = true) (k : Option Int) :
    ∃ (e : Encoder) (t : Term), make net (some (.formula f)) .integer = .ok e ∧
      e.goalTerm k false = .ok t ∧ e.goalTerm k true = .ok t.not ∧
      e.assertGoal k = .ok [.assert t] ∧ e.refuteGoal k = .ok [.assert t.not] ∧
      (∀ m : Marking, (∃ a : Assignment, ∀ p ∈ f.places, a (place p k) = .int (m p)) ∧
        ∀ a : Assignment, (∀ p ∈ f.places, a (place p k) = .int (m p)) →
          t.value a = some (.bool (f.holds m)) ∧ t.not.value a = some (.bool (!f.holds m))) ∧
      ∀ u ∈ [t, t.not], (TermLegal f k u ↔ k ≠ none ∨ ∀ p ∈ f.places, Declarable p) ∧
        (AssertLegal f k u ↔ k ≠ none ∨ ∀ p ∈ f.places, Declarable p) := by
  obtain ⟨t, ht, htsort, htval⟩ := lowerFormula_tokens
    (fun p hp => hq p (Formula.mem_places.mpr hp)) (Formula.nonNeg_of_parse hparse) k
  have hcheck : checkPlaces net (some (.formula f)) = .ok () := by
    refine firstError_eq_ok fun p hp => ?_
    rw [if_pos (hplaces p hp)]
  have hmake : make net (some (.formula f)) .integer =
      .ok ⟨net, some (.formula f), .integer⟩ := by
    rw [make, hcheck]
    rfl
  have hsort : t.sort? (goalFrame f k) = some .bool := htsort fun p hp => lookup_goalFrame hp
  have hspeakable : Speakable f k ↔ k ≠ none ∨ ∀ p ∈ f.places, Declarable p := by
    rw [Speakable, imp_iff_not_or]
  refine ⟨_, t, hmake, goalTerm_eq rfl ht false, goalTerm_eq rfl ht true, assertGoal_eq rfl ht,
    refuteGoal_eq rfl ht, fun m => ⟨?_, fun a ha => ?_⟩, ?_⟩
  · obtain ⟨a, ha⟩ := exists_shows k m
    exact ⟨a, fun p _ => ha p⟩
  · have hvalue := htval fun p hp => ha p (Formula.mem_places.mpr hp)
    refine ⟨hvalue, ?_⟩
    simp [Term.not, Term.value, Term.values, hvalue, Op.value]
  · rw [← hspeakable]
    simp only [List.forall_mem_cons]
    exact ⟨⟨termLegal_iff hq hsort, assertLegal_iff hq hsort⟩,
      ⟨termLegal_iff hq (Term.sort?_not hsort), assertLegal_iff hq (Term.sort?_not hsort)⟩, by simp⟩

/-- A comparison with a place whose name has to be quoted. -/
def quotedGoal : Formula :=
  .atom ⟨[⟨"a b", 1⟩, ⟨"p", 2⟩], 0⟩ .eq ⟨[], 3⟩

/-- A comparison with a place that is named by a reserved word. -/
def letGoal : Formula :=
  .atom ⟨[⟨"let", 1⟩], 0⟩ .eq ⟨[], 1⟩

theorem quotedGoal_parse : Formula.parse "\x7ba b\x7d + 2*p = 3" = .ok quotedGoal := by
  have hscan : Token.scan "\x7ba b\x7d + 2*p = 3" = .ok [⟨.identifier, "a b", 1⟩, ⟨.plus, "+", 7⟩,
      ⟨.integer, "2", 9⟩, ⟨.star, "*", 10⟩, ⟨.identifier, "p", 11⟩, ⟨.eq, "=", 13⟩,
      ⟨.integer, "3", 15⟩, ⟨.eof, "", 16⟩] := by decide +kernel
  rw [Formula.parse, hscan]
  rfl

theorem letGoal_parse : Formula.parse "let = 1" = .ok letGoal := by
  have hscan : Token.scan "let = 1" = .ok [⟨.identifier, "let", 1⟩, ⟨.eq, "=", 5⟩,
      ⟨.integer, "1", 7⟩, ⟨.eof, "", 8⟩] := by decide +kernel
  rw [Formula.parse, hscan]
  rfl

/-- The encoder of a goal over empty places with the given names. -/
def encoderOver (names : List String) (f : Formula) : Encoder :=
  ⟨.ofPlaces (names.map fun p => ⟨p, 0⟩), some (.formula f), .integer⟩

/-- A name that has to be quoted is, and the text is legal. A reserved word is not quoted, and the
text is not legal. -/
theorem quoted_legal_and_let_illegal :
    (∃ t, (encoderOver ["a b", "p"] quotedGoal).goalTerm none false = .ok t ∧
      t.render = "(= (+ |a b| (* p 2)) 3)" ∧ TermLegal quotedGoal none t) ∧
    ∃ t, (encoderOver ["let"] letGoal).goalTerm none false = .ok t ∧
      t.render = "(= let 1)" ∧ ¬ TermLegal letGoal none t := by
  constructor
  · have hplaces : ∀ p ∈ quotedGoal.places,
        (encoderOver ["a b", "p"] quotedGoal).net.hasPlace p = true := by decide
    obtain ⟨e, t, hmake, hgoal, -, -, -, -, hlegal⟩ :=
      goalTerm_exact_iff quotedGoal_parse hplaces (by decide) none
    obtain ⟨rfl, -, -⟩ := make_ok hmake
    have hterm : (encoderOver ["a b", "p"] quotedGoal).goalTerm none false =
        .ok (.binary .eq (Fold.sum.term [.sym ⟨"a b"⟩, .binary .mul (.sym ⟨"p"⟩) (.num 2)])
          (.num 3)) := rfl
    cases hterm.symm.trans hgoal
    exact ⟨_, hterm, rfl, (hlegal _ List.mem_cons_self).1.mpr (.inr (by decide))⟩
  · have hplaces : ∀ p ∈ letGoal.places, (encoderOver ["let"] letGoal).net.hasPlace p = true := by
      decide
    obtain ⟨e, t, hmake, hgoal, -, -, -, -, hlegal⟩ :=
      goalTerm_exact_iff letGoal_parse hplaces (by decide) none
    obtain ⟨rfl, -, -⟩ := make_ok hmake
    have hterm : (encoderOver ["let"] letGoal).goalTerm none false =
        .ok (.binary .eq (.sym ⟨"let"⟩) (.num 1)) := rfl
    cases hterm.symm.trans hgoal
    refine ⟨_, hterm, rfl, fun h => ?_⟩
    exact absurd ((hlegal _ List.mem_cons_self).1.mp h) (by decide)

end Encoder

end PetriReach
