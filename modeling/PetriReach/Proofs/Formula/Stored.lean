import PetriReach.Program
import PetriReach.Proofs.Formula.Building
import PetriReach.Proofs.Token.Edges

/-!
# Stored formulas

A formula may be given as a text or as the content of a file, which is trimmed first. Both ways give
the same formula, or fail for the same cause: trimming moves the tokens and changes nothing else,
and no reader looks at columns but to report an error.

* `Formula.Blind`: a reader does not look at columns.
* `Formula.blind_readSum`, `Formula.blind_readOperand`, `Formula.ofTokens_bare`: the readers do not.
* `Formula.parseStored_eq`: a stored text holds what the text holds, but for columns.
* `Files.readFormula_agrees`: a file and its content give the same formula, and the same nodes.
-/

namespace PetriReach

theorem placeless_bind {α β : Type} {f : α → α} {g : β → β} {k k' : α → Except SyntaxError β}
    (h : ∀ a, k' (f a) = placeless g (k a)) (r : Except SyntaxError α) :
    placeless f r >>= k' = placeless g (r >>= k) := by
  cases r with
  | error e => rfl
  | ok a => exact h a

/-- Results that differ in columns only. -/
theorem placeless_inj {α : Type} {r r' : Except SyntaxError α}
    (h : placeless id r = placeless id r') : (∃ a, r = .ok a ∧ r' = .ok a) ∨
      ∃ e e', r = .error e ∧ r' = .error e' ∧ e.cause = e'.cause := by
  cases r with
  | ok a =>
    cases r' with
    | ok a' =>
      cases h
      exact .inl ⟨a, rfl, rfl⟩
    | error e' => cases h
  | error e =>
    cases r' with
    | ok a' => cases h
    | error e' =>
      have hcause := congrArg SyntaxError.cause (Except.error.inj h)
      exact .inr ⟨e, e', rfl, rfl, hcause⟩

namespace Formula

/-! ## Readers -/

section Readers

variable {α β : Type} {ts : List Token}

/-- What a reader returns, without columns. -/
def unplaced (x : α × List Token) : α × List Token :=
  (x.1, x.2.map Token.bare)

/-- The reader does not look at columns. -/
def Blind (read : Reader α) : Prop :=
  ∀ ts, read (ts.map Token.bare) = placeless unplaced (read ts)

theorem blind_errorAt (ending : SyntaxError.Cause) {other : Token → SyntaxError.Cause}
    (h : ∀ t : Token, other t.bare = other t) :
    Blind fun ts => (errorAt ts ending other : Except SyntaxError (α × List Token)) := by
  intro ts
  cases ts with
  | nil => rfl
  | cons t ts =>
    show errorAt (t.bare :: ts.map Token.bare) ending other = _
    rw [errorAt, h]
    rfl

theorem blind_missing (cause : Found → SyntaxError.Cause) :
    Blind (missing cause : Reader α) :=
  blind_errorAt _ fun _ => rfl

theorem leads_bare (k : Token.Kind) (ts : List Token) :
    leads k (ts.map Token.bare) = leads k ts := by
  cases ts <;> rfl

theorem addLiteral_bare (s : TokenSum) (n : Nat) (t : Token) :
    addLiteral s n t.bare = placeless id (addLiteral s n t) := by
  unfold addLiteral
  split
  · rfl
  · rfl

/-- One reader after another. -/
theorem Blind.bind {read : Reader α} (h : Blind read) {next : α → Reader β}
    (hnext : ∀ a, Blind (next a)) : Blind fun ts => read ts >>= fun x => next x.1 x.2 := by
  intro ts
  show read (ts.map Token.bare) >>= _ = _
  rw [h ts]
  exact placeless_bind (fun x => hnext x.1 x.2) (read ts)

theorem blind_pure (a : α) : Blind fun ts => .ok (a, ts) :=
  fun _ => rfl

/-! ## Sums -/

mutual

theorem termDue_bare : ∀ (ts : List Token) (depth : Nat) (s : TokenSum),
    termDue depth s (ts.map Token.bare) = placeless unplaced (termDue depth s ts)
  | [], _, _ => rfl
  | t :: ts, depth, s => by
    rw [List.map_cons, termDue, termDue, Token.kind_bare, Token.text_bare]
    split
    · exact termDue_bare ts (depth + 1) s
    · exact termDone_bare ts depth _
    · split
      · rfl
      · next n _ =>
        rw [leads_bare, addLiteral_bare]
        split
        · exact starDue_bare ts depth s n
        · cases addLiteral s n t with
          | error e => rfl
          | ok s' => exact termDone_bare ts depth s'
    · rfl
    · rfl
termination_by ts => ts.length

theorem starDue_bare : ∀ (ts : List Token) (depth : Nat) (s : TokenSum) (n : Nat),
    starDue depth s n (ts.map Token.bare) = placeless unplaced (starDue depth s n ts)
  | [], _, _, _ => rfl
  | [_], _, _, _ => rfl
  | _ :: p :: ts, depth, s, n => by
    rw [List.map_cons, List.map_cons, starDue, starDue, Token.kind_bare, Token.text_bare]
    split
    · exact termDone_bare ts depth _
    · exact blind_missing _ (p :: ts)
termination_by ts => ts.length

theorem termDone_bare : ∀ (ts : List Token) (depth : Nat) (s : TokenSum),
    termDone depth s (ts.map Token.bare) = placeless unplaced (termDone depth s ts)
  | [], depth, s => by
    rw [List.map_nil, termDone]
    split
    · rfl
    · rfl
  | t :: ts, depth, s => by
    rw [List.map_cons, termDone, termDone, Token.kind_bare]
    split
    · exact termDue_bare ts depth s
    · split
      · rfl
      · split
        · exact termDone_bare ts (depth - 1) s
        · exact blind_missing _ (t :: ts)
termination_by ts => ts.length

end

theorem blind_readSum : Blind readSum :=
  fun ts => termDue_bare ts 0 {}

/-! ## Formulas -/

theorem blind_readRelation : Blind readRelation := by
  intro ts
  cases ts with
  | nil => rfl
  | cons t ts =>
    rw [List.map_cons, readRelation, readRelation, Token.kind_bare]
    split
    · rfl
    · exact blind_missing _ (t :: ts)

theorem blind_readAtom : Blind readAtom := by
  unfold readAtom
  exact blind_readSum.bind fun lhs => blind_readRelation.bind fun op =>
    blind_readSum.bind fun rhs => blind_pure (Formula.atom lhs op rhs)

theorem closesSum_bare (depth : Nat) (ts : List Token) :
    closesSum depth (ts.map Token.bare) = closesSum depth ts := by
  induction ts generalizing depth with
  | nil => rfl
  | cons t ts ih => simp only [List.map_cons, closesSum, Token.kind_bare, ih]

theorem blind_readLinks {operand : Reader Formula} (h : Blind operand) (n : Nat) :
    Blind (readLinks operand n) := by
  induction n with
  | zero => exact blind_pure []
  | succ n ih =>
    intro ts
    cases ts with
    | nil => rfl
    | cons t ts =>
      rw [List.map_cons, readLinks, readLinks, Token.kind_bare]
      split
      · rfl
      · next c _ => exact (h.bind fun f => ih.bind fun links => blind_pure ((c, f) :: links)) ts

theorem blind_readChain {operand : Reader Formula} (h : Blind operand) :
    Blind (readChain operand) := by
  have hlinks : ∀ f, Blind fun ts =>
      readLinks operand ts.length ts >>= fun x => .ok (chain f x.1, x.2) := by
    intro f ts
    dsimp only
    rw [List.length_map]
    exact ((blind_readLinks h ts.length).bind fun links => blind_pure (chain f links)) ts
  exact h.bind hlinks

/-- Behind a formula in parentheses a closing one is due. -/
theorem blind_closing (f : Formula) : Blind fun ts =>
    if leads .rparen ts then .ok (f, ts.tail) else missing .unclosedGroup ts := by
  intro ts
  dsimp only
  rw [leads_bare, ← List.map_tail]
  split
  · rfl
  · exact blind_missing _ ts

/-- **The reader of operands does not look at columns.** -/
theorem blind_readOperand (n : Nat) : Blind (readOperand n) := by
  have herror : Blind fun ts => (errorAt ts .unexpectedEnd fun t => .unexpectedToken t.text :
      Except SyntaxError (Formula × List Token)) := blind_errorAt _ fun _ => rfl
  induction n with
  | zero => exact herror
  | succ n ih =>
    intro ts
    cases ts with
    | nil => rfl
    | cons t ts =>
      rw [List.map_cons, readOperand, readOperand, Token.kind_bare]
      split
      · exact (ih.bind fun f => blind_pure (Formula.not f)) ts
      · rfl
      · rfl
      · exact blind_readAtom (t :: ts)
      · exact blind_readAtom (t :: ts)
      · rw [closesSum_bare]
        split
        · exact blind_readAtom (t :: ts)
        · exact ((blind_readChain ih).bind blind_closing) ts
      · exact herror (t :: ts)

end Readers

/-! ## Texts -/

theorem ofTokens_bare (ts : List Token) :
    ofTokens (ts.map Token.bare) = placeless id (ofTokens ts) := by
  unfold ofTokens readFormula
  rw [List.length_map, blind_readChain (blind_readOperand ts.length) ts]
  refine placeless_bind (fun x => ?_) _
  obtain ⟨f, rest⟩ := x
  cases rest with
  | nil => rfl
  | cons t rest =>
    simp only [unplaced, List.map_cons, Token.kind_bare, Token.text_bare]
    split
    · rfl
    · rfl
    · rfl

/-- **A stored text holds what the text holds**, but for columns. -/
theorem parseStored_eq (s : String) : placeless id (parseStored s) = placeless id (parse s) := by
  have hparse : ∀ s, placeless id (parse s) =
      placeless (List.map Token.bare) (Token.scan s) >>= ofTokens :=
    fun s => (placeless_bind ofTokens_bare (Token.scan s)).symm
  unfold parseStored
  rw [hparse, hparse, Token.scan_trim]

end Formula

/-- The formula in a file, read into a table of its own. -/
def Files.storeFormula (files : Files) (path : String) :
    Option (Except Formula.StoreError (Nat × Table)) :=
  (files path).map fun s => Formula.store (Text.trim s)

/-- **A file gives the formula that its content gives**, and the same nodes under the same numbers;
or there is no formula, for the same cause. -/
theorem Files.readFormula_agrees {files : Files} {path s : String} (h : files path = some s) :
    (∃ f, Formula.parse s = .ok f ∧ files.readFormula path = .ok f ∧
      Formula.store s = .ok (({} : Table).insert f) ∧
      files.storeFormula path = some (.ok (({} : Table).insert f))) ∨
    ∃ e e', Formula.parse s = .error e ∧ files.readFormula path = .error (.formula e') ∧
      e'.cause = e.cause ∧ Formula.store s = .error (.unread e) ∧
      files.storeFormula path = some (.error (.unread e')) := by
  have hread : files.readFormula path = (Formula.parseStored s).mapError .formula := by
    unfold Files.readFormula Files.read
    rw [h]
    dsimp only [bind, Except.bind]
  have hstore : files.storeFormula path =
      some (((Formula.parseStored s).mapError .unread).map ({} : Table).insert) := by
    rw [Files.storeFormula, h, Option.map_some, Formula.store_eq]
    rfl
  rw [hread, hstore, Formula.store_eq]
  rcases placeless_inj (Formula.parseStored_eq s) with
    ⟨f, hstored, hparse⟩ | ⟨e', e, hstored, hparse, hcause⟩
  · rw [hstored, hparse]
    exact .inl ⟨f, rfl, rfl, rfl, rfl⟩
  · rw [hstored, hparse]
    exact .inr ⟨e, e', rfl, rfl, hcause, rfl, rfl⟩

/-- Blanks around a formula are not seen, but those in a label are; the comparison is the fifth
node. A label that is not closed is not closed by the blanks behind it. -/
theorem Files.readFormula_agrees_edges :
    (Formula.parse "\t\x0b\x7b a \x7d >= 2\r\n" = .ok (.atom ⟨[⟨" a ", 1⟩], 0⟩ .ge ⟨[], 2⟩) ∧
      Files.readFormula (fun _ => some "\t\x0b\x7b a \x7d >= 2\r\n") "goal" =
        .ok (.atom ⟨[⟨" a ", 1⟩], 0⟩ .ge ⟨[], 2⟩) ∧
      ∃ t : Table, t.nodes = [.tt, .ff, .sum (.count [⟨" a ", 1⟩] 0), .sum (.literal 2),
          .atom 2 .ge 3] ∧
        Formula.store "\t\x0b\x7b a \x7d >= 2\r\n" = .ok (4, t) ∧
        Files.storeFormula (fun _ => some "\t\x0b\x7b a \x7d >= 2\r\n") "goal" =
          some (.ok (4, t))) ∧
    Formula.parse "  \x7b a \n" = .error ⟨.unterminatedLabel, 3⟩ ∧
      ∃ e, Files.readFormula (fun _ => some "  \x7b a \n") "goal" = .error (.formula e) ∧
        e.cause = .unterminatedLabel := by
  have hclosed : Formula.parse "\t\x0b\x7b a \x7d >= 2\r\n" =
      .ok (.atom ⟨[⟨" a ", 1⟩], 0⟩ .ge ⟨[], 2⟩) := rfl
  have hopen : Formula.parse "  \x7b a \n" = .error ⟨.unterminatedLabel, 3⟩ := rfl
  refine ⟨⟨hclosed, ?_⟩, hopen, ?_⟩
  · rcases Files.readFormula_agrees (show (fun _ => some "\t\x0b\x7b a \x7d >= 2\r\n" : Files)
      "goal" = some "\t\x0b\x7b a \x7d >= 2\r\n" from rfl) with
      ⟨f, hf, hread, hstore, hfile⟩ | ⟨e, e', he, -⟩
    · rw [hclosed] at hf
      cases hf
      exact ⟨hread, _, rfl, hstore, hfile⟩
    · rw [hclosed] at he
      cases he
  · rcases Files.readFormula_agrees (show (fun _ => some "  \x7b a \n" : Files)
      "goal" = some "  \x7b a \n" from rfl) with ⟨f, hf, -⟩ | ⟨e, e', he, hread, hcause, -⟩
    · rw [hopen] at hf
      cases hf
    · rw [hopen] at he
      cases he
      exact ⟨e', hread, hcause⟩

end PetriReach
