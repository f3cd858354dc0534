import Mathlib.Data.List.Find
import Mathlib.Data.List.TakeWhile
import PetriReach.Proofs.Token.Layout

/-!
# Blanks around a text

Blanks at the beginning and at the end of a text move its tokens and change nothing else about
them. An error stays the same error, too: no token holds a blank at its end, and a label that is not
closed is not closed by blanks.

* `RawToken.bare`, `placeless`: tokens and results without their columns.
* `RawToken.next_blanks`: a read does not see the blanks before a text.
* `RawToken.next_gap`: a read does not see the blanks behind a text.
* `Token.scan_trim`: a text and what is left of it by trimming have the same tokens.
-/

namespace PetriReach

/-- What is left of a result if columns do not count; `f` takes them off the value. -/
def placeless {α : Type} (f : α → α) : Except SyntaxError α → Except SyntaxError α
  | .ok a => .ok (f a)
  | .error e => .error { e with column := 1 }

/-! ## Edges -/

namespace Text

theorem isBlank_of_isEdge {a : Char} (h : isEdge a = true) : isBlank a = true := by
  simp only [isEdge, Bool.or_eq_true, decide_eq_true_eq] at h
  rcases h with ((rfl | rfl) | rfl) | rfl <;> rfl

/-- Trimming takes blanks off both ends. -/
theorem exists_edges (s : String) : ∃ lead gap, s.toList = lead ++ ((trim s).toList ++ gap) ∧
    (∀ a ∈ lead, isBlank a = true) ∧ ∀ a ∈ gap, isBlank a = true := by
  let core := s.toList.dropWhile isEdge
  have hcore : core = (core.reverse.dropWhile isEdge).reverse ++
      (core.reverse.takeWhile isEdge).reverse := by
    rw [← List.reverse_append, List.takeWhile_append_dropWhile, List.reverse_reverse]
  refine ⟨s.toList.takeWhile isEdge, (core.reverse.takeWhile isEdge).reverse, ?_, ?_, ?_⟩
  · rw [trim, String.toList_ofList, ← hcore, List.takeWhile_append_dropWhile]
  · exact fun a ha => isBlank_of_isEdge (List.mem_takeWhile_imp ha)
  · exact fun a ha => isBlank_of_isEdge (List.mem_takeWhile_imp (List.mem_reverse.mp ha))

end Text

namespace RawToken

open Token

variable {α : Type} [Letter α] {lead gap w : List α} {k k' : Nat}

/-- The token, wherever it stands. -/
def bare (t : RawToken α) : RawToken α :=
  { t with column := 1 }

omit [Letter α] in
theorem kind_eq_of_bare {t t' : RawToken α} (h : t.bare = t'.bare) : t.kind = t'.kind := by
  have hkind := congrArg RawToken.kind h
  exact hkind

/-! ## Blanks before a text -/

theorem skipBlanks_append (h : Blank lead) (k : Nat) (w : List α) :
    (⟨k, lead ++ w⟩ : Cursor α).skipBlanks =
      (⟨k + Letter.widthAll lead, w⟩ : Cursor α).skipBlanks := by
  induction lead generalizing k with
  | nil => rfl
  | cons a lead ih =>
    obtain ⟨ha, hlead⟩ := List.forall_mem_cons.mp h
    rw [List.cons_append, skipBlanks_cons ha, ih hlead, Letter.widthAll, Nat.add_assoc]

/-- **A read does not see the blanks before a text**, but for its column. -/
theorem next_blanks (h : Blank lead) (k : Nat) (w : List α) :
    next ⟨k, lead ++ w⟩ = next ⟨k + Letter.widthAll lead, w⟩ := by
  unfold next
  rw [skipBlanks_append h]

theorem next_nil (k : Nat) :
    next (⟨k, []⟩ : Cursor α) = .ok (⟨.eof, [], k⟩, ⟨k, []⟩) :=
  rfl

theorem next_of_blank (h : Blank gap) (k : Nat) : next ⟨k, gap⟩ =
    .ok (⟨.eof, [], k + Letter.widthAll gap⟩, ⟨k + Letter.widthAll gap, []⟩) := by
  have hnext := next_blanks h k []
  rwa [List.append_nil, next_nil] at hnext

/-- A text is blank, or has a first letter that is not. -/
theorem blank_or_split (w : List α) : Blank w ∨ ∃ lead a v, w = lead ++ a :: v ∧ Blank lead ∧
    Text.isBlank (Letter.char a) = false := by
  have hsplit := List.takeWhile_append_dropWhile (p := fun a => Text.isBlank (Letter.char a))
    (l := w)
  have hlead : Blank (w.takeWhile fun a => Text.isBlank (Letter.char a)) :=
    fun _ => List.mem_takeWhile_imp (p := fun a => Text.isBlank (Letter.char a))
  cases hcore : w.dropWhile (fun a => Text.isBlank (Letter.char a)) with
  | nil =>
    rw [hcore, List.append_nil] at hsplit
    exact .inl (hsplit ▸ hlead)
  | cons a v =>
    have hhead := List.head?_dropWhile_not (fun a => Text.isBlank (Letter.char a)) w
    rw [hcore] at hsplit hhead
    exact .inr ⟨_, a, v, hsplit.symm, hlead, hhead⟩

/-! ## Blanks behind a text -/

/-- The outcomes of two reads, the first of them in a text with `gap` behind it. -/
inductive Agrees (gap : List α) : Except SyntaxError (RawToken α × Cursor α) →
    Except SyntaxError (RawToken α × Cursor α) → Prop
  | error {e e' : SyntaxError} (h : e.cause = e'.cause) : Agrees gap (.error e) (.error e')
  | finish {t t' : RawToken α} {c c' : Cursor α} (h : t.bare = t'.bare) (heof : t'.kind = .eof) :
    Agrees gap (.ok (t, c)) (.ok (t', c'))
  | token {t t' : RawToken α} {c c' : Cursor α} (h : t.bare = t'.bare) (hne : t'.kind ≠ .eof)
    (hrest : c.rest = c'.rest ++ gap) : Agrees gap (.ok (t, c)) (.ok (t', c'))

/-- A token that ends within the text. -/
theorem Agrees.advance (w : List α) {kind : Kind} {text : List α} (hkind : kind ≠ .eof)
    {n : Nat} (hn : n ≤ w.length) : Agrees gap
      (.ok (⟨kind, text, k⟩, (⟨k, w ++ gap⟩ : Cursor α).advance n))
      (.ok (⟨kind, text, k'⟩, (⟨k', w⟩ : Cursor α).advance n)) :=
  .token rfl hkind (List.drop_append_of_le_length hn)

omit [Letter α] in
theorem takeWhile_append_gap {p : α → Bool} (h : ∀ a ∈ gap, p a = false) (w : List α) :
    (w ++ gap).takeWhile p = w.takeWhile p := by
  rw [List.takeWhile_append]
  split
  · next hall =>
    have hgap : gap.takeWhile p = [] := by
      cases gap with
      | nil => rfl
      | cons a gap =>
        rw [List.takeWhile_cons_of_neg]
        rw [h a List.mem_cons_self]
        exact Bool.false_ne_true
    rw [hgap, List.append_nil]
    exact ((List.takeWhile_prefix p).eq_of_length hall).symm
  · rfl

theorem begins_append_gap (hgap : Blank gap) {cs : List Char}
    (hcs : ∀ c ∈ cs, Text.isBlank c = false) (w : List α) :
    begins cs (w ++ gap) = begins cs w := by
  induction cs generalizing w with
  | nil => rfl
  | cons c cs ih =>
    rw [List.forall_mem_cons] at hcs
    cases w with
    | nil =>
      cases gap with
      | nil => rfl
      | cons b gap =>
        have hne : ¬ c = Letter.char b := by
          rintro rfl
          rw [hgap b List.mem_cons_self] at hcs
          exact absurd hcs.1 (by simp)
        show (decide (c = Letter.char b) && begins cs gap) = false
        rw [decide_eq_false hne, Bool.false_and]
    | cons b w => rw [List.cons_append, begins, begins, ih hcs.2]

theorem operators_blankless {o : String × Kind} (h : o ∈ operators) :
    ∀ a ∈ o.1.toList, Text.isBlank a = false := by
  have hall : operators.all (fun o => o.1.toList.all (!Text.isBlank ·)) = true := rfl
  intro a ha
  simpa using List.all_eq_true.mp (List.all_eq_true.mp hall o h) a ha

theorem operator?_append_gap (hgap : Blank gap) (w : List α) :
    operator? (w ++ gap) = operator? w :=
  List.find?_congr fun _ ho => begins_append_gap hgap (operators_blankless ho) w

theorem length_le_of_operator? {o : String × Kind} (h : operator? w = some o) :
    o.1.length ≤ w.length := by
  have hlength := (operator?_eq_some h).2.length_le
  rwa [String.length_toList, List.length_map] at hlength

/-- A label that is not closed is not closed by blanks. -/
theorem label_gap (hgap : Blank gap) (a : α) :
    Agrees gap (label ⟨k, a :: (w ++ gap)⟩) (label ⟨k', a :: w⟩) := by
  have hunbraced : ∀ b ∈ gap, Letter.char b ≠ '}' := by
    intro b hb hbrace
    have hblank := hgap b hb
    rw [hbrace] at hblank
    cases hblank
  rcases unbraced_or_split w with hw | ⟨body, b, rest, rfl, hbody, hb⟩
  · rw [label_open hw, label_open (List.forall_mem_append.mpr ⟨hw, hunbraced⟩)]
    exact .error rfl
  · have hshape : (body ++ b :: rest) ++ gap = body ++ b :: (rest ++ gap) := by simp
    rw [hshape, label_closed hbody hb, label_closed hbody hb, ← hshape, ← List.cons_append]
    split
    · exact .error rfl
    · refine .advance _ Kind.noConfusion ?_
      rw [List.length_cons, List.length_append, List.length_cons]
      omega

/-- A read at a letter that is no blank. -/
theorem next_gap_of_head (hgap : Blank gap) {a : α} (ha : Text.isBlank (Letter.char a) = false) :
    Agrees gap (next ⟨k, a :: (w ++ gap)⟩) (next ⟨k', a :: w⟩) := by
  have hbehind : operator? (a :: (w ++ gap)) = operator? (a :: w) := by
    rw [← List.cons_append, operator?_append_gap hgap]
  cases hop : operator? (a :: w) with
  | some o =>
    have hle := length_le_of_operator? hop
    rw [next_of_operator ha hop, next_of_operator ha (hbehind.trans hop), ← List.cons_append,
      List.take_append_of_le_length hle]
    exact .advance _ (operators_proper _ (operator?_eq_some hop).1).2.1 hle
  | none =>
    rw [next_of_no_operator ha hop, next_of_no_operator ha (hbehind.trans hop)]
    split
    · exact label_gap hgap a
    · split
      · exact .error rfl
      · have hword : ((a :: w) ++ gap).takeWhile (fun a => !isSpecial (Letter.char a)) =
            (a :: w).takeWhile fun a => !isSpecial (Letter.char a) := by
          refine takeWhile_append_gap (fun b hb => ?_) _
          rw [isSpecial, hgap b hb, Bool.or_true]
          rfl
        unfold word
        dsimp only
        rw [← List.cons_append, hword]
        exact .advance _ (wordKind_ne_eof _) (List.takeWhile_prefix _).length_le

/-- **A read does not see the blanks behind a text.** -/
theorem next_gap (hgap : Blank gap) (k k' : Nat) (w : List α) :
    Agrees gap (next ⟨k, w ++ gap⟩) (next ⟨k', w⟩) := by
  rcases blank_or_split w with hw | ⟨lead, a, v, rfl, hlead, ha⟩
  · rw [next_blanks hw, next_of_blank hgap, next_of_blank hw]
    exact .finish rfl rfl
  · rw [List.append_assoc, next_blanks hlead, next_blanks hlead]
    exact next_gap_of_head hgap ha

/-! ## Whole texts -/

theorem scanFrom_error {n : Nat} {c : Cursor α} {e : SyntaxError} (h : next c = .error e) :
    scanFrom n c = .error e := by
  cases n <;> simp [scanFrom, h, Except.map]

theorem scanFrom_finish {n : Nat} {c c' : Cursor α} {t : RawToken α} (h : next c = .ok (t, c'))
    (heof : t.kind = .eof) : scanFrom n c = .ok [t] := by
  cases n <;> simp [scanFrom, h, heof, Except.map]

theorem scanFrom_token {n : Nat} {c c' : Cursor α} {t : RawToken α} (h : next c = .ok (t, c'))
    (hne : t.kind ≠ .eof) : scanFrom (n + 1) c = (scanFrom n c').map (t :: ·) := by
  simp [scanFrom, h, hne]

omit [Letter α] in
theorem placeless_map_cons (t : RawToken α) (r : Except SyntaxError (List (RawToken α))) :
    placeless (List.map bare) (r.map (t :: ·)) =
      (placeless (List.map bare) r).map (t.bare :: ·) := by
  cases r <;> rfl

/-- Blanks behind a text do not change its tokens. -/
theorem scanFrom_gap (hgap : Blank gap) {m n : Nat} (hn : w.length ≤ n)
    (hm : (w ++ gap).length ≤ m) : placeless (List.map bare) (scanFrom m ⟨k, w ++ gap⟩) =
      placeless (List.map bare) (scanFrom n ⟨k', w⟩) := by
  induction n generalizing m w k k' with
  | zero =>
    obtain rfl : w = [] := List.eq_nil_of_length_eq_zero (Nat.le_zero.mp hn)
    rw [List.nil_append, scanFrom_finish (next_of_blank hgap k) rfl,
      scanFrom_finish (next_nil k') rfl]
    rfl
  | succ n ih =>
    have hagrees := next_gap hgap k k' w
    generalize hleft : next ⟨k, w ++ gap⟩ = left at hagrees
    generalize hright : next ⟨k', w⟩ = right at hagrees
    cases hagrees with
    | error h =>
      rw [scanFrom_error hleft, scanFrom_error hright, placeless, placeless, h]
    | @finish t t' c c' h heof =>
      rw [scanFrom_finish hleft ((kind_eq_of_bare h).trans heof), scanFrom_finish hright heof]
      exact congrArg (fun t => Except.ok [t]) h
    | @token t t' c c' h hne hrest =>
      have hne' : t.kind ≠ .eof := kind_eq_of_bare h ▸ hne
      have hmoves := (next_moves hleft).resolve_left hne'
      have hmoves' := (next_moves hright).resolve_left hne
      dsimp only at hmoves hmoves'
      obtain ⟨m, rfl⟩ : ∃ m', m = m' + 1 := ⟨m - 1, by omega⟩
      rw [scanFrom_token hleft hne', scanFrom_token hright hne, placeless_map_cons,
        placeless_map_cons, h]
      have hc : c = ⟨c.column, c'.rest ++ gap⟩ := by rw [← hrest]
      rw [hrest] at hmoves
      rw [hc]
      exact congrArg (Except.map (t'.bare :: ·)) (ih (by omega) (by omega))

/-- Blanks on both sides of a text do not change its tokens. -/
theorem scan_edges (hlead : Blank lead) (hgap : Blank gap) (w : List α) :
    placeless (List.map bare) (scan w) =
      placeless (List.map bare) (scan (lead ++ (w ++ gap))) := by
  have hlength : (w ++ gap).length ≤ (lead ++ (w ++ gap)).length :=
    (List.suffix_append lead _).length_le
  have hstart : scan (lead ++ (w ++ gap)) =
      scanFrom (lead ++ (w ++ gap)).length ⟨1 + Letter.widthAll lead, w ++ gap⟩ := by
    unfold scan
    cases (lead ++ (w ++ gap)).length with
    | zero => rw [scanFrom, scanFrom, next_blanks hlead]
    | succ n => rw [scanFrom, scanFrom, next_blanks hlead]
  rw [hstart]
  exact (scanFrom_gap hgap (Nat.le_refl _) hlength).symm

end RawToken

namespace Token

/-- The token, wherever it stands. -/
def bare (t : Token) : Token :=
  { t with column := 1 }

@[simp] theorem kind_bare (t : Token) : t.bare.kind = t.kind :=
  rfl

@[simp] theorem text_bare (t : Token) : t.bare.text = t.text :=
  rfl

theorem placeless_map_ofRaw (r : Except SyntaxError (List (RawToken Char))) :
    placeless (List.map bare) (r.map (List.map ofRaw)) =
      (placeless (List.map RawToken.bare) r).map (List.map ofRaw) := by
  cases r with
  | error e => rfl
  | ok ts =>
    show Except.ok _ = Except.ok _
    rw [List.map_map, List.map_map]
    rfl

/-- **Trimming does not change the tokens of a text**, nor the error if it has none. -/
theorem scan_trim (s : String) : placeless (List.map bare) (scan (Text.trim s)) =
    placeless (List.map bare) (scan s) := by
  obtain ⟨lead, gap, hs, hlead, hgap⟩ := Text.exists_edges s
  rw [scan, scan, placeless_map_ofRaw, placeless_map_ofRaw, hs,
    RawToken.scan_edges hlead hgap (Text.trim s).toList]

end Token

end PetriReach
