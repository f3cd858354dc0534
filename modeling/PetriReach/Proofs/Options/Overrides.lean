import Mathlib.Data.List.TakeWhile
import PetriReach.Proofs.Options.Flags

/-!
# Options given more than once

An option with values may stand on a command line more than once, and then its last occurrence
decides: the earlier ones can be struck out, with their values, and the line still gives the same
options. The methods are the exception. A later choice of methods replaces an earlier one, but not
the wish for the dummy, which is lost if the occurrence that expresses it is struck out.

* `Options.cut`: a command line as a list of options with their values.
* `Options.parse_eq`: the options are read from this list, one after the other.
* `Options.strike`: the line without the earlier occurrences of an option.
* `Options.foldlM_lastOnly`, `Options.foldlM_lastOnly_methods`: what becomes of the items.
* `Options.parse_strike`: what becomes of the options.
-/

namespace PetriReach

/-- All elements, but of those with the property `p` only the last. -/
def lastOnly {α : Type} (p : α → Bool) : List α → List α
  | [] => []
  | a :: as => if p a && as.any p then lastOnly p as else a :: lastOnly p as

section LastOnly

variable {α β : Type} {p : α → Bool}

theorem lastOnly_of_any_eq_false {as : List α} (h : as.any p = false) : lastOnly p as = as := by
  induction as with
  | nil => rfl
  | cons a as ih =>
    rw [List.any_cons, Bool.or_eq_false_iff] at h
    rw [lastOnly, h.1, Bool.false_and, if_neg Bool.false_ne_true, ih h.2]

theorem lastOnly_sublist (as : List α) : (lastOnly p as).Sublist as := by
  induction as with
  | nil => exact .slnil
  | cons a as ih =>
    unfold lastOnly
    split
    · exact ih.cons a
    · exact ih.cons_cons a

theorem lastOnly_map (f : β → α) (bs : List β) :
    lastOnly p (bs.map f) = (lastOnly (p ∘ f) bs).map f := by
  induction bs with
  | nil => rfl
  | cons b bs ih =>
    simp only [List.map_cons, lastOnly, List.any_map, ih, Function.comp_apply]
    split
    · rfl
    · rfl

theorem lastOnly_congr {q : α → Bool} {as : List α} (h : ∀ a ∈ as, p a = q a) :
    lastOnly p as = lastOnly q as := by
  induction as with
  | nil => rfl
  | cons a as ih =>
    rw [List.forall_mem_cons] at h
    have hany : as.any p = as.any q := by
      rw [Bool.eq_iff_iff, List.any_eq_true, List.any_eq_true]
      refine exists_congr fun b => and_congr_right fun hb => ?_
      rw [h.2 b hb]
    rw [lastOnly, lastOnly, h.1, hany, ih h.2]

end LastOnly

namespace Options

/-! ## Options with their values -/

/-- The options that take values. -/
inductive Setting where
  | net | formula | formulaFile | methods | timeout | encoding | solver | command
  deriving DecidableEq, Repr

/-- The option with values that a word stands for. -/
def Setting.ofWord? (w : String) : Option Setting :=
  match w with
  | "--net" | "-n" => some .net
  | "--formula" | "-f" => some .formula
  | "--formula-file" | "-ff" => some .formulaFile
  | "--methods" => some .methods
  | "--timeout" => some .timeout
  | "--encoding" => some .encoding
  | "--solver" => some .solver
  | "--solver-cmd" => some .command
  | _ => none

/-- The option with values that an item belongs to. -/
def Item.setting? : Item → Option Setting
  | .net _ => some .net
  | .formula _ => some .formula
  | .formulaFile _ => some .formulaFile
  | .methods _ _ => some .methods
  | .timeout _ => some .timeout
  | .encoding _ => some .encoding
  | .solver _ => some .solver
  | .command _ => some .command
  | _ => none

/-- A word that begins with a dash. -/
def Dashed (w : String) : Prop :=
  w.toList.head? = some '-'

instance : DecidablePred Dashed :=
  fun _ => inferInstanceAs (Decidable (_ = _))

/-- The values among the words behind an option: the first of them, or all the words up to the next
that begins with a dash. -/
def valuesBehind (w : String) (rest : List String) : List String :=
  match Setting.ofWord? w with
  | none => []
  | some .methods => rest.takeWhile (¬ Dashed ·)
  | some _ => rest.take 1

/-- An option where it stands on a command line, with its values. -/
structure Occurrence where
  word : String
  values : List String
  deriving DecidableEq, Repr

namespace Occurrence

/-- The words that the option takes up. -/
def words (x : Occurrence) : List String :=
  x.word :: x.values

/-- The option with values that this is. -/
def setting? (x : Occurrence) : Option Setting :=
  Setting.ofWord? (Text.beforeNul x.word)

/-- What the option says. -/
def read (x : Occurrence) : Except UsageError Item :=
  (readItem (Text.beforeNul x.word) (x.values.map Text.beforeNul)).map (·.1)

/-- The dummy is among the methods that the option names. -/
def AsksDummy (x : Occurrence) : Prop :=
  x.setting? = some .methods ∧ "DUMMY" ∈ x.values.map Text.beforeNul

instance : DecidablePred AsksDummy :=
  fun _ => inferInstanceAs (Decidable (_ ∧ _))

end Occurrence

/-- Cuts words into at most `n` options. -/
def cutFrom : Nat → List String → List Occurrence
  | n + 1, w :: rest =>
    let values := valuesBehind (Text.beforeNul w) rest
    ⟨w, values⟩ :: cutFrom n (rest.drop values.length)
  | _, _ => []

/-- A command line as a list of options with their values. -/
def cut (words : List String) : List Occurrence :=
  cutFrom words.length words

/-- The command line without the earlier occurrences of an option, and without their values. -/
def strike (k : Setting) (words : List String) : List String :=
  (lastOnly (·.setting? = some k) (cut words)).flatMap Occurrence.words

/-- The options with one more of those on the command line. -/
def take (o : Options) (x : Occurrence) : Except UsageError Options := do
  o.apply (← x.read)

/-! ## Reading one option -/

variable {o o' : Options} {w v : String} {rest left words : List String} {item : Item}

/-- What a word, the words behind it and the item that is read from them tell about each other. -/
structure Item.Fits (item : Item) (w : String) (rest : List String) : Prop where
  dashed : Dashed w
  setting? : item.setting? = Setting.ofWord? w
  /-- Only an option without a value, or with any number of them, is read from no words. -/
  valueless : rest = [] → Setting.ofWord? w = none ∨ Setting.ofWord? w = some .methods

theorem fits_of_readItem (h : readItem w rest = .ok (item, left)) : item.Fits w rest := by
  -- an option with a value
  have hvalue : ∀ {read : String → Except UsageError Item},
      withValue w rest read = .ok (item, left) →
      (∀ v, read v = .ok item → item.setting? = Setting.ofWord? w) → Dashed w →
      item.Fits w rest := by
    intro read hread hsetting hdashed
    obtain ⟨v, rfl, hv⟩ := withValue_ok hread
    exact ⟨hdashed, hsetting v hv, fun hnil => by cases hnil⟩
  unfold readItem at h
  split at h
  case h_1 | h_2 | h_3 | h_4 | h_16 | h_17 | h_18 | h_19 =>
    cases h
    exact ⟨by decide, rfl, fun _ => .inl rfl⟩
  case h_5 | h_6 | h_7 | h_8 | h_9 | h_10 =>
    refine hvalue h (fun v hv => ?_) (by decide)
    cases hv
    rfl
  case h_11 =>
    obtain ⟨⟨ms, dummy⟩, -, h⟩ := exists_of_map_ok h
    cases h
    exact ⟨by decide, rfl, fun _ => .inr rfl⟩
  case h_12 =>
    refine hvalue h (fun v hv => ?_) (by decide)
    obtain ⟨n, rfl⟩ := exists_of_readTimeout hv
    rfl
  case h_13 =>
    refine hvalue h (fun v hv => ?_) (by decide)
    obtain ⟨e, rfl⟩ := exists_of_readEncoding hv
    rfl
  case h_14 =>
    refine hvalue h (fun v hv => ?_) (by decide)
    obtain ⟨kind, rfl⟩ := exists_of_readSolver hv
    rfl
  case h_15 =>
    refine hvalue h (fun v hv => ?_) (by decide)
    obtain ⟨ws, rfl⟩ := exists_of_readCommand hv
    rfl
  case h_20 => cases h

theorem withValue_take (rest : List String) (read : String → Except UsageError Item) :
    withValue w rest read = (withValue w (rest.take 1) read).map fun r =>
      (r.1, rest.drop (rest.take 1).length) := by
  cases rest with
  | nil => rfl
  | cons v rest =>
    show (read v).map _ = ((read v).map _).map _
    cases read v with
    | error e => rfl
    | ok item => rfl

/-- **An option is read from its values**, and leaves the words behind them. -/
theorem readItem_eq (w : String) (rest : List String) : readItem w rest =
    (readItem w (valuesBehind w rest)).map fun r =>
      (r.1, rest.drop (valuesBehind w rest).length) := by
  unfold readItem
  split
  case h_5 | h_6 | h_7 | h_8 | h_9 | h_10 | h_12 | h_13 | h_14 | h_15 => exact withValue_take rest _
  case h_11 =>
    show (readMethods (rest.takeWhile (¬ Dashed ·))).map _ =
      ((readMethods ((rest.takeWhile (¬ Dashed ·)).takeWhile (¬ Dashed ·))).map _).map _
    rw [List.takeWhile_idem]
    cases readMethods (rest.takeWhile (¬ Dashed ·)) with
    | error e => rfl
    | ok r => rfl
  all_goals rfl

/-! ## Cutting a command line -/

theorem valuesBehind_of_ne_methods {k : Setting} (h : Setting.ofWord? w = some k)
    (hk : k ≠ .methods) (rest : List String) : valuesBehind w rest = rest.take 1 := by
  unfold valuesBehind
  rw [h]
  cases k with
  | methods => exact absurd rfl hk
  | _ => rfl

theorem dashed_beforeNul : Dashed (Text.beforeNul w) ↔ Dashed w := by
  unfold Dashed Text.beforeNul
  rw [String.toList_ofList]
  cases w.toList with
  | nil => rfl
  | cons c cs =>
    by_cases hc : c = '\x00'
    · simp [hc]
    · simp [hc]

theorem valuesBehind_map (w : String) (rest : List String) :
    valuesBehind w (rest.map Text.beforeNul) = (valuesBehind w rest).map Text.beforeNul := by
  unfold valuesBehind
  split
  · rfl
  · rw [List.takeWhile_map]
    refine congrArg (fun p => (rest.takeWhile p).map Text.beforeNul) (funext fun v => ?_)
    rw [Function.comp_apply, Bool.eq_iff_iff, decide_eq_true_iff, decide_eq_true_iff,
      dashed_beforeNul]
  · exact (List.map_take ..).symm

/-- **The options are read one after the other.** -/
theorem readFrom_eq (n : Nat) (o : Options) (words : List String) :
    readFrom n o (words.map Text.beforeNul) = (cutFrom n words).foldlM take o := by
  induction n generalizing o words with
  | zero => rfl
  | succ n ih =>
    cases words with
    | nil => rfl
    | cons w rest =>
      rw [List.map_cons, readFrom, readItem_eq, valuesBehind_map, List.length_map, ← List.map_drop,
        cutFrom, List.foldlM_cons, take, Occurrence.read]
      dsimp only
      cases readItem (Text.beforeNul w)
          ((valuesBehind (Text.beforeNul w) rest).map Text.beforeNul) with
      | error e => rfl
      | ok r =>
        dsimp only [Except.map, bind, Except.bind]
        cases o.apply r.1 with
        | error e => rfl
        | ok o₁ => exact ih o₁ _

theorem parse_eq (words : List String) :
    parse words = (cut words).foldlM take {} >>= validate := by
  unfold parse ofWords cut
  rw [List.length_map, readFrom_eq]

/-- The option does not take up words behind its values. -/
def Occurrence.Closed (x : Occurrence) : Prop :=
  Dashed x.word ∧ ∀ rest, (∀ v ∈ rest.head?, Dashed v) →
    valuesBehind (Text.beforeNul x.word) (x.values ++ rest) = x.values

theorem mem_cutFrom {n : Nat} {x : Occurrence} (h : x ∈ cutFrom n words) :
    ∃ rest, x.values = valuesBehind (Text.beforeNul x.word) rest := by
  induction n generalizing words with
  | zero => cases h
  | succ n ih =>
    cases words with
    | nil => cases h
    | cons w rest =>
      obtain rfl | h := List.mem_cons.mp h
      · exact ⟨rest, rfl⟩
      · exact ih h

theorem Occurrence.closed_of_read {n : Nat} {x : Occurrence} (hx : x ∈ cutFrom n words)
    (h : x.read = .ok item) : x.Closed := by
  obtain ⟨⟨item', left⟩, h, -⟩ := exists_of_map_ok h
  obtain ⟨rest₀, hvalues⟩ := mem_cutFrom hx
  refine ⟨dashed_beforeNul.mp (fits_of_readItem h).dashed, fun rest hrest => ?_⟩
  cases hk : Setting.ofWord? (Text.beforeNul x.word) with
  | none => rw [hvalues, valuesBehind, valuesBehind, hk]
  | some k =>
    by_cases hmethods : k = .methods
    · subst hmethods
      unfold valuesBehind at hvalues ⊢
      rw [hk] at hvalues ⊢
      dsimp only at hvalues ⊢
      have hall : ∀ v ∈ x.values, decide (¬ Dashed v) = true := by
        intro v hv
        rw [hvalues] at hv
        exact List.mem_takeWhile_imp (p := fun v => decide (¬ Dashed v)) hv
      rw [List.takeWhile_append_of_pos hall]
      cases rest with
      | nil => rw [List.takeWhile_nil, List.append_nil]
      | cons v rest =>
        rw [List.takeWhile_cons_of_neg (by simpa using hrest v rfl), List.append_nil]
    · rw [valuesBehind_of_ne_methods hk hmethods] at hvalues ⊢
      cases rest₀ with
      | nil =>
        -- the value is there, as the option was read
        rw [hvalues] at h
        obtain hk' | hk' := (fits_of_readItem h).valueless rfl
        · rw [hk] at hk'
          cases hk'
        · exact absurd (Option.some.inj (hk.symm.trans hk')) hmethods
      | cons v rest₀ =>
        rw [hvalues]
        rfl

theorem cutFrom_flatMap {xs : List Occurrence} (h : ∀ x ∈ xs, x.Closed) {n : Nat}
    (hn : xs.length ≤ n) : cutFrom n (xs.flatMap Occurrence.words) = xs := by
  induction xs generalizing n with
  | nil => cases n <;> rfl
  | cons x xs ih =>
    rw [List.forall_mem_cons] at h
    obtain ⟨⟨-, hx⟩, hxs⟩ := h
    obtain ⟨n, rfl⟩ : ∃ m, n = m + 1 := ⟨n - 1, by rw [List.length_cons] at hn; omega⟩
    have hhead : ∀ v ∈ (xs.flatMap Occurrence.words).head?, Dashed v := by
      cases xs with
      | nil => exact fun v hv => by cases hv
      | cons y ys =>
        intro v hv
        cases hv
        exact (hxs y List.mem_cons_self).1
    show cutFrom (n + 1) (x.word :: (x.values ++ xs.flatMap Occurrence.words)) = x :: xs
    rw [cutFrom, hx _ hhead, List.drop_left, ih hxs (Nat.le_of_succ_le_succ hn)]

theorem length_le_length_flatMap (xs : List Occurrence) :
    xs.length ≤ (xs.flatMap Occurrence.words).length := by
  induction xs with
  | nil => exact Nat.le_refl 0
  | cons x xs ih =>
    rw [List.flatMap_cons, List.length_append, List.length_cons, Occurrence.words, List.length_cons]
    omega

/-- Options that do not take up each other's words make up a line of their own. -/
theorem cut_flatMap {xs : List Occurrence} (h : ∀ x ∈ xs, x.Closed) :
    cut (xs.flatMap Occurrence.words) = xs :=
  cutFrom_flatMap h (length_le_length_flatMap xs)

/-! ## Items of an option whose last value counts -/

/-- The item belongs to an option. -/
def Item.isOf (k : Setting) (item : Item) : Bool :=
  item.setting? = some k

/-- The options as if one of them had not been given a value yet. -/
def reset (k : Setting) (o : Options) : Options :=
  match k with
  | .net => { o with net := "" }
  | .formula => { o with formula := "" }
  | .formulaFile => { o with formulaFile := "" }
  | .methods => { o with methods := [], dummy := false }
  | .timeout => { o with timeout := 0 }
  | .encoding => { o with encoding := .integer }
  | .solver => { o with config := { o.config with kind := .process } }
  | .command => { o with config := { o.config with command := [] } }

section LastValue

variable {k : Setting} {items : List Item}

/-- An item of another option does not touch the value. -/
theorem apply_reset_of_not_isOf (h : item.isOf k = false) :
    (o.reset k).apply item = (o.apply item).map (reset k) := by
  cases item with
  | methods ms dummy =>
    cases k with
    | methods => cases h
    | _ =>
      unfold apply
      dsimp only [reset]
      split
      · rfl
      · rfl
  | _ => cases k <;> first | rfl | cases h

/-- An item of the option puts its own value in the place of the one that is there. -/
theorem apply_reset_of_isOf (h : item.isOf k = true) (hk : k ≠ .methods) :
    (o.reset k).apply item = o.apply item := by
  cases item with
  | methods ms dummy => cases k <;> first | exact absurd rfl hk | cases h
  | _ => cases k <;> first | rfl | cases h

theorem reset_of_apply (h : item.isOf k = true) (happly : o.apply item = .ok o') :
    o'.reset k = o.reset k := by
  cases item with
  | methods ms dummy =>
    unfold apply at happly
    dsimp only at happly
    split at happly
    · cases happly
    · cases k <;> first | cases happly; rfl | cases h
  | _ => cases k <;> first | cases happly; rfl | cases h

theorem exists_apply_of_isOf (h : item.isOf k = true) (hk : k ≠ .methods) :
    ∃ o', o.apply item = .ok o' := by
  cases item with
  | methods ms dummy => cases k <;> first | exact absurd rfl hk | cases h
  | _ => exact ⟨_, rfl⟩

/-- What the value was before does not matter if the option is still to come. -/
theorem foldlM_reset (hk : k ≠ .methods) (h : items.any (·.isOf k) = true) :
    items.foldlM apply (o.reset k) = items.foldlM apply o := by
  induction items generalizing o with
  | nil => cases h
  | cons item items ih =>
    rw [List.foldlM_cons, List.foldlM_cons]
    by_cases hitem : item.isOf k = true
    · rw [apply_reset_of_isOf hitem hk]
    · rw [List.any_cons, Bool.or_eq_true, or_iff_right hitem] at h
      rw [apply_reset_of_not_isOf (Bool.eq_false_iff.mpr hitem)]
      cases o.apply item with
      | error e => rfl
      | ok o₁ => exact ih h

/-- **The last item of an option counts**: the earlier ones can be left out. -/
theorem foldlM_lastOnly (hk : k ≠ .methods) (o : Options) (items : List Item) :
    (lastOnly (·.isOf k) items).foldlM apply o = items.foldlM apply o := by
  induction items generalizing o with
  | nil => rfl
  | cons item items ih =>
    unfold lastOnly
    split
    · next hitem =>
      rw [Bool.and_eq_true] at hitem
      obtain ⟨o₁, happly⟩ := exists_apply_of_isOf (o := o) hitem.1 hk
      calc (lastOnly (·.isOf k) items).foldlM apply o
        _ = items.foldlM apply o := ih o
        _ = items.foldlM apply (o.reset k) := (foldlM_reset hk hitem.2).symm
        _ = items.foldlM apply (o₁.reset k) := by rw [reset_of_apply hitem.1 happly]
        _ = items.foldlM apply o₁ := foldlM_reset hk hitem.2
        _ = (item :: items).foldlM apply o := by rw [List.foldlM_cons, happly]; rfl
    · rw [List.foldlM_cons, List.foldlM_cons]
      exact congrArg (o.apply item >>= ·) (funext fun o₁ => ih o₁)

end LastValue

/-! ## The methods and the dummy -/

section Methods

variable {items : List Item} {ms : List Method} {dummy : Bool}

/-- The options with a choice of methods. -/
def choose (o : Options) (ms : List Method) (dummy : Bool) : Options :=
  { o with methods := ms, dummy }

/-- The item asks for the dummy. -/
def Item.asksDummy : Item → Bool
  | .methods _ dummy => dummy
  | _ => false

theorem asksDummy_of_not_isOf (h : item.isOf .methods = false) : item.asksDummy = false := by
  cases item with
  | methods ms dummy => cases h
  | _ => rfl

theorem apply_choose_of_not_isOf (h : item.isOf .methods = false) :
    (o.choose ms dummy).apply item = (o.apply item).map (·.choose ms dummy) := by
  cases item with
  | methods ms dummy => cases h
  | _ => rfl

theorem foldlM_choose (h : items.any (·.isOf .methods) = false) :
    items.foldlM apply (o.choose ms dummy) = (items.foldlM apply o).map (·.choose ms dummy) := by
  induction items generalizing o with
  | nil => rfl
  | cons item items ih =>
    rw [List.any_cons, Bool.or_eq_false_iff] at h
    rw [List.foldlM_cons, List.foldlM_cons, apply_choose_of_not_isOf h.1]
    cases o.apply item with
    | error e => rfl
    | ok o₁ => exact ih h.2

theorem apply_methods_ok {ms' : List Method} {d : Bool} (h : o.apply (.methods ms' d) = .ok o') :
    o' = o.choose ms' (o.dummy || d) ∧ (ms' ≠ [] ∨ (o.dummy || d) = true) := by
  unfold apply at h
  dsimp only at h
  split at h
  · cases h
  · next hchosen =>
    refine ⟨(Except.ok.inj h).symm, ?_⟩
    rw [Bool.and_eq_true, Bool.not_eq_true', List.isEmpty_iff] at hchosen
    by_cases hms : ms' = []
    · exact .inr (Bool.not_eq_false _ |>.mp fun hd => hchosen ⟨hms, hd⟩)
    · exact .inl hms

theorem any_asksDummy_of_any_isOf (h : items.any (·.isOf .methods) = false) :
    items.any Item.asksDummy = false := by
  rw [List.any_eq_false] at h ⊢
  intro item hitem
  rw [asksDummy_of_not_isOf (Bool.eq_false_iff.mpr (h item hitem))]
  exact Bool.false_ne_true

/-- The options that are left of a choice of methods: the dummy is chosen only if it is asked for,
and a choice without a method must ask for it. -/
def choice (o : Options) (dummy : Bool) : Except UsageError Options :=
  if o.methods.isEmpty && !dummy then .error .noMethod else .ok { o with dummy }

theorem choice_dummy (h : o.methods ≠ [] ∨ o.dummy = true) : o.choice o.dummy = .ok o := by
  unfold choice
  rw [if_neg]
  rw [Bool.and_eq_true, Bool.not_eq_true', List.isEmpty_iff]
  rintro ⟨hmethods, hdummy⟩
  obtain h | h := h
  · exact h hmethods
  · rw [h] at hdummy
    cases hdummy

theorem choice_false : o.choice false =
    if o.methods = [] then .error .noMethod else .ok { o with dummy := false } := by
  unfold choice
  rw [Bool.not_false, Bool.and_true]
  exact if_congr List.isEmpty_iff rfl rfl

/-- **The last choice of methods counts, but not the wish for the dummy**: it is lost with the items
that are left out. -/
theorem foldlM_lastOnly_methods (h : items.foldlM apply o = .ok o')
    (hany : items.any (·.isOf .methods) = true) (ms₀ : List Method) (dummy₀ : Bool) :
    (lastOnly (·.isOf .methods) items).foldlM apply (o.choose ms₀ dummy₀) =
      o'.choice (dummy₀ || (lastOnly (·.isOf .methods) items).any Item.asksDummy) := by
  induction items generalizing o with
  | nil => cases hany
  | cons item items ih =>
    rw [List.foldlM_cons] at h
    obtain ⟨o₁, happly, h⟩ := exists_of_bind_ok h
    by_cases hitem : item.isOf .methods = true
    · obtain ⟨ms', d, rfl⟩ : ∃ ms' d, item = .methods ms' d := by
        cases item with
        | methods ms' d => exact ⟨ms', d, rfl⟩
        | _ => cases hitem
      obtain ⟨rfl, -⟩ := apply_methods_ok happly
      by_cases hmore : items.any (·.isOf .methods) = true
      · -- the choice is made again later
        rw [lastOnly, hitem, hmore, Bool.true_and, if_pos rfl]
        have hlater := ih h hmore
        exact hlater
      · -- this choice is the last one
        rw [Bool.not_eq_true] at hmore
        rw [lastOnly, hmore, Bool.and_false, if_neg Bool.false_ne_true,
          lastOnly_of_any_eq_false hmore, List.any_cons, any_asksDummy_of_any_isOf hmore,
          Bool.or_false, List.foldlM_cons]
        rw [foldlM_choose hmore] at h
        obtain ⟨o₂, hrest, rfl⟩ := exists_of_map_ok h
        show (if ms'.isEmpty && !(dummy₀ || d) then .error .noMethod
          else .ok (o.choose ms' (dummy₀ || d)) : Except UsageError Options) >>= _ =
          if ms'.isEmpty && !(dummy₀ || d) then .error .noMethod
          else .ok (o₂.choose ms' (dummy₀ || d))
        split
        · rfl
        · show items.foldlM apply (o.choose ms' (dummy₀ || d)) = _
          rw [foldlM_choose hmore, hrest]
          rfl
    · rw [List.any_cons, Bool.or_eq_true, or_iff_right hitem] at hany
      rw [Bool.not_eq_true] at hitem
      rw [lastOnly, hitem, Bool.false_and, if_neg Bool.false_ne_true, List.foldlM_cons,
        apply_choose_of_not_isOf hitem, happly, List.any_cons, asksDummy_of_not_isOf hitem,
        Bool.false_or]
      exact ih h hany

theorem asksDummy_iff : item.asksDummy = true ↔ item.flag? = some .dummy := by
  cases item with
  | methods ms dummy => cases dummy <;> simp [Item.asksDummy, Item.flag?]
  | _ => simp [Item.asksDummy, Item.flag?]

/-- The dummy is chosen if an item asks for it, and no choice is empty. -/
theorem dummy_of_foldlM (h : items.foldlM apply o = .ok o') :
    (o'.dummy = true ↔ o.dummy = true ∨ items.any Item.asksDummy = true) ∧
      (o.methods ≠ [] ∨ o.dummy = true → o'.methods ≠ [] ∨ o'.dummy = true) := by
  induction items generalizing o with
  | nil =>
    cases h
    simp
  | cons item items ih =>
    rw [List.foldlM_cons] at h
    obtain ⟨o₁, happly, h⟩ := exists_of_bind_ok h
    obtain ⟨hdummy, hchosen⟩ := ih h
    have hraised : o₁.dummy = true ↔ o.dummy = true ∨ item.flag? = some .dummy :=
      raised_apply (k := .dummy) happly
    refine ⟨?_, fun ho => hchosen ?_⟩
    · rw [hdummy, hraised, List.any_cons, Bool.or_eq_true, asksDummy_iff, or_assoc]
    · cases item with
      | methods ms' d =>
        obtain ⟨rfl, hmethods⟩ := apply_methods_ok happly
        exact hmethods
      | _ =>
        cases happly
        exact ho

end Methods

/-! ## Striking out the earlier occurrences -/

/-- The options on a command line read as these items. -/
def Holds (words : List String) (items : List Item) : Prop :=
  ∃ pairs : List (Occurrence × Item), pairs.map (·.1) = cut words ∧ pairs.map (·.2) = items ∧
    ∀ pair ∈ pairs, pair.1.read = .ok pair.2

/-- An option on the command line asks for the dummy. -/
def AsksDummy (words : List String) : Prop :=
  ∃ x ∈ cut words, x.AsksDummy

instance : DecidablePred AsksDummy :=
  fun _ => inferInstanceAs (Decidable (∃ x ∈ _, _))

/-- The occurrences of an option that are struck out ask for the dummy, and the last does not. -/
def LosesDummy (k : Setting) (words : List String) : Prop :=
  k = .methods ∧ AsksDummy words ∧ ¬ AsksDummy (strike k words)

instance (k : Setting) : DecidablePred (LosesDummy k) :=
  fun _ => inferInstanceAs (Decidable (_ ∧ _ ∧ ¬ _))

section Strike

variable {k : Setting} {items : List Item} {x : Occurrence}

theorem exists_items_of_foldlM {xs : List Occurrence} (h : xs.foldlM take o = .ok o') :
    ∃ pairs : List (Occurrence × Item), pairs.map (·.1) = xs ∧
      ∀ pair ∈ pairs, pair.1.read = .ok pair.2 := by
  induction xs generalizing o with
  | nil => exact ⟨[], rfl, fun _ h => by cases h⟩
  | cons x xs ih =>
    rw [List.foldlM_cons] at h
    obtain ⟨o₁, htake, h⟩ := exists_of_bind_ok h
    obtain ⟨item, hread, -⟩ := exists_of_bind_ok htake
    obtain ⟨pairs, hpairs, hall⟩ := ih h
    exact ⟨(x, item) :: pairs, congrArg (x :: ·) hpairs, List.forall_mem_cons.mpr ⟨hread, hall⟩⟩

theorem foldlM_take {pairs : List (Occurrence × Item)}
    (h : ∀ pair ∈ pairs, pair.1.read = .ok pair.2) (o : Options) :
    (pairs.map (·.1)).foldlM take o = (pairs.map (·.2)).foldlM apply o := by
  induction pairs generalizing o with
  | nil => rfl
  | cons pair pairs ih =>
    rw [List.forall_mem_cons] at h
    rw [List.map_cons, List.map_cons, List.foldlM_cons, List.foldlM_cons, take, h.1]
    show o.apply pair.2 >>= _ = o.apply pair.2 >>= _
    exact congrArg (o.apply pair.2 >>= ·) (funext fun o₁ => ih h.2 o₁)

theorem Occurrence.setting?_of_read (h : x.read = .ok item) : item.setting? = x.setting? := by
  obtain ⟨⟨item', left⟩, hitem, rfl⟩ := exists_of_map_ok h
  exact (fits_of_readItem hitem).setting?

theorem ofWord?_eq_methods (h : Setting.ofWord? w = some .methods) : w = "--methods" := by
  unfold Setting.ofWord? at h
  split at h
  case h_7 => rfl
  all_goals cases h

theorem Occurrence.asksDummy_of_read (hclosed : x.Closed) (h : x.read = .ok item) :
    x.AsksDummy ↔ item.asksDummy = true := by
  obtain ⟨⟨item', left⟩, hitem, rfl⟩ := exists_of_map_ok h
  have hvalues : valuesBehind (Text.beforeNul x.word) (x.values.map Text.beforeNul) =
      x.values.map Text.beforeNul := by
    rw [valuesBehind_map, ← List.append_nil x.values, hclosed.2 [] (fun _ h => by cases h),
      List.append_nil]
  rw [asksDummy_iff, (readItem_ok (k := .dummy) hitem).2]
  constructor
  · rintro ⟨hword, hdummy⟩
    have hmethods := ofWord?_eq_methods hword
    rw [hmethods] at hvalues
    refine ⟨hmethods, ?_⟩
    rw [← hvalues] at hdummy
    exact hdummy
  · rintro ⟨hword, hdummy⟩
    rw [hword] at hvalues
    refine ⟨congrArg Setting.ofWord? hword, ?_⟩
    rw [← hvalues]
    exact hdummy

theorem holds_of_parse (h : parse words = .ok o) :
    ∃ items, Holds words items ∧ items.foldlM apply {} = .ok o ∧ o.validate = .ok o := by
  rw [parse_eq] at h
  obtain ⟨o₁, hfold, hvalid⟩ := exists_of_bind_ok h
  obtain rfl := validate_ok hvalid
  obtain ⟨pairs, hpairs, hread⟩ := exists_items_of_foldlM hfold
  rw [← hpairs, foldlM_take hread] at hfold
  exact ⟨pairs.map (·.2), ⟨pairs, hpairs, rfl, hread⟩, hfold, hvalid⟩

theorem Holds.parse (h : Holds words items) :
    parse words = items.foldlM apply {} >>= validate := by
  obtain ⟨pairs, hpairs, rfl, hread⟩ := h
  rw [parse_eq, ← hpairs, foldlM_take hread]

theorem Holds.asksDummy (h : Holds words items) :
    AsksDummy words ↔ items.any Item.asksDummy = true := by
  obtain ⟨pairs, hpairs, rfl, hread⟩ := h
  have hpair : ∀ pair ∈ pairs, pair.1.AsksDummy ↔ pair.2.asksDummy = true := by
    intro pair hpair
    have hmem : pair.1 ∈ cut words := hpairs ▸ List.mem_map_of_mem hpair
    have hclosed := Occurrence.closed_of_read hmem (hread pair hpair)
    exact Occurrence.asksDummy_of_read hclosed (hread pair hpair)
  unfold AsksDummy
  rw [← hpairs, List.any_map, List.any_eq_true]
  constructor
  · rintro ⟨x, hx, hasks⟩
    obtain ⟨pair, hmem, rfl⟩ := List.mem_map.mp hx
    exact ⟨pair, hmem, (hpair pair hmem).mp hasks⟩
  · rintro ⟨pair, hmem, hasks⟩
    exact ⟨pair.1, List.mem_map_of_mem hmem, (hpair pair hmem).mpr hasks⟩

/-- What is left of the line is read as what is left of the items. -/
theorem Holds.strike (h : Holds words items) (k : Setting) :
    Holds (strike k words) (lastOnly (·.isOf k) items) := by
  obtain ⟨pairs, hpairs, rfl, hread⟩ := h
  have hsub : (lastOnly (·.2.isOf k) pairs).Sublist pairs := lastOnly_sublist pairs
  have hlast : lastOnly (·.setting? = some k) (cut words) =
      (lastOnly (·.2.isOf k) pairs).map (·.1) := by
    rw [← hpairs, lastOnly_map]
    refine congrArg (List.map _) (lastOnly_congr fun pair hpair => ?_)
    show decide (pair.1.setting? = some k) = decide (pair.2.setting? = some k)
    rw [Occurrence.setting?_of_read (hread pair hpair)]
  have hclosed : ∀ x ∈ (lastOnly (·.2.isOf k) pairs).map (·.1), x.Closed := by
    intro x hx
    obtain ⟨pair, hpair, rfl⟩ := List.mem_map.mp hx
    have hmem : pair.1 ∈ cut words := hpairs ▸ List.mem_map_of_mem (hsub.subset hpair)
    exact Occurrence.closed_of_read hmem (hread pair (hsub.subset hpair))
  refine ⟨lastOnly (·.2.isOf k) pairs, ?_, ?_, fun pair hpair => hread pair (hsub.subset hpair)⟩
  · unfold Options.strike
    rw [hlast, cut_flatMap hclosed]
  · rw [lastOnly_map]
    rfl

theorem validate_dummy (h : o.validate = .ok o) (dummy : Bool) :
    validate { o with dummy } = .ok { o with dummy } := by
  unfold validate at h ⊢
  dsimp only
  split at h
  · next hquiet => rw [if_pos hquiet]
  · next hquiet =>
    rw [if_neg hquiet]
    split at h
    · cases h
    · next hnet =>
      rw [if_neg hnet]
      split at h
      · cases h
      · next hformula => rw [if_neg hformula]

theorem Holds.dummy_iff (hitems : Holds words items) (hfold : items.foldlM apply {} = .ok o) :
    o.dummy = true ↔ AsksDummy words := by
  rw [(dummy_of_foldlM hfold).1, hitems.asksDummy]
  exact or_iff_right Bool.false_ne_true

theorem Holds.asksDummy_of_strike (hitems : Holds words items)
    (h : AsksDummy (Options.strike k words)) : AsksDummy words := by
  rw [(hitems.strike k).asksDummy, List.any_eq_true] at h
  obtain ⟨item, hitem, hasks⟩ := h
  rw [hitems.asksDummy, List.any_eq_true]
  exact ⟨item, (lastOnly_sublist items).subset hitem, hasks⟩

/-- The last choice of methods stands, with the dummy if what is left of the line asks for it. -/
theorem Holds.parse_strike_methods (hitems : Holds words items)
    (hfold : items.foldlM apply {} = .ok o) : Options.parse (Options.strike .methods words) =
      o.choice (decide (AsksDummy (Options.strike .methods words))) >>= validate := by
  have hleft := hitems.strike .methods
  have hasks : decide (AsksDummy (Options.strike .methods words)) =
      (lastOnly (·.isOf .methods) items).any Item.asksDummy := by
    rw [Bool.eq_iff_iff, decide_eq_true_iff, hleft.asksDummy]
  rw [hleft.parse, hasks]
  refine congrArg (· >>= validate) ?_
  by_cases hany : items.any (·.isOf .methods) = true
  · exact foldlM_lastOnly_methods hfold hany _ false
  · -- no choice was made, and all methods are there
    rw [Bool.not_eq_true] at hany
    have hnone := any_asksDummy_of_any_isOf hany
    obtain ⟨hdummy, hchosen⟩ := dummy_of_foldlM hfold
    rw [hnone] at hdummy
    have hquiet : o.dummy = false := by
      rw [← Bool.not_eq_true, hdummy]
      decide
    rw [lastOnly_of_any_eq_false hany, hnone, hfold, ← hquiet,
      choice_dummy (hchosen (.inl (by decide)))]

/-- **What striking out the earlier occurrences of an option does to a command line that was
accepted.** It keeps the options if and only if it does not lose the wish for the dummy. If it does,
the rest of the options are kept, unless no method is left at all. -/
theorem parse_strike (h : parse words = .ok o) (k : Setting) :
    (parse (strike k words) = .ok o ↔ ¬ LosesDummy k words) ∧
      (LosesDummy k words → parse (strike k words) =
        if o.methods = [] then .error .noMethod else .ok { o with dummy := false }) := by
  obtain ⟨items, hitems, hfold, hvalid⟩ := holds_of_parse h
  by_cases hlost : LosesDummy k words
  · -- the dummy was chosen, and what is left does not ask for it
    have ⟨hk, hasks, hleaves⟩ := hlost
    subst hk
    have hresult : parse (strike .methods words) =
        if o.methods = [] then .error .noMethod else .ok { o with dummy := false } := by
      rw [hitems.parse_strike_methods hfold, decide_eq_false hleaves, choice_false]
      split
      · rfl
      · exact validate_dummy hvalid false
    refine ⟨iff_of_false (fun hok => ?_) (fun hnot => hnot hlost), fun _ => hresult⟩
    rw [hresult] at hok
    split at hok
    · cases hok
    · have hdropped := congrArg Options.dummy (Except.ok.inj hok)
      rw [(hitems.dummy_iff hfold).mpr hasks] at hdropped
      cases hdropped
  · refine ⟨iff_of_true ?_ hlost, fun h => absurd h hlost⟩
    by_cases hk : k = .methods
    · -- what is left asks for the dummy if the whole line does
      subst hk
      have hleaves : decide (AsksDummy (strike .methods words)) = o.dummy := by
        rw [Bool.eq_iff_iff, decide_eq_true_iff, hitems.dummy_iff hfold]
        refine ⟨hitems.asksDummy_of_strike, fun hasks => ?_⟩
        exact not_not.mp fun hnot => hlost ⟨rfl, hasks, hnot⟩
      rw [hitems.parse_strike_methods hfold, hleaves,
        choice_dummy ((dummy_of_foldlM hfold).2 (.inl (by decide)))]
      exact hvalid
    · rw [(hitems.strike k).parse, foldlM_lastOnly hk, hfold]
      exact hvalid

/-- Of two timeouts the last one counts, and it may stand alone. Of two choices of methods the last
one counts, but alone it does not run the dummy. -/
theorem parse_strike_twice :
    parse ["--methods", "DUMMY", "--timeout", "5", "-n", "a.net", "--methods", "BMC", "--timeout",
        "7", "-f", "T"] =
        .ok { net := "a.net", formula := "T", methods := [.bmc], dummy := true, timeout := 7 } ∧
      parse ["--methods", "DUMMY", "-n", "a.net", "--methods", "BMC", "--timeout", "7", "-f", "T"] =
        .ok { net := "a.net", formula := "T", methods := [.bmc], dummy := true, timeout := 7 } ∧
      parse ["--timeout", "5", "-n", "a.net", "--methods", "BMC", "--timeout", "7", "-f", "T"] =
        .ok { net := "a.net", formula := "T", methods := [.bmc], timeout := 7 } := by
  have hwords : parse ["--methods", "DUMMY", "--timeout", "5", "-n", "a.net", "--methods", "BMC",
      "--timeout", "7", "-f", "T"] =
      .ok { net := "a.net", formula := "T", methods := [.bmc], dummy := true, timeout := 7 } := by
    decide
  refine ⟨hwords, (parse_strike hwords .timeout).1.mpr (by decide), ?_⟩
  exact (parse_strike hwords .methods).2 (by decide)

end Strike

end Options

end PetriReach
