import Mathlib.Data.List.Forall2
import Mathlib.Data.List.ReduceOption
import Mathlib.Data.List.TakeWhile
import PetriReach.Proofs.Net.WellFormed

/-!
# Lines of a net

What the words of a line say, stated without the functions that read them. A line is accepted if and
only if its words say something, and then it is read as that.

* `Declaration.skipLabel_eq_ok_iff`: the words of a label.
* `Declaration.readArc_eq_ok_iff`: a word that says an arc.
* `Declaration.parse_eq_ok_iff`: a line is read as what its words say.
* `Net.readLines_eq_ok_iff`: lines are declarations, made one after another.
-/

namespace PetriReach

/-- A map succeeds if and only if each of its steps does, with these results. -/
theorem mapM_eq_ok_iff {ε α β : Type} {f : α → Except ε β} {as : List α} {bs : List β} :
    as.mapM f = .ok bs ↔ List.Forall₂ (fun a b => f a = .ok b) as bs := by
  induction as generalizing bs with
  | nil =>
    constructor
    · intro h
      obtain rfl := Except.ok.inj h
      exact .nil
    · rintro ⟨⟩
      rfl
  | cons a as ih =>
    rw [List.mapM_cons]
    constructor
    · intro h
      obtain ⟨b, hb, h⟩ := exists_of_bind_ok h
      obtain ⟨bs', hbs, h⟩ := exists_of_bind_ok h
      cases h
      exact .cons hb (ih.mp hbs)
    · intro h
      cases h with
      | cons hb hbs =>
        rw [hb, ih.mpr hbs]
        rfl

theorem decide_ne_of_not_mem {α : Type} [DecidableEq α] {m : α} {us : List α} (h : m ∉ us) :
    ∀ u ∈ us, decide (u ≠ m) = true := by
  intro u hu
  rw [decide_eq_true_eq]
  rintro rfl
  exact h hu

/-- Where a mark does not occur, nothing is cut off. -/
theorem cut_of_not_mem {α : Type} [DecidableEq α] {m : α} {us : List α} (h : m ∉ us) :
    us.takeWhile (· ≠ m) = us ∧ us.dropWhile (· ≠ m) = [] := by
  have hall := decide_ne_of_not_mem h
  exact ⟨List.takeWhile_eq_self_iff.mpr hall, List.dropWhile_eq_nil_iff.mpr hall⟩

/-- A list is cut at the first occurrence of a mark. -/
theorem cut_at_mark {α : Type} [DecidableEq α] {m : α} {us : List α} (h : m ∉ us) (vs : List α) :
    (us ++ m :: vs).takeWhile (· ≠ m) = us ∧ (us ++ m :: vs).dropWhile (· ≠ m) = m :: vs := by
  have hall := decide_ne_of_not_mem h
  constructor
  · rw [List.takeWhile_append_of_pos hall]
    simp
  · rw [List.dropWhile_append_of_pos hall]
    simp

theorem drop_mark {α : Type} (m : α) (us vs : List α) :
    (us ++ m :: vs).drop (us.length + 1) = vs := by
  rw [← List.drop_drop, List.drop_left]
  rfl

namespace Declaration

/-! ## Labels -/

/-- The words `ws` are a label, or none, and then `rest`. A label is a colon and a word, or a colon
and words from one with an opening brace at its head to the first with a closing one at its end. -/
inductive Labelled : (ws rest : List String) → Prop where
  | bare {ws : List String} (h : ws.head? ≠ some ":") : Labelled ws ws
  | word {w : String} {ws : List String} (h : w.toList.head? ≠ some '{') :
      Labelled (":" :: w :: ws) ws
  | braces {us : List String} {w : String} {ws : List String}
      (hopen : (us ++ [w]).head?.bind (·.toList.head?) = some '{')
      (hinside : ∀ u ∈ us, u.toList.getLast? ≠ some '}') (hclose : w.toList.getLast? = some '}') :
      Labelled (":" :: (us ++ w :: ws)) ws

theorem closeLabel_eq_ok_iff {ws rest : List String} : closeLabel ws = .ok rest ↔
    ∃ us w, ws = us ++ w :: rest ∧ (∀ u ∈ us, u.toList.getLast? ≠ some '}') ∧
      w.toList.getLast? = some '}' := by
  induction ws with
  | nil => simp [closeLabel]
  | cons v ws ih =>
    unfold closeLabel
    by_cases hv : v.toList.getLast? = some '}'
    · rw [if_pos hv]
      constructor
      · intro h
        obtain rfl := Except.ok.inj h
        exact ⟨[], v, rfl, by simp, hv⟩
      · rintro ⟨_ | ⟨u, us⟩, w, heq, hus, -⟩
        · rw [(List.cons.inj heq).2]
        · rw [(List.cons.inj heq).1] at hv
          exact absurd hv (hus u List.mem_cons_self)
    · rw [if_neg hv, ih]
      constructor
      · rintro ⟨us, w, rfl, hus, hw⟩
        exact ⟨v :: us, w, rfl, List.forall_mem_cons.mpr ⟨hv, hus⟩, hw⟩
      · rintro ⟨_ | ⟨u, us⟩, w, heq, hus, hw⟩
        · rw [(List.cons.inj heq).1] at hv
          exact absurd hw hv
        · exact ⟨us, w, (List.cons.inj heq).2, (List.forall_mem_cons.mp hus).2, hw⟩

theorem labelled_of_skipLabel {ws rest : List String} (h : skipLabel ws = .ok rest) :
    Labelled ws rest := by
  unfold skipLabel at h
  split at h
  · cases h
  · next w ws =>
    split at h
    · next hopen =>
      -- the brace opens in the word at the head, which may also close it
      obtain ⟨us, u, heq, hus, hu⟩ := closeLabel_eq_ok_iff.mp h
      have hhead : (us ++ [u]).head? = some w := by
        have hsame : (us ++ [u]).head? = (us ++ u :: rest).head? := by cases us <;> rfl
        rw [hsame, ← heq]
        rfl
      rw [heq]
      refine .braces ?_ hus hu
      rw [hhead]
      exact hopen
    · next hopen =>
      obtain rfl := Except.ok.inj h
      exact .word hopen
  · next hone htwo =>
    obtain rfl := Except.ok.inj h
    refine .bare fun hcolon => ?_
    obtain ⟨ws', rfl⟩ := List.head?_eq_some_iff.mp hcolon
    cases ws' with
    | nil => exact hone rfl
    | cons w ws' => exact htwo w ws' rfl

/-- The words of a label are skipped. -/
theorem skipLabel_eq_ok_iff {ws rest : List String} :
    skipLabel ws = .ok rest ↔ Labelled ws rest := by
  refine ⟨labelled_of_skipLabel, fun h => ?_⟩
  cases h with
  | bare h =>
    unfold skipLabel
    split
    · exact absurd rfl h
    · exact absurd rfl h
    · rfl
  | word h => rw [skipLabel, if_neg h]
  | @braces us w _ hopen hinside hclose =>
    have hread : closeLabel (us ++ w :: rest) = .ok rest :=
      closeLabel_eq_ok_iff.mpr ⟨us, w, rfl, hinside, hclose⟩
    cases us with
    | nil =>
      have hw : w.toList.head? = some '{' := hopen
      rw [List.nil_append, skipLabel, if_pos hw]
      exact hread
    | cons u us =>
      have hu : u.toList.head? = some '{' := hopen
      rw [List.cons_append, skipLabel, if_pos hu]
      exact hread

/-! ## Arcs and tokens -/

/-- A word says an arc: a place alone, or a place, a star and a weight. -/
inductive SaysArc : String → String × Nat → Prop where
  | plain {p : String} (hp : p ≠ "") (hstar : '*' ∉ p.toList) : SaysArc p (p, 1)
  | weighted {p q : String} {w : Nat} (hp : p ≠ "") (hstar : '*' ∉ p.toList)
      (hq : Quantity.parse q = .ok w) (hw : 0 < w) : SaysArc (p ++ "*" ++ q) (p, w)

/-- Words say a number of tokens: the first does, without its parentheses; where there is none, the
number is 0. -/
inductive SaysTokens : List String → Nat → Prop where
  | empty : SaysTokens [] 0
  | number {w : String} {ws : List String} {n : Nat}
      (h : Quantity.parse (String.ofList (w.toList.filter fun c => c ≠ '(' ∧ c ≠ ')')) = .ok n) :
      SaysTokens (w :: ws) n

theorem mapError_eq_ok_iff {ε ε' α : Type} {x : Except ε α} {g : ε → ε'} {a : α} :
    x.mapError g = .ok a ↔ x = .ok a := by
  cases x <;> simp [Except.mapError]

/-- A word is read as the arc that it says. -/
theorem readArc_eq_ok_iff {arc : String} {a : String × Nat} :
    readArc arc = .ok a ↔ SaysArc arc a := by
  constructor
  · intro h
    by_cases hstar : '*' ∈ arc.toList
    · obtain ⟨cs, ds, hlist, hcs⟩ := List.eq_append_cons_of_mem hstar
      obtain ⟨htake, hdrop⟩ := cut_at_mark hcs ds
      simp only [readArc, hlist, htake, hdrop] at h
      split at h
      · cases h
      · next w hw =>
        split at h
        · cases h
        · next hp =>
          split at h
          · cases h
          · next hpos =>
            cases h
            have harc : arc = String.ofList cs ++ "*" ++ String.ofList ds := by
              rw [← String.toList_inj, hlist]
              simp
            rw [harc]
            exact .weighted hp (by simpa using hcs) (mapError_eq_ok_iff.mp hw)
              (Nat.pos_of_ne_zero hpos)
    · obtain ⟨htake, hdrop⟩ := cut_of_not_mem hstar
      simp only [readArc, htake, hdrop, String.ofList_toList] at h
      split at h
      · cases h
      · next hp =>
        cases h
        exact .plain hp hstar
  · intro h
    cases h with
    | plain hp hstar =>
      obtain ⟨htake, hdrop⟩ := cut_of_not_mem hstar
      simp only [readArc, htake, hdrop, String.ofList_toList]
      rw [if_neg hp]
      rfl
    | @weighted p q w hp hstar hq hw =>
      have hlist : (p ++ "*" ++ q).toList = p.toList ++ '*' :: q.toList := by simp
      obtain ⟨htake, hdrop⟩ := cut_at_mark hstar q.toList
      simp only [readArc, hlist, htake, hdrop, String.ofList_toList, mapError_eq_ok_iff.mpr hq]
      rw [if_neg hp, if_neg (Nat.pos_iff_ne_zero.mp hw)]

/-! ## Lines -/

/-- The words of a line say a declaration, or nothing. -/
inductive Says : List String → Option Declaration → Prop where
  | net {id : String} {ws : List String} : Says ("net" :: id :: ws) (some (.net id))
  | transition {id : String} {ws us vs : List String} {inputs outputs : List (String × Nat)}
      (hlabel : Labelled ws (us ++ "->" :: vs)) (harrow : "->" ∉ us)
      (hinputs : List.Forall₂ SaysArc us inputs) (houtputs : List.Forall₂ SaysArc vs outputs) :
      Says ("tr" :: id :: ws) (some (.transition id inputs outputs))
  | place {id : String} {ws rest : List String} {tokens : Nat} (hlabel : Labelled ws rest)
      (htokens : SaysTokens rest tokens) : Says ("pl" :: id :: ws) (some (.place id tokens))
  | nameless : Says ["net"] none
  | other {ws : List String} (hnet : ws.head? ≠ some "net") (htr : ws.head? ≠ some "tr")
      (hpl : ws.head? ≠ some "pl") : Says ws none

/-- A line says what its words say, where `#` and `,` are read as dots. -/
def LineSays (line : String) (d : Option Declaration) : Prop :=
  Says (Text.fields (normalize line)) d

theorem mapM_readArc_eq_ok_iff {us : List String} {arcs : List (String × Nat)} :
    us.mapM readArc = .ok arcs ↔ List.Forall₂ SaysArc us arcs := by
  rw [mapM_eq_ok_iff]
  simp only [readArc_eq_ok_iff]

/-- The words behind the name of a transition are read as the arcs that they say. -/
theorem readTransition_eq_ok_iff {id : String} {ws : List String} {d : Declaration} :
    readTransition (id :: ws) = .ok d ↔ ∃ us vs inputs outputs,
      Labelled ws (us ++ "->" :: vs) ∧ "->" ∉ us ∧ List.Forall₂ SaysArc us inputs ∧
        List.Forall₂ SaysArc vs outputs ∧ d = .transition id inputs outputs := by
  constructor
  · intro h
    simp only [readTransition] at h
    obtain ⟨rest, hlabel, h⟩ := exists_of_bind_ok h
    rw [skipLabel_eq_ok_iff] at hlabel
    by_cases harrow : "->" ∈ rest
    · obtain ⟨us, vs, rfl, hus⟩ := List.eq_append_cons_of_mem harrow
      rw [(cut_at_mark hus vs).1, drop_mark, if_neg (by simp)] at h
      obtain ⟨inputs, hin, h⟩ := exists_of_bind_ok h
      obtain ⟨outputs, hout, h⟩ := exists_of_bind_ok h
      cases h
      exact ⟨us, vs, inputs, outputs, hlabel, hus, mapM_readArc_eq_ok_iff.mp hin,
        mapM_readArc_eq_ok_iff.mp hout, rfl⟩
    · rw [(cut_of_not_mem harrow).1, if_pos rfl] at h
      cases h
  · rintro ⟨us, vs, inputs, outputs, hlabel, hus, hin, hout, rfl⟩
    have hlength : ¬ us.length = (us ++ "->" :: vs).length := by simp
    simp only [readTransition, skipLabel_eq_ok_iff.mpr hlabel, (cut_at_mark hus vs).1, drop_mark,
      if_neg hlength, mapM_readArc_eq_ok_iff.mpr hin, mapM_readArc_eq_ok_iff.mpr hout, bind,
      Except.bind, pure, Except.pure]

/-- The words behind the name of a place are read as the tokens that they say. -/
theorem readPlace_eq_ok_iff {id : String} {ws : List String} {d : Declaration} :
    readPlace (id :: ws) = .ok d ↔
      ∃ rest tokens, Labelled ws rest ∧ SaysTokens rest tokens ∧ d = .place id tokens := by
  constructor
  · intro h
    simp only [readPlace] at h
    obtain ⟨rest, hlabel, h⟩ := exists_of_bind_ok h
    rw [skipLabel_eq_ok_iff] at hlabel
    cases rest with
    | nil =>
      cases h
      exact ⟨[], 0, hlabel, .empty, rfl⟩
    | cons w rest =>
      obtain ⟨tokens, htokens, h⟩ := exists_of_bind_ok h
      cases h
      exact ⟨w :: rest, tokens, hlabel, .number (mapError_eq_ok_iff.mp htokens), rfl⟩
  · rintro ⟨rest, tokens, hlabel, htokens, rfl⟩
    cases htokens with
    | empty =>
      simp only [readPlace, skipLabel_eq_ok_iff.mpr hlabel, bind, Except.bind, pure, Except.pure]
    | number h =>
      simp only [readPlace, skipLabel_eq_ok_iff.mpr hlabel, mapError_eq_ok_iff.mpr h, bind,
        Except.bind, pure, Except.pure]

theorem says_of_readTransition {ws : List String} {d : Declaration}
    (h : readTransition ws = .ok d) : Says ("tr" :: ws) (some d) := by
  cases ws with
  | nil => cases h
  | cons id ws =>
    obtain ⟨us, vs, inputs, outputs, hlabel, hus, hin, hout, rfl⟩ := readTransition_eq_ok_iff.mp h
    exact .transition hlabel hus hin hout

theorem says_of_readPlace {ws : List String} {d : Declaration} (h : readPlace ws = .ok d) :
    Says ("pl" :: ws) (some d) := by
  cases ws with
  | nil => cases h
  | cons id ws =>
    obtain ⟨rest, tokens, hlabel, htokens, rfl⟩ := readPlace_eq_ok_iff.mp h
    exact .place hlabel htokens

/-- Words without a keyword say nothing, and neither does the keyword of the name alone. -/
theorem says_none {ws : List String} (hnet : ∀ id ws', ws = "net" :: id :: ws' → False)
    (htr : ∀ ws', ws = "tr" :: ws' → False) (hpl : ∀ ws', ws = "pl" :: ws' → False) :
    Says ws none := by
  by_cases hone : ws = ["net"]
  · rw [hone]
    exact .nameless
  · refine .other (fun hhead => ?_) (fun hhead => ?_) fun hhead => ?_
    · obtain ⟨ws', rfl⟩ := List.head?_eq_some_iff.mp hhead
      cases ws' with
      | nil => exact hone rfl
      | cons id ws' => exact hnet id ws' rfl
    · obtain ⟨ws', rfl⟩ := List.head?_eq_some_iff.mp hhead
      exact htr ws' rfl
    · obtain ⟨ws', rfl⟩ := List.head?_eq_some_iff.mp hhead
      exact hpl ws' rfl

/-- **A line is read as what its words say**, and is not accepted if they say nothing. -/
theorem parse_eq_ok_iff {line : String} {d : Option Declaration} :
    parse line = .ok d ↔ LineSays line d := by
  unfold parse LineSays
  generalize Text.fields (normalize line) = ws
  constructor
  · intro h
    split at h
    · cases h
      exact .net
    · obtain ⟨d', hd', rfl⟩ := exists_of_map_ok h
      exact says_of_readTransition hd'
    · obtain ⟨d', hd', rfl⟩ := exists_of_map_ok h
      exact says_of_readPlace hd'
    · next hnet htr hpl =>
      cases h
      exact says_none hnet htr hpl
  · intro h
    cases h with
    | net => rfl
    | @transition id ws us vs inputs outputs hlabel harrow hin hout =>
      have hread : readTransition (id :: ws) = .ok (.transition id inputs outputs) :=
        readTransition_eq_ok_iff.mpr ⟨us, vs, inputs, outputs, hlabel, harrow, hin, hout, rfl⟩
      simp only [hread]
      rfl
    | @place id ws rest tokens hlabel htokens =>
      have hread : readPlace (id :: ws) = .ok (.place id tokens) :=
        readPlace_eq_ok_iff.mpr ⟨rest, tokens, hlabel, htokens, rfl⟩
      simp only [hread]
      rfl
    | nameless => rfl
    | other hnet htr hpl =>
      split
      · exact absurd rfl hnet
      · exact absurd rfl htr
      · exact absurd rfl hpl
      · rfl

end Declaration

/-- **Lines are declarations, made one after another.** -/
theorem Net.readLines_eq_ok_iff {n n' : Net} {k : Nat} {ls : List String} :
    n.readLines k ls = .ok n' ↔ ∃ es : List (Option Declaration),
      List.Forall₂ Declaration.LineSays ls es ∧ n' = es.reduceOption.foldl declare n := by
  constructor
  · intro h
    induction ls generalizing n k with
    | nil =>
      obtain rfl := Except.ok.inj h
      exact ⟨[], .nil, rfl⟩
    | cons l ls ih =>
      rw [Net.readLines] at h
      cases hl : Declaration.parse l with
      | error e =>
        rw [hl] at h
        cases h
      | ok d =>
        rw [hl] at h
        have hsaid := Declaration.parse_eq_ok_iff.mp hl
        cases d with
        | none =>
          obtain ⟨es, hes, hn'⟩ := ih h
          exact ⟨none :: es, .cons hsaid hes, hn'⟩
        | some d =>
          obtain ⟨es, hes, hn'⟩ := ih h
          exact ⟨some d :: es, .cons hsaid hes, hn'⟩
  · rintro ⟨es, hes, rfl⟩
    induction hes generalizing n k with
    | nil => rfl
    | @cons l d ls es hl _ ih =>
      rw [Net.readLines, Declaration.parse_eq_ok_iff.mpr hl]
      cases d with
      | none => exact ih
      | some d => exact ih

end PetriReach
