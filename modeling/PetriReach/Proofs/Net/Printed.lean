import PetriReach.Net.Printer
import PetriReach.Proofs.Net.Mentions
import PetriReach.Proofs.Net.Quantities
import PetriReach.Proofs.Smt.Lines

/-!
# Printed nets

The text of a net as rows of words, and what is known of the names and numbers in a net that was
read: its words come out of the text again.

* `Text.fields_intercalate`: the words of a row.
* `Net.Legible.lines_render`: the lines of a printed net are its rows.
* `Net.legible_of_parse`: what a net that was read is made of can be printed and read.
-/

namespace PetriReach

/-! ## Words and rows -/

namespace Text

/-- A text without blanks and without the characters that are read as dots. -/
structure IsClean (s : String) : Prop where
  word : IsWord s
  hash : '#' ∉ s.toList
  comma : ',' ∉ s.toList

/-- A word of a line. -/
structure IsName (s : String) : Prop extends IsClean s where
  nonempty : s ≠ ""

theorem IsClean.of_subset {s t : String} (h : IsClean t) (hst : ∀ c ∈ s.toList, c ∈ t.toList) :
    IsClean s :=
  ⟨fun c hc => h.word c (hst c hc), fun hc => h.hash (hst _ hc), fun hc => h.comma (hst _ hc)⟩

theorem isClean_of_all {s : String}
    (h : s.toList.all (fun c => !isBlank c && c ≠ '#' && c ≠ ',') = true) :
    IsClean s := by
  simp only [List.all_eq_true, Bool.and_eq_true, Bool.not_eq_true', decide_eq_true_eq] at h
  exact ⟨fun c hc => (h c hc).1.1, fun hc => (h _ hc).1.2 rfl, fun hc => (h _ hc).2 rfl⟩

theorem IsClean.append {s t : String} (hs : IsClean s) (ht : IsClean t) :
    IsClean (s ++ t) := by
  refine ⟨fun c hc => ?_, fun hc => ?_, fun hc => ?_⟩ <;>
    rw [String.toList_append, List.mem_append] at hc
  · exact hc.elim (hs.word c) (ht.word c)
  · exact hc.elim hs.hash ht.hash
  · exact hc.elim hs.comma ht.comma

theorem isClean_of_digits {s : String} {k : Nat} (h : s.toList = Nat.toDigits 10 k) :
    IsClean s := by
  refine isClean_of_all (List.all_eq_true.mpr fun c hc => ?_)
  have hdigit : c.isDigit = true := Smt.isDigit_of_mem_toDigits (h ▸ hc)
  have hplain : ∀ d ∈ [' ', '\t', '\n', '\x0b', '\x0c', '\r', '#', ','], c ≠ d := by
    intro d hd hcd
    have hnone :
        [' ', '\t', '\n', '\x0b', '\x0c', '\r', '#', ','].all (!Char.isDigit ·) = true := by
      decide
    simpa [hcd ▸ hdigit] using List.all_eq_true.mp hnone d hd
  simp only [List.forall_mem_cons] at hplain
  simp [isBlank, hplain]

theorem isName_of_all {s : String} (hne : s ≠ "")
    (h : s.toList.all (fun c => !isBlank c && c ≠ '#' && c ≠ ',') = true) :
    IsName s :=
  ⟨isClean_of_all h, hne⟩

theorem mem_of_mem_pieces {p : Char → Bool} {cs w : List Char} (hw : w ∈ pieces p cs) {c : Char}
    (hc : c ∈ w) : c ∈ cs := by
  induction cs generalizing w with
  | nil =>
    obtain rfl := List.mem_singleton.mp hw
    exact hc
  | cons d cs ih =>
    unfold pieces at hw
    split at hw
    · rcases List.mem_cons.mp hw with rfl | hw
      · simp at hc
      · exact List.mem_cons_of_mem d (ih hw hc)
    · split at hw
      · obtain rfl := List.mem_singleton.mp hw
        exact List.mem_cons.mpr (.inl (List.mem_singleton.mp hc))
      · next u us hus =>
        rw [hus] at ih
        rcases List.mem_cons.mp hw with rfl | hw
        · rcases List.mem_cons.mp hc with rfl | hc
          · exact List.mem_cons_self
          · exact List.mem_cons_of_mem d (ih List.mem_cons_self hc)
        · exact List.mem_cons_of_mem d (ih (List.mem_cons_of_mem u hw) hc)

/-- The words of a line are names. -/
theorem isName_of_mem_fields {l w : String} (h : w ∈ fields (Declaration.normalize l)) :
    IsName w := by
  have hword := isWord_of_mem_fields h
  obtain ⟨cs, hcs, rfl⟩ := List.mem_map.mp h
  obtain ⟨hcs, hne⟩ := List.mem_filter.mp hcs
  have hchars : ∀ c ∈ cs, c ≠ '#' ∧ c ≠ ',' := by
    intro c hc
    have hmem := mem_of_mem_pieces hcs hc
    rw [Declaration.normalize, String.toList_ofList] at hmem
    obtain ⟨d, -, rfl⟩ := List.mem_map.mp hmem
    by_cases hd : d = '#' ∨ d = ','
    · rw [if_pos hd]
      decide
    · rw [if_neg hd]
      exact not_or.mp hd
  refine ⟨⟨hword, ?_, ?_⟩, ?_⟩
  · rw [String.toList_ofList]
    exact fun hmem => (hchars _ hmem).1 rfl
  · rw [String.toList_ofList]
    exact fun hmem => (hchars _ hmem).2 rfl
  · intro hempty
    have hnil : cs = [] := by simpa using congrArg String.toList hempty
    simp [hnil] at hne

theorem pieces_of_forall {p : Char → Bool} {cs : List Char} (h : ∀ c ∈ cs, p c = false) :
    pieces p cs = [cs] := by
  induction cs with
  | nil => rfl
  | cons c cs ih =>
    rw [List.forall_mem_cons] at h
    rw [pieces, if_neg (by simp [h.1]), ih h.2]

/-- The words of words with a space between them. -/
theorem pieces_intercalate {w : String} {ws : List String} (h : ∀ u ∈ w :: ws, IsWord u) :
    pieces isBlank (" ".intercalate (w :: ws)).toList = (w :: ws).map String.toList := by
  induction ws generalizing w with
  | nil =>
    rw [String.intercalate_singleton, pieces_of_forall (h w List.mem_cons_self)]
    rfl
  | cons u ws ih =>
    rw [List.forall_mem_cons] at h
    have hchars : (" ".intercalate (w :: u :: ws)).toList =
        w.toList ++ ' ' :: (" ".intercalate (u :: ws)).toList := by
      rw [String.intercalate_cons_cons]
      simp
    rw [hchars, pieces_append_cons h.1 (by decide), ih h.2]
    rfl

theorem normalize_intercalate {ws : List String} (h : ∀ w ∈ ws, IsClean w) :
    Declaration.normalize (" ".intercalate ws) = " ".intercalate ws := by
  have hchars : ∀ c ∈ (" ".intercalate ws).toList, ¬ (c = '#' ∨ c = ',') := by
    cases ws with
    | nil => simp
    | cons w ws =>
      intro c hc
      rw [List.forall_mem_cons] at h
      rw [Smt.toList_intercalate_space, List.mem_append, List.mem_flatMap] at hc
      rintro (rfl | rfl)
      · rcases hc with hc | ⟨u, hu, hc⟩
        · exact h.1.hash hc
        · exact (h.2 u hu).hash (by simpa using hc)
      · rcases hc with hc | ⟨u, hu, hc⟩
        · exact h.1.comma hc
        · exact (h.2 u hu).comma (by simpa using hc)
  have hmap := List.map_congr_left (f := fun c => if c = '#' ∨ c = ',' then '.' else c)
    (g := fun c => c) fun c hc => if_neg (hchars c hc)
  rw [Declaration.normalize, hmap, List.map_id', String.ofList_toList]

/-- **The words of a row** are read back, without empty ones. -/
theorem fields_intercalate {ws : List String} (h : ∀ w ∈ ws, IsClean w) :
    fields (Declaration.normalize (" ".intercalate ws)) = ws.filter (· ≠ "") := by
  rw [normalize_intercalate h, fields]
  cases ws with
  | nil => rfl
  | cons w ws =>
    rw [pieces_intercalate fun u hu => (h u hu).word, List.filter_map, List.map_map]
    have hsame :
        (fun cs : List Char => !cs.isEmpty) ∘ String.toList = fun s => decide (s ≠ "") := by
      funext s
      rw [Bool.eq_iff_iff]
      simp
    rw [hsame]
    simp [Function.comp_def]

/-- The lines of lines that a line feed ends. -/
theorem lines_join {ls : List String} (h : ∀ l ∈ ls, '\n' ∉ l.toList) :
    lines (String.join (ls.map (· ++ "\n"))) = ls ++ [""] := by
  induction ls with
  | nil => rfl
  | cons l ls ih =>
    rw [List.forall_mem_cons] at h
    have hchars : (String.join ((l :: ls).map (· ++ "\n"))).toList =
        l.toList ++ '\n' :: (String.join (ls.map (· ++ "\n"))).toList := by
      simp
    have hline : ∀ c ∈ l.toList, decide (c = '\n') = false := by
      intro c hc
      refine decide_eq_false ?_
      rintro rfl
      exact h.1 hc
    rw [lines, hchars, pieces_append_cons hline (by simp), List.map_cons, String.ofList_toList]
    exact congrArg (l :: ·) (ih h.2)

/-- A row of words is one line. -/
theorem not_mem_intercalate {ws : List String} (h : ∀ w ∈ ws, IsWord w) :
    '\n' ∉ (" ".intercalate ws).toList := by
  cases ws with
  | nil => simp
  | cons w ws =>
    rw [List.forall_mem_cons] at h
    rw [Smt.toList_intercalate_space, List.mem_append, List.mem_flatMap]
    rintro (hmem | ⟨u, hu, hmem⟩)
    · exact h.1.inline hmem
    · exact (h.2 u hu).inline (by simpa using hmem)

end Text

/-! ## Rows of a net -/

/-- The words of the line of a place. -/
def Place.row (p : Place) : List String :=
  if p.tokens = 0 then ["pl", p.id] else ["pl", p.id, "(" ++ toString p.tokens ++ ")"]

/-- The words of the line of a transition. -/
def Transition.row (t : Transition) : List String :=
  "tr" :: t.id :: (t.pre.map arcText ++ "->" :: t.post.map arcText)

namespace Net

/-- Whether a place has a line. -/
def shows (n : Net) (p : Place) : Bool :=
  p.tokens ≠ 0 || n.isolated p

/-- The words of the lines of a net. -/
def rows (n : Net) : List (List String) :=
  ["net", n.id] :: ((n.places.filter n.shows).map Place.row ++ n.transitions.map Transition.row)

variable {n : Net}

theorem renderPlace_eq (n : Net) (p : Place) :
    n.renderPlace p = if n.shows p then " ".intercalate p.row ++ "\n" else "" := by
  rw [renderPlace, shows, Place.row]
  by_cases htokens : p.tokens = 0
  · simp [htokens, String.append_assoc]
  · rw [if_pos htokens, if_neg htokens, if_pos (by simp [htokens]), ← String.toList_inj]
    simp

theorem join_renderPlace (ps : List Place) : String.join (ps.map n.renderPlace) =
    String.join ((ps.filter n.shows).map fun p => " ".intercalate p.row ++ "\n") := by
  induction ps with
  | nil => rfl
  | cons p ps ih =>
    rw [List.map_cons, String.join_cons, ih, List.filter_cons, renderPlace_eq]
    by_cases hshows : n.shows p = true
    · rw [if_pos hshows, if_pos hshows, List.map_cons, String.join_cons]
    · rw [if_neg hshows, if_neg hshows, String.empty_append]

theorem render_transition (t : Transition) : t.render = " ".intercalate t.row ++ "\n" := by
  rw [← String.toList_inj, String.toList_append, Transition.row, Smt.toList_intercalate_space]
  simp [Transition.render, Arcs.render, List.flatMap_map]

/-- The text of a net, row by row. -/
theorem render_eq (n : Net) :
    n.render = String.join ((n.rows.map (" ".intercalate ·)).map (· ++ "\n")) := by
  have hnames : "net " ++ n.id ++ "\n" = " ".intercalate ["net", n.id] ++ "\n" := rfl
  have htransitions : n.transitions.map Transition.render =
      n.transitions.map fun t => " ".intercalate t.row ++ "\n" :=
    List.map_congr_left fun t _ => render_transition t
  rw [render, join_renderPlace, htransitions, hnames, rows]
  simp [Function.comp_def, String.append_assoc]

end Net

/-! ## Numbers and arcs -/

namespace Quantity

/-- A decimal number within the limit is read back. -/
theorem parse_digits {k : Nat} (h : k ≤ Number.limit) :
    parse (String.ofList (Nat.toDigits 10 k)) = .ok k := by
  have hdigits : Text.isNumeral (String.ofList (Nat.toDigits 10 k)).toList = true := by
    rw [String.toList_ofList]
    exact Smt.isNumeral_toDigits k
  rw [parse_plain hdigits, ofDigits_of_isNumeral hdigits, String.toList_ofList,
    Nat.ofDigitChars_ten_toDigits, if_pos h]

end Quantity

/-- An arc that can be printed and read. -/
structure LegibleArc (a : String × Nat) : Prop where
  name : Text.IsName a.1
  star : '*' ∉ a.1.toList
  pos : 0 < a.2
  le_limit : a.2 ≤ Number.limit

namespace Declaration

/-- What a printed arc says. -/
theorem says_arcText {a : String × Nat} (h : LegibleArc a) : SaysArc (arcText a) a := by
  obtain ⟨p, w⟩ := a
  rw [arcText]
  by_cases hw : w = 1
  · rw [if_pos hw, hw]
    exact .plain h.name.nonempty h.star
  · have hdigits : toString w = String.ofList (Nat.toDigits 10 w) := rfl
    rw [if_neg hw]
    exact .weighted h.name.nonempty h.star (hdigits ▸ Quantity.parse_digits h.le_limit) h.pos

theorem SaysArc.unique {w : String} {a b : String × Nat} (ha : SaysArc w a) (hb : SaysArc w b) :
    a = b := by
  have hread := readArc_eq_ok_iff.mpr ha
  rw [readArc_eq_ok_iff.mpr hb] at hread
  exact (Except.ok.inj hread).symm

/-- What a printed number of tokens says. -/
theorem says_tokens {k : Nat} (h : k ≤ Number.limit) :
    SaysTokens ["(" ++ toString (k : Int) ++ ")"] k := by
  have hplain : ∀ c ∈ Nat.toDigits 10 k, decide (c ≠ '(' ∧ c ≠ ')') = true := by
    intro c hc
    have hdigit := Smt.isDigit_of_mem_toDigits hc
    rw [decide_eq_true_eq]
    constructor
    · rintro rfl
      cases hdigit
    · rintro rfl
      cases hdigit
  have hfilter : ("(" ++ toString (k : Int) ++ ")").toList.filter (fun c => c ≠ '(' ∧ c ≠ ')') =
      Nat.toDigits 10 k := by
    rw [String.toList_append, String.toList_append, Smt.toList_toString_ofNat, List.filter_append,
      List.filter_append, List.filter_eq_self.mpr hplain]
    simp
  refine .number ?_
  rw [hfilter]
  exact Quantity.parse_digits h

end Declaration

/-! ## Legible nets -/

/-- What stands in a list on the right has a partner on the left. -/
theorem exists_of_forall₂ {α β : Type} {R : α → β → Prop} {as : List α} {bs : List β}
    (h : List.Forall₂ R as bs) : ∀ b ∈ bs, ∃ a ∈ as, R a b := by
  induction h with
  | nil => simp
  | @cons a b as bs hab _ ih =>
    rw [List.forall_mem_cons]
    refine ⟨⟨a, List.mem_cons_self, hab⟩, fun c hc => ?_⟩
    obtain ⟨d, hd, hdc⟩ := ih c hc
    exact ⟨d, List.mem_cons_of_mem a hd, hdc⟩

namespace Declaration

/-- The names and numbers of a declaration can be printed and read. -/
def Legible : Declaration → Prop
  | .net id => Text.IsName id
  | .place id tokens => Text.IsName id ∧ tokens ≤ Number.limit
  | .transition id inputs outputs => Text.IsName id ∧ ∀ a ∈ inputs ++ outputs, LegibleArc a

theorem SaysArc.legible {w : String} {a : String × Nat} (h : SaysArc w a) (hw : Text.IsName w) :
    LegibleArc a := by
  cases h with
  | plain hp hstar => exact ⟨hw, hstar, Nat.one_pos, show 1 ≤ Number.limit by decide⟩
  | @weighted p q k hp hstar hq hk =>
    have hclean : Text.IsClean p := hw.toIsClean.of_subset (by simp +contextual)
    exact ⟨⟨hclean, hp⟩, hstar, hk, Quantity.le_limit hq⟩

theorem Labelled.mem {ws rest : List String} (h : Labelled ws rest) : ∀ w ∈ rest, w ∈ ws :=
  mem_of_skipLabel (skipLabel_eq_ok_iff.mpr h)

/-- What a line of names says is legible. -/
theorem Says.legible {ws : List String} {d : Declaration} (h : Says ws (some d))
    (hws : ∀ w ∈ ws, Text.IsName w) : d.Legible := by
  cases h with
  | net => exact hws _ (by simp)
  | @place id ws rest tokens hlabel htokens =>
    refine ⟨hws _ (by simp), ?_⟩
    cases htokens with
    | empty => exact Nat.zero_le _
    | number hk => exact Quantity.le_limit hk
  | @transition id ws us vs inputs outputs hlabel harrow hin hout =>
    have hname : ∀ w ∈ us ++ "->" :: vs, Text.IsName w := by
      intro w hw
      exact hws w (List.mem_cons_of_mem _ (List.mem_cons_of_mem _ (hlabel.mem w hw)))
    refine ⟨hws _ (by simp), fun a ha => ?_⟩
    rcases List.mem_append.mp ha with ha | ha
    · obtain ⟨w, hw, hsaid⟩ := exists_of_forall₂ hin a ha
      exact hsaid.legible (hname w (by simp [hw]))
    · obtain ⟨w, hw, hsaid⟩ := exists_of_forall₂ hout a ha
      exact hsaid.legible (hname w (by simp [hw]))

/-! What a legible declaration gives to a net is legible. -/

namespace Legible

variable {d : Declaration} (h : d.Legible)

include h

theorem netName {id : String} (hid : d.netName? = some id) : Text.IsName id := by
  cases d with
  | net id' => exact Option.some.inj hid ▸ h
  | place id' tokens => cases hid
  | transition id' inputs outputs => cases hid

theorem transitionName {id : String} (hid : d.transitionName? = some id) : Text.IsName id := by
  cases d with
  | net id' => cases hid
  | place id' tokens => cases hid
  | transition id' inputs outputs => exact Option.some.inj hid ▸ h.1

theorem mention {p : String} (hp : p ∈ d.mentions) : Text.IsName p := by
  cases d with
  | net id => simp [mentions] at hp
  | place id tokens => exact List.mem_singleton.mp hp ▸ h.1
  | transition id inputs outputs =>
    obtain ⟨a, ha, rfl⟩ := List.mem_map.mp hp
    exact (h.2 a ha).name

theorem tokens_le {p : String} {k : Nat} (hk : d.tokens? p = some k) : k ≤ Number.limit := by
  cases d with
  | net id => cases hk
  | transition id inputs outputs => cases hk
  | place id tokens =>
    rw [tokens?] at hk
    by_cases hid : id = p
    · rw [if_pos hid] at hk
      exact Option.some.inj hk ▸ h.2
    · rw [if_neg hid] at hk
      cases hk

theorem arc {t : String} {a : String × Nat} (ha : a ∈ d.arcsOf t) : LegibleArc a := by
  cases d with
  | net id => simp [arcsOf, inputsOf, outputsOf] at ha
  | place id tokens => simp [arcsOf, inputsOf, outputsOf] at ha
  | transition id inputs outputs =>
    rw [arcsOf, inputsOf, outputsOf] at ha
    by_cases hid : id = t
    · rw [if_pos hid, if_pos hid] at ha
      exact h.2 a ha
    · simp [if_neg hid] at ha

end Legible

end Declaration

/-- An entry for a key that has a last value. -/
theorem mem_of_lastValue {entries : List (String × Nat)} {key : String} {v : Nat}
    (h : lastValue entries key = some v) : (key, v) ∈ entries :=
  List.mem_reverse.mp (NameMap.mem_of_lookup h)

namespace Net

variable {n : Net} {ds : List Declaration}

/-- The names and numbers of a net can be printed and read. -/
structure Legible (n : Net) : Prop where
  id : Text.IsClean n.id
  places : ∀ p ∈ n.places, Text.IsName p.id
  tokens : ∀ p ∈ n.places, ∃ k : Nat, p.tokens = k ∧ k ≤ Number.limit
  transitions : ∀ t ∈ n.transitions, Text.IsName t.id
  pre : ∀ t ∈ n.transitions, ∀ a ∈ t.pre, LegibleArc a
  post : ∀ t ∈ n.transitions, ∀ a ∈ t.post, LegibleArc a

/-- Input arcs of a net come from declarations. -/
theorem Described.exists_input (h : n.Described ds) {t : Transition} (ht : t ∈ n.transitions)
    {a : String × Nat} (ha : t.pre.lookup a.1 = some a.2) : ∃ d ∈ ds, a ∈ d.inputsOf t.id := by
  rw [(h.arcs t ht).pre] at ha
  exact List.mem_flatMap.mp (mem_of_lastValue ha)

theorem Described.exists_output (h : n.Described ds) {t : Transition} (ht : t ∈ n.transitions)
    {a : String × Nat} (ha : t.post.lookup a.1 = some a.2) : ∃ d ∈ ds, a ∈ d.outputsOf t.id := by
  rw [(h.arcs t ht).post] at ha
  exact List.mem_flatMap.mp (mem_of_lastValue ha)

/-- A net that legible declarations describe is legible. -/
theorem Described.legible (h : n.Described ds) (hn : n.WellFormed) (hds : ∀ d ∈ ds, d.Legible) :
    n.Legible where
  id := by
    rw [h.id]
    cases hlast : (ds.filterMap Declaration.netName?).getLast? with
    | none => exact ⟨by simp [Text.IsWord], by simp, by simp⟩
    | some id =>
      obtain ⟨d, hd, hid⟩ := List.mem_filterMap.mp (List.mem_of_getLast? hlast)
      exact ((hds d hd).netName hid).toIsClean
  places p hp := by
    have hmem : p.id ∈ n.places.map (·.id) := List.mem_map_of_mem hp
    rw [h.places, List.mem_eraseDups] at hmem
    obtain ⟨d, hd, hmem⟩ := List.mem_flatMap.mp hmem
    exact (hds d hd).mention hmem
  tokens p hp := by
    refine ⟨_, h.tokens p hp, ?_⟩
    cases hfind : ds.reverse.findSome? (·.tokens? p.id) with
    | none => exact Nat.zero_le _
    | some k =>
      obtain ⟨d, hd, hk⟩ := List.exists_of_findSome?_eq_some hfind
      exact (hds d (List.mem_reverse.mp hd)).tokens_le hk
  transitions t ht := by
    have hmem : t.id ∈ n.transitions.map (·.id) := List.mem_map_of_mem ht
    rw [h.transitions, List.mem_eraseDups] at hmem
    obtain ⟨d, hd, hid⟩ := List.mem_filterMap.mp hmem
    exact (hds d hd).transitionName hid
  pre t ht a ha := by
    obtain ⟨d, hd, hmem⟩ := h.exists_input ht ((hn.arcs t ht).1.sorted.lookup_eq ha)
    exact (hds d hd).arc (List.mem_append_left _ hmem)
  post t ht a ha := by
    obtain ⟨d, hd, hmem⟩ := h.exists_output ht ((hn.arcs t ht).2.sorted.lookup_eq ha)
    exact (hds d hd).arc (List.mem_append_right _ hmem)

/-- **What a net that was read is made of can be printed and read.** -/
theorem legible_of_parse {s : String} (h : Net.parse s = .ok n) : n.Legible := by
  have hn := wellFormed_of_parse h
  obtain ⟨es, hes, rfl⟩ := readLines_eq_ok_iff.mp h
  refine (described_empty.declareAll es.reduceOption).legible hn fun d hd => ?_
  obtain ⟨l, -, hsaid⟩ := exists_of_forall₂ hes _ (List.reduceOption_mem_iff.mp hd)
  exact Declaration.Says.legible hsaid fun w hw => Text.isName_of_mem_fields hw

/-! ## Rows read back -/

theorem isName_arcText {a : String × Nat} (h : LegibleArc a) : Text.IsName (arcText a) := by
  rw [arcText]
  split
  · exact h.name
  · have hstar : Text.IsClean "*" := Text.isClean_of_all (by decide)
    have hdigits : Text.IsClean (toString a.2) := Text.isClean_of_digits (Nat.toList_repr)
    refine ⟨(h.name.toIsClean.append hstar).append hdigits, fun hempty => ?_⟩
    have hnil := congrArg String.toList hempty
    simp at hnil

theorem Legible.place_row (h : n.Legible) {p : Place} (hp : p ∈ n.places) :
    ∀ w ∈ p.row, Text.IsName w := by
  have hkey : Text.IsName "pl" := Text.isName_of_all (by decide) (by decide)
  obtain ⟨k, hk, -⟩ := h.tokens p hp
  unfold Place.row
  split
  · simp [hkey, h.places p hp]
  · have hopen : Text.IsClean "(" := Text.isClean_of_all (by decide)
    have hclose : Text.IsClean ")" := Text.isClean_of_all (by decide)
    have hnumber : Text.IsClean (toString p.tokens) := by
      rw [hk]
      exact Text.isClean_of_digits (Smt.toList_toString_ofNat k)
    have hlast : Text.IsName ("(" ++ toString p.tokens ++ ")") :=
      ⟨(hopen.append hnumber).append hclose, fun hempty => by
        have hnil := congrArg String.toList hempty
        simp at hnil⟩
    simp only [List.forall_mem_cons]
    exact ⟨hkey, h.places p hp, hlast, by simp⟩

theorem Legible.transition_row (h : n.Legible) {t : Transition} (ht : t ∈ n.transitions) :
    ∀ w ∈ t.row, Text.IsName w := by
  have hkey : Text.IsName "tr" := Text.isName_of_all (by decide) (by decide)
  have harrow : Text.IsName "->" := Text.isName_of_all (by decide) (by decide)
  rw [Transition.row, List.forall_mem_cons, List.forall_mem_cons, List.forall_mem_append,
    List.forall_mem_cons]
  refine ⟨hkey, h.transitions t ht, fun w hw => ?_, harrow, fun w hw => ?_⟩
  · obtain ⟨a, ha, rfl⟩ := List.mem_map.mp hw
    exact isName_arcText (h.pre t ht a ha)
  · obtain ⟨a, ha, rfl⟩ := List.mem_map.mp hw
    exact isName_arcText (h.post t ht a ha)

theorem Legible.rows (h : n.Legible) : ∀ ws ∈ n.rows, ∀ w ∈ ws, Text.IsClean w := by
  intro ws hws w hw
  rcases List.mem_cons.mp hws with rfl | hws
  · rcases List.mem_cons.mp hw with rfl | hw
    · exact Text.isClean_of_all (by decide)
    · rw [List.mem_singleton.mp hw]
      exact h.id
  · rcases List.mem_append.mp hws with hws | hws
    · obtain ⟨p, hp, rfl⟩ := List.mem_map.mp hws
      exact (h.place_row (List.mem_of_mem_filter hp) w hw).toIsClean
    · obtain ⟨t, ht, rfl⟩ := List.mem_map.mp hws
      exact (h.transition_row ht w hw).toIsClean

/-- **The lines of a printed net are its rows.** -/
theorem Legible.lines_render (h : n.Legible) :
    Text.lines n.render = n.rows.map (" ".intercalate ·) ++ [""] := by
  rw [render_eq, Text.lines_join]
  intro l hl
  obtain ⟨ws, hws, rfl⟩ := List.mem_map.mp hl
  exact Text.not_mem_intercalate fun w hw => (h.rows ws hws w hw).word

/-- Rows of names are read back whole. -/
theorem fields_row {ws : List String} (h : ∀ w ∈ ws, Text.IsName w) :
    Text.fields (Declaration.normalize (" ".intercalate ws)) = ws := by
  rw [Text.fields_intercalate fun w hw => (h w hw).toIsClean, List.filter_eq_self]
  intro w hw
  exact decide_eq_true (h w hw).nonempty

end Net

end PetriReach
