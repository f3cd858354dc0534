import PetriReach.Proofs.Net.Printed

/-!
# Nets printed and read

A net that was read and printed is read again as the same net, unless the words of one of its lines
can be taken for something else: a place `->` for the arrow, or a first place `:` for the beginning
of a label.

* `Net.Alike`: two nets with the same name, places and transitions.
* `Transition.Reprintable`: no input of the transition can be taken for something else.
* `Net.alike_iff_reprintable`: a net comes back if and only if its transitions are reprintable.
-/

namespace PetriReach

/-- The nets have the same name, the same places with the same tokens, and the same transitions in
the same order with the same arcs. -/
structure Net.Alike (n n' : Net) : Prop where
  id : n'.id = n.id
  places : ∀ p, p ∈ n'.places ↔ p ∈ n.places
  transitions : n'.transitions.map (fun t => (t.id, t.pre, t.post)) =
    n.transitions.map fun t => (t.id, t.pre, t.post)

/-- No input of weight 1 is named as the arrow, and the first input is not a colon of weight 1. -/
def Transition.Reprintable (t : Transition) : Prop :=
  ("->", 1) ∉ t.pre ∧ ¬ ((":", 1) ∈ t.pre ∧ ∀ a ∈ t.pre, ":" ≤ a.1)

/-! ## Arcs -/

/-- In sorted arcs the last value of a place is its only one. -/
theorem NameMap.Sorted.lastValue_eq {arcs : NameMap} (h : arcs.Sorted) (p : String) :
    lastValue arcs p = arcs.lookup p := by
  cases hl : arcs.lookup p with
  | none =>
    rw [lastValue, List.lookup_eq_none_iff]
    intro a ha
    exact List.lookup_eq_none_iff.mp hl a (List.mem_reverse.mp ha)
  | some w =>
    cases hv : lastValue arcs p with
    | none =>
      have hmem := mem_of_lookup hl
      rw [lastValue, List.lookup_eq_none_iff] at hv
      simpa using hv _ (List.mem_reverse.mpr hmem)
    | some v =>
      have hmem := h.lookup_eq (mem_of_lastValue hv)
      rw [← hmem, hl]

/-- A printed arc without a star is a place of weight 1. -/
theorem arcText_eq_iff {a : String × Nat} {w : String} (hw : '*' ∉ w.toList) :
    arcText a = w ↔ a = (w, 1) := by
  obtain ⟨p, k⟩ := a
  rw [arcText]
  constructor
  · intro h
    by_cases hk : k = 1
    · rw [if_pos hk] at h
      rw [← h, hk]
    · rw [if_neg hk] at h
      rw [← h] at hw
      simp at hw
  · rintro ⟨⟩
    rw [if_pos rfl]

/-- The line that says a transition. -/
theorem Declaration.Says.of_transition {ws : List String} {id : String}
    {inputs outputs : List (String × Nat)} (h : Says ws (some (.transition id inputs outputs))) :
    ∃ rest us vs, ws = "tr" :: id :: rest ∧ Labelled rest (us ++ "->" :: vs) ∧ "->" ∉ us ∧
      List.Forall₂ SaysArc us inputs ∧ List.Forall₂ SaysArc vs outputs := by
  cases h with
  | @transition _ rest us vs _ _ hlabel harrow hin hout =>
    exact ⟨rest, us, vs, rfl, hlabel, harrow, hin, hout⟩

namespace Transition

variable {t : Transition}

/-- The words behind the name on the line of a transition. -/
def words (t : Transition) : List String :=
  t.pre.map arcText ++ "->" :: t.post.map arcText

theorem mem_map_arcText {arcs : Arcs} {w : String} (hw : '*' ∉ w.toList) :
    w ∈ arcs.map arcText ↔ (w, 1) ∈ arcs := by
  rw [List.mem_map]
  constructor
  · rintro ⟨a, ha, h⟩
    rwa [← (arcText_eq_iff hw).mp h]
  · intro h
    exact ⟨(w, 1), h, (arcText_eq_iff hw).mpr rfl⟩

/-- The line of a reprintable transition says the transition. -/
theorem Reprintable.said (h : t.Reprintable) (hsorted : t.pre.Sorted)
    (hpre : ∀ a ∈ t.pre, LegibleArc a) (hpost : ∀ a ∈ t.post, LegibleArc a) :
    Declaration.Says t.row (some (.transition t.id t.pre t.post)) := by
  have hbare : t.words.head? ≠ some ":" := by
    unfold words
    cases hcases : t.pre with
    | nil => simp
    | cons a rest =>
      intro hhead
      have hcolon : a = (":", 1) := (arcText_eq_iff (by decide)).mp (Option.some.inj hhead)
      refine h.2 ?_
      rw [NameMap.Sorted, hcases] at hsorted
      rw [hcases, ← hcolon]
      refine ⟨List.mem_cons_self, List.forall_mem_cons.mpr ⟨?_, fun b hb => ?_⟩⟩
      · exact (congrArg Prod.fst hcolon) ▸ String.le_refl _
      · have hlt := (List.pairwise_cons.mp hsorted).1 b hb
        rw [hcolon] at hlt
        exact String.not_lt.mp fun hgt => String.lt_irrefl _ (String.lt_trans hlt hgt)
  have harrow : "->" ∉ t.pre.map arcText := mt (mem_map_arcText (by decide)).mp h.1
  have hsaid : ∀ arcs : Arcs, (∀ a ∈ arcs, LegibleArc a) →
      List.Forall₂ Declaration.SaysArc (arcs.map arcText) arcs := by
    intro arcs harcs
    rw [List.forall₂_map_left_iff, List.forall₂_same]
    exact fun a ha => Declaration.says_arcText (harcs a ha)
  exact .transition (.bare hbare) harrow (hsaid t.pre hpre) (hsaid t.post hpost)

/-- A colon does not stand before an arrow among sorted arcs. -/
theorem not_colon_arrow {arcs : Arcs} (h : arcs.Sorted) :
    ¬ [":", "->"].Sublist (arcs.map arcText) := by
  intro hsub
  obtain ⟨l, hl, hmap⟩ := List.sublist_map_iff.mp hsub
  have hpair : l.Pairwise fun a b => a.1 < b.1 := List.Pairwise.sublist hl h
  obtain ⟨a, l, rfl, ha, hmap⟩ := List.map_eq_cons_iff.mp hmap.symm
  obtain ⟨b, l, rfl, hb, -⟩ := List.map_eq_cons_iff.mp hmap
  rw [arcText_eq_iff (by decide)] at ha hb
  rw [ha, hb] at hpair
  have hlt : ":" < "->" := (List.pairwise_cons.mp hpair).1 _ List.mem_cons_self
  exact absurd hlt (by decide)

theorem labelled_suffix {ws rest : List String} (h : Declaration.Labelled (":" :: ws) rest) :
    rest <:+ ws := by
  cases h with
  | bare h => exact absurd rfl h
  | @word w _ _ => exact List.suffix_cons w rest
  | @braces us w _ _ _ _ => exact ⟨us ++ [w], by simp⟩

/-- What is read as an input is the word of the same arc. -/
theorem text_of_said {us : List String} {inputs : List (String × Nat)}
    (hpre : ∀ a ∈ t.pre, LegibleArc a) (hpost : ∀ a ∈ t.post, LegibleArc a)
    (hin : List.Forall₂ Declaration.SaysArc us inputs) (harrow : "->" ∉ us)
    (hus : ∀ u ∈ us, u ∈ t.words) {a : String × Nat} (ha : a ∈ inputs) : arcText a ∈ us := by
  obtain ⟨w, hw, hsaid⟩ := exists_of_forall₂ hin a ha
  have hmem : w ∈ (t.pre ++ t.post).map arcText := by
    have hword := hus w hw
    rw [words, List.mem_append, List.mem_cons] at hword
    rw [List.map_append, List.mem_append]
    rcases hword with hword | rfl | hword
    · exact .inl hword
    · exact absurd hw harrow
    · exact .inr hword
  obtain ⟨b, hb, rfl⟩ := List.mem_map.mp hmem
  have hlegible : LegibleArc b := (List.mem_append.mp hb).elim (hpre b) (hpost b)
  rwa [hsaid.unique (Declaration.says_arcText hlegible)]

/-- A place named as the arrow is not read as an input of weight 1. -/
theorem arrow_not_mem {inputs outputs : List (String × Nat)}
    (hpre : ∀ a ∈ t.pre, LegibleArc a) (hpost : ∀ a ∈ t.post, LegibleArc a)
    (hsaid : Declaration.Says t.row (some (.transition t.id inputs outputs))) :
    ("->", 1) ∉ inputs := by
  obtain ⟨ws, us, vs, hrow, hlabel, harrow, hin, -⟩ := hsaid.of_transition
  obtain rfl : t.words = ws := (List.cons.inj (List.cons.inj hrow).2).2
  have hus : ∀ u ∈ us, u ∈ t.words := fun u hu => hlabel.mem u (List.mem_append_left _ hu)
  intro hmem
  exact harrow (text_of_said hpre hpost hin harrow hus hmem)

/-- A colon that is the first input is not read as an input of weight 1. -/
theorem colon_not_mem {inputs outputs : List (String × Nat)} (hsorted : t.pre.Sorted)
    (hsorted' : t.post.Sorted) (hpre : ∀ a ∈ t.pre, LegibleArc a)
    (hpost : ∀ a ∈ t.post, LegibleArc a)
    (hsaid : Declaration.Says t.row (some (.transition t.id inputs outputs)))
    (hcolon : (":", 1) ∈ t.pre) (hleast : ∀ a ∈ t.pre, ":" ≤ a.1) : (":", 1) ∉ inputs := by
  obtain ⟨ws, us, vs, hrow, hlabel, harrow, hin, -⟩ := hsaid.of_transition
  obtain rfl : t.words = ws := (List.cons.inj (List.cons.inj hrow).2).2
  have hus : ∀ u ∈ us, u ∈ t.words := fun u hu => hlabel.mem u (List.mem_append_left _ hu)
  intro hmem
  have hinside : ":" ∈ us := text_of_said hpre hpost hin harrow hus hmem
  -- the first word is the colon, so a label begins there; the colon in `us` stands behind it
  obtain ⟨a, rest, hcases⟩ := List.exists_cons_of_ne_nil (List.ne_nil_of_mem hcolon)
  rw [NameMap.Sorted, hcases] at hsorted
  obtain ⟨hfirst, -⟩ := List.pairwise_cons.mp hsorted
  have ha : a = (":", 1) := by
    rw [hcases] at hcolon hleast
    rcases List.mem_cons.mp hcolon with hcolon | hcolon
    · exact hcolon.symm
    · exact absurd (hfirst _ hcolon) (String.not_lt.mpr (hleast a List.mem_cons_self))
  have hwords : t.words = ":" :: (rest.map arcText ++ "->" :: t.post.map arcText) := by
    rw [words, hcases, ha]
    rfl
  have hsub : [":", "->"].Sublist (rest.map arcText ++ "->" :: t.post.map arcText) := by
    rw [hwords] at hlabel
    refine List.Sublist.trans ?_ (labelled_suffix hlabel).sublist
    exact List.Sublist.append (List.singleton_sublist.mpr hinside)
      (List.singleton_sublist.mpr List.mem_cons_self)
  obtain ⟨l, l', hl, hleft, hright⟩ := List.sublist_append_iff.mp hsub
  cases l with
  | nil =>
    rw [List.nil_append] at hl
    rw [← hl] at hright
    rcases List.sublist_cons_iff.mp hright with hright | ⟨r, hr, -⟩
    · exact not_colon_arrow hsorted' hright
    · exact absurd (List.cons.inj hr).1 (by decide)
  | cons w l =>
    have hw : w = ":" := (List.cons.inj hl).1.symm
    have hbehind : ":" ∈ rest.map arcText := hw ▸ hleft.subset List.mem_cons_self
    have hlt := hfirst _ ((mem_map_arcText (by decide)).mp hbehind)
    rw [ha] at hlt
    exact String.lt_irrefl _ hlt

end Transition

/-! ## What comes back -/

theorem Declaration.exists_of_mem_inputsOf {d : Declaration} {t : String} {a : String × Nat}
    (h : a ∈ d.inputsOf t) : ∃ inputs outputs, d = .transition t inputs outputs ∧ a ∈ inputs := by
  cases d with
  | net id => simp [inputsOf] at h
  | place id tokens => simp [inputsOf] at h
  | transition id inputs outputs =>
    rw [inputsOf] at h
    by_cases hid : id = t
    · rw [if_pos hid] at h
      exact ⟨inputs, outputs, by rw [hid], h⟩
    · simp [if_neg hid] at h

theorem eraseDups_of_nodup {xs : List String} (h : xs.Nodup) : xs.eraseDups = xs := by
  induction xs with
  | nil => rfl
  | cons x xs ih =>
    obtain ⟨hx, hxs⟩ := List.nodup_cons.mp h
    have hothers : xs.filter (fun y => !y == x) = xs := by
      rw [List.filter_eq_self]
      intro y hy
      simpa using fun hyx : y = x => hx (hyx ▸ hy)
    rw [List.eraseDups_cons, hothers, ih hxs]

namespace Net

variable {n n' : Net}

/-- What the line of a place declares. -/
def placeShown (p : Place) : Declaration :=
  .place p.id p.tokens.toNat

/-- What the line of a transition declares. -/
def transitionShown (t : Transition) : Declaration :=
  .transition t.id t.pre t.post

/-- What the first line of a net declares. -/
def header (n : Net) : Option Declaration :=
  if n.id = "" then none else some (.net n.id)

theorem eq_net_of_header {d : Declaration} (h : n.header = some d) : d = .net n.id := by
  rw [header] at h
  by_cases hid : n.id = ""
  · rw [if_pos hid] at h
    cases h
  · rw [if_neg hid] at h
    exact (Option.some.inj h).symm

/-- The declarations that a net is printed as. -/
def printed (n : Net) : List Declaration :=
  n.header.toList ++
    ((n.places.filter n.shows).map placeShown ++ n.transitions.map transitionShown)

theorem mem_printed {d : Declaration} : d ∈ n.printed ↔ n.header = some d ∨
    (∃ p ∈ n.places, n.shows p = true ∧ d = .place p.id p.tokens.toNat) ∨
      ∃ t ∈ n.transitions, d = .transition t.id t.pre t.post := by
  rw [printed, List.mem_append, List.mem_append, Option.mem_toList]
  simp only [List.mem_map, List.mem_filter, and_assoc, placeShown, transitionShown,
    eq_comm (b := d)]

theorem Legible.says_header (h : n.Legible) :
    Declaration.LineSays (" ".intercalate ["net", n.id]) n.header := by
  rw [Declaration.LineSays, Text.fields_intercalate (h.rows _ List.mem_cons_self), header]
  by_cases hid : n.id = ""
  · rw [if_pos hid, hid]
    exact .nameless
  · have hwords : ["net", n.id].filter (· ≠ "") = ["net", n.id] := by simp [hid]
    rw [if_neg hid, hwords]
    exact .net

theorem Legible.says_place (h : n.Legible) {p : Place} (hp : p ∈ n.places) :
    Declaration.LineSays (" ".intercalate p.row) (some (placeShown p)) := by
  obtain ⟨k, hk, hle⟩ := h.tokens p hp
  rw [Declaration.LineSays, fields_row (h.place_row hp), Place.row, placeShown]
  by_cases hzero : p.tokens = 0
  · rw [if_pos hzero, hzero]
    exact .place (.bare (by simp)) .empty
  · rw [if_neg hzero, hk]
    refine .place (.bare fun hhead => ?_) (Declaration.says_tokens hle)
    have hcolon := congrArg (fun s => s.toList.head?) (Option.some.inj hhead)
    simp at hcolon

theorem Legible.says_transition (h : n.Legible) (hn : n.WellFormed) {t : Transition}
    (ht : t ∈ n.transitions) (hr : t.Reprintable) :
    Declaration.LineSays (" ".intercalate t.row) (some (transitionShown t)) := by
  rw [Declaration.LineSays, fields_row (h.transition_row ht)]
  exact hr.said (hn.arcs t ht).1.sorted (h.pre t ht) (h.post t ht)

/-- The lines of a net with reprintable transitions say its declarations. -/
theorem Legible.says_printed (h : n.Legible) (hn : n.WellFormed)
    (hall : ∀ t ∈ n.transitions, t.Reprintable) : ∃ es : List (Option Declaration),
      List.Forall₂ Declaration.LineSays (Text.lines n.render) es ∧
        es.reduceOption = n.printed := by
  have hplaces : List.Forall₂ Declaration.LineSays
      ((n.places.filter n.shows).map fun p => " ".intercalate p.row)
      ((n.places.filter n.shows).map fun p => some (placeShown p)) := by
    rw [List.forall₂_map_left_iff, List.forall₂_map_right_iff, List.forall₂_same]
    exact fun p hp => h.says_place (List.mem_of_mem_filter hp)
  have htransitions : List.Forall₂ Declaration.LineSays
      (n.transitions.map fun t => " ".intercalate t.row)
      (n.transitions.map fun t => some (transitionShown t)) := by
    rw [List.forall₂_map_left_iff, List.forall₂_map_right_iff, List.forall₂_same]
    exact fun t ht => h.says_transition hn ht (hall t ht)
  have hend : Declaration.LineSays "" none := .other (by decide) (by decide) (by decide)
  have hlines : Text.lines n.render = " ".intercalate ["net", n.id] ::
      (((n.places.filter n.shows).map fun p => " ".intercalate p.row) ++
        (n.transitions.map fun t => " ".intercalate t.row)) ++ [""] := by
    rw [h.lines_render, Net.rows, List.map_cons, List.map_append, List.map_map, List.map_map]
    rfl
  refine ⟨n.header :: ((n.places.filter n.shows).map placeShown ++
    n.transitions.map transitionShown).map some ++ [none], ?_, ?_⟩
  · rw [hlines, List.map_append, List.map_map, List.map_map]
    exact List.rel_append (.cons h.says_header (List.rel_append hplaces htransitions))
      (.cons hend .nil)
  · have hsome : ∀ ds : List Declaration, (ds.map some).reduceOption = ds := by
      intro ds
      simp [List.reduceOption]
    rw [printed, List.reduceOption_append, ← List.singleton_append, List.reduceOption_append,
      hsome, List.reduceOption_singleton, List.reduceOption_singleton]
    simp

theorem mem_places_printed (hn : n.WellFormed) {p : String} :
    p ∈ n.printed.flatMap Declaration.mentions ↔ n.Has p := by
  rw [List.mem_flatMap]
  constructor
  · rintro ⟨d, hd, hmem⟩
    rcases mem_printed.mp hd with hd | ⟨q, hq, -, rfl⟩ | ⟨t, ht, rfl⟩
    · rw [eq_net_of_header hd] at hmem
      simp [Declaration.mentions] at hmem
    · exact ⟨q, hq, (List.mem_singleton.mp hmem).symm⟩
    · obtain ⟨a, ha, rfl⟩ := List.mem_map.mp hmem
      rcases List.mem_append.mp ha with ha | ha
      · exact (hn.arcs t ht).1.known a ha
      · exact (hn.arcs t ht).2.known a ha
  · rintro ⟨q, hq, rfl⟩
    by_cases hshows : n.shows q = true
    · exact ⟨_, mem_printed.mpr (.inr (.inl ⟨q, hq, hshows, rfl⟩)), by simp [Declaration.mentions]⟩
    · -- an arc mentions it
      have hjoined : n.isolated q = false := by
        simp only [shows, Bool.or_eq_true, not_or, Bool.not_eq_true] at hshows
        exact hshows.2
      obtain ⟨t, ht, htouch⟩ : ∃ t ∈ n.transitions, t.touches q.id = true := by
        simpa [isolated] using hjoined
      refine ⟨_, mem_printed.mpr (.inr (.inr ⟨t, ht, rfl⟩)), ?_⟩
      rw [Declaration.mentions, List.map_append, List.mem_append]
      rw [Transition.touches, Bool.or_eq_true, Arcs.touches, Arcs.touches, Option.isSome_iff_exists,
        Option.isSome_iff_exists] at htouch
      rcases htouch with ⟨w, hw⟩ | ⟨w, hw⟩
      · exact .inl (List.mem_map.mpr ⟨_, NameMap.mem_of_lookup hw, rfl⟩)
      · exact .inr (List.mem_map.mpr ⟨_, NameMap.mem_of_lookup hw, rfl⟩)

theorem tokens_printed (h : n.Legible) (hn : n.WellFormed) {p : Place} (hp : p ∈ n.places) :
    ((n.printed.reverse.findSome? (·.tokens? p.id)).getD 0 : Nat) = p.tokens := by
  obtain ⟨k, hk, -⟩ := h.tokens p hp
  cases hfind : n.printed.reverse.findSome? (·.tokens? p.id) with
  | none =>
    rw [List.findSome?_eq_none_iff] at hfind
    by_contra hne
    have hshows : n.shows p = true := by
      simp only [shows, Bool.or_eq_true, decide_eq_true_eq]
      exact .inl fun hzero => hne hzero.symm
    have hmem : Declaration.place p.id p.tokens.toNat ∈ n.printed :=
      mem_printed.mpr (.inr (.inl ⟨p, hp, hshows, rfl⟩))
    have hnone := hfind _ (List.mem_reverse.mpr hmem)
    simp [Declaration.tokens?] at hnone
  | some v =>
    obtain ⟨d, hd, hv⟩ := List.exists_of_findSome?_eq_some hfind
    rcases mem_printed.mp (List.mem_reverse.mp hd) with hd | ⟨q, hq, -, rfl⟩ | ⟨t, ht, rfl⟩
    · rw [eq_net_of_header hd] at hv
      cases hv
    · rw [Declaration.tokens?] at hv
      by_cases hid : q.id = p.id
      · obtain rfl := List.inj_on_of_nodup_map hn.places_nodup hq hp hid
        rw [if_pos rfl] at hv
        rw [← Option.some.inj hv, hk]
        rfl
      · rw [if_neg hid] at hv
        cases hv
    · cases hv

theorem flatMap_eq_of_mem {ts : List Transition} (hts : (ts.map (·.id)).Nodup) {t : Transition}
    (ht : t ∈ ts) (f : Transition → List (String × Nat)) :
    ts.flatMap (fun u => if u.id = t.id then f u else []) = f t := by
  induction ts with
  | nil => simp at ht
  | cons u ts ih =>
    obtain ⟨hu, hts⟩ := List.nodup_cons.mp hts
    rw [List.flatMap_cons]
    rcases List.mem_cons.mp ht with rfl | ht
    · have hrest : ts.flatMap (fun u => if u.id = t.id then f u else []) = [] := by
        rw [List.flatMap_eq_nil_iff]
        intro v hv
        rw [if_neg]
        intro hvt
        exact hu (List.mem_map.mpr ⟨v, hv, hvt⟩)
      rw [if_pos rfl, hrest, List.append_nil]
    · rw [if_neg, ih hts ht, List.nil_append]
      intro hut
      exact hu (List.mem_map.mpr ⟨t, ht, hut.symm⟩)

/-- What the printed declarations give to a transition stands in its own line. -/
theorem flatMap_printed (hn : n.WellFormed) {t : Transition} (ht : t ∈ n.transitions)
    {g : Declaration → List (String × Nat)} {f : Transition → List (String × Nat)}
    (hnet : ∀ id, g (.net id) = []) (hplace : ∀ p, g (placeShown p) = [])
    (htransition : ∀ u, g (transitionShown u) = if u.id = t.id then f u else []) :
    n.printed.flatMap g = f t := by
  have hheader : n.header.toList.flatMap g = [] := by
    rw [List.flatMap_eq_nil_iff]
    intro d hd
    rw [eq_net_of_header (Option.mem_toList.mp hd), hnet]
  have hplaces : ((n.places.filter n.shows).map placeShown).flatMap g = [] := by
    rw [List.flatMap_eq_nil_iff]
    intro d hd
    obtain ⟨p, -, rfl⟩ := List.mem_map.mp hd
    exact hplace p
  rw [printed, List.flatMap_append, List.flatMap_append, hheader, hplaces, List.flatMap_map,
    funext htransition]
  exact flatMap_eq_of_mem hn.transitions_nodup ht f

theorem inputsOf_printed (hn : n.WellFormed) {t : Transition} (ht : t ∈ n.transitions) :
    n.printed.flatMap (·.inputsOf t.id) = t.pre :=
  flatMap_printed hn ht (fun _ => rfl) (fun _ => rfl) fun _ => rfl

theorem outputsOf_printed (hn : n.WellFormed) {t : Transition} (ht : t ∈ n.transitions) :
    n.printed.flatMap (·.outputsOf t.id) = t.post :=
  flatMap_printed hn ht (fun _ => rfl) (fun _ => rfl) fun _ => rfl

theorem netName?_printed (n : Net) : n.printed.filterMap Declaration.netName? =
    if n.id = "" then [] else [n.id] := by
  have hplaces :
      ((n.places.filter n.shows).map placeShown).filterMap Declaration.netName? = [] := by
    rw [List.filterMap_map, List.filterMap_eq_nil_iff]
    exact fun p _ => rfl
  have htransitions : (n.transitions.map transitionShown).filterMap Declaration.netName? = [] := by
    rw [List.filterMap_map, List.filterMap_eq_nil_iff]
    exact fun t _ => rfl
  rw [printed, List.filterMap_append, List.filterMap_append, hplaces, htransitions, header]
  split <;> rfl

theorem transitionName?_printed (n : Net) :
    n.printed.filterMap Declaration.transitionName? = n.transitions.map (·.id) := by
  have hplaces : ((n.places.filter n.shows).map placeShown).filterMap
      Declaration.transitionName? = [] := by
    rw [List.filterMap_map, List.filterMap_eq_nil_iff]
    exact fun p _ => rfl
  have htransitions : (n.transitions.map transitionShown).filterMap Declaration.transitionName? =
      n.transitions.map (·.id) := by
    rw [List.filterMap_map, ← List.filterMap_eq_map]
    rfl
  have hheader : n.header.toList.filterMap Declaration.transitionName? = [] := by
    rw [header]
    split <;> rfl
  rw [printed, List.filterMap_append, List.filterMap_append, hplaces, htransitions, hheader]
  rfl

/-- A net that is described by what another is printed as is like it. -/
theorem Described.alike (h : n'.Described n.printed) (hn' : n'.WellFormed) (hn : n.WellFormed)
    (hlegible : n.Legible) : n.Alike n' where
  id := by
    rw [h.id, netName?_printed]
    by_cases hid : n.id = ""
    · rw [if_pos hid, hid]
      rfl
    · rw [if_neg hid]
      rfl
  places p := by
    have hsame : ∀ q ∈ n'.places, ∀ r ∈ n.places, q.id = r.id → q = r := by
      intro q hq r hr hqr
      have htokens : q.tokens = r.tokens := by
        rw [h.tokens q hq, hqr, tokens_printed hlegible hn hr]
      exact congrArg₂ Place.mk hqr htokens
    have hnames : ∀ q, n'.Has q ↔ n.Has q := by
      intro q
      rw [← mem_places_printed hn, ← List.mem_eraseDups, ← h.places, List.mem_map]
      rfl
    constructor
    · intro hp
      obtain ⟨r, hr, hrp⟩ := (hnames p.id).mp ⟨p, hp, rfl⟩
      rwa [hsame p hp r hr hrp.symm]
    · intro hp
      obtain ⟨q, hq, hqp⟩ := (hnames p.id).mpr ⟨p, hp, rfl⟩
      rwa [← hsame q hq p hp hqp]
  transitions := by
    have hids : n'.transitions.map (·.id) = n.transitions.map (·.id) := by
      rw [h.transitions, transitionName?_printed, eraseDups_of_nodup hn.transitions_nodup]
    refine map_eq_of_map_eq hids fun t' ht' t ht hid => ?_
    have harcs := h.arcs t' ht'
    rw [hid, inputsOf_printed hn ht, outputsOf_printed hn ht] at harcs
    have hpre : t'.pre = t.pre := by
      refine (hn'.arcs t' ht').1.sorted.ext (hn.arcs t ht).1.sorted fun p => ?_
      rw [harcs.pre, (hn.arcs t ht).1.sorted.lastValue_eq]
    have hpost : t'.post = t.post := by
      refine (hn'.arcs t' ht').2.sorted.ext (hn.arcs t ht).2.sorted fun p => ?_
      rw [harcs.post, (hn.arcs t ht).2.sorted.lastValue_eq]
    rw [hid, hpre, hpost]

theorem Alike.exists_transition (h : n.Alike n') {t : Transition} (ht : t ∈ n.transitions) :
    ∃ t' ∈ n'.transitions, t'.id = t.id ∧ t'.pre = t.pre := by
  have hmem : (t.id, t.pre, t.post) ∈ n'.transitions.map fun t => (t.id, t.pre, t.post) := by
    rw [h.transitions]
    exact List.mem_map.mpr ⟨t, ht, rfl⟩
  obtain ⟨t', ht', heq⟩ := List.mem_map.mp hmem
  exact ⟨t', ht', congrArg (·.1) heq, congrArg (·.2.1) heq⟩

/-- The line that says a transition of a printed net is that of the transition. -/
theorem Legible.says_row (h : n.Legible) (hn : n.WellFormed) {t : Transition}
    (ht : t ∈ n.transitions) {l : String} (hl : l ∈ Text.lines n.render)
    {inputs outputs : List (String × Nat)}
    (hsaid : Declaration.LineSays l (some (.transition t.id inputs outputs))) :
    Declaration.Says t.row (some (.transition t.id inputs outputs)) := by
  obtain ⟨rest, -, -, hwords, -⟩ := Declaration.Says.of_transition hsaid
  rw [h.lines_render, List.mem_append, List.mem_map] at hl
  rcases hl with ⟨ws, hws, rfl⟩ | hl
  · rcases List.mem_cons.mp hws with rfl | hws
    · rw [Text.fields_intercalate (h.rows _ hws)] at hwords
      simp at hwords
    · rcases List.mem_append.mp hws with hws | hws
      · obtain ⟨p, hp, rfl⟩ := List.mem_map.mp hws
        rw [fields_row (h.place_row (List.mem_of_mem_filter hp)), Place.row] at hwords
        split at hwords <;> simp at hwords
      · obtain ⟨u, hu, rfl⟩ := List.mem_map.mp hws
        rw [Declaration.LineSays, fields_row (h.transition_row hu)] at hsaid
        rw [fields_row (h.transition_row hu)] at hwords
        have hid : u.id = t.id := (List.cons.inj (List.cons.inj hwords).2).1
        rwa [List.inj_on_of_nodup_map hn.transitions_nodup hu ht hid] at hsaid
  · obtain rfl := List.mem_singleton.mp hl
    have hnone : Text.fields (Declaration.normalize "") = [] := rfl
    rw [hnone] at hwords
    cases hwords

/-- Where a net comes back, each input of a transition was read from the line of the transition. -/
theorem Alike.exists_says (h : n.Alike n') (hparse : Net.parse n.render = .ok n')
    (hn : n.WellFormed) (hlegible : n.Legible) {t : Transition} (ht : t ∈ n.transitions)
    {a : String × Nat} (ha : a ∈ t.pre) : ∃ inputs outputs,
      Declaration.Says t.row (some (.transition t.id inputs outputs)) ∧ a ∈ inputs := by
  obtain ⟨es, hes, rfl⟩ := readLines_eq_ok_iff.mp hparse
  have hdescribed := described_empty.declareAll es.reduceOption
  obtain ⟨t', ht', hid, hpre⟩ := h.exists_transition ht
  have hlookup := (hn.arcs t ht).1.sorted.lookup_eq ha
  rw [← hpre] at hlookup
  obtain ⟨d, hd, hmem⟩ := hdescribed.exists_input ht' hlookup
  rw [hid] at hmem
  obtain ⟨inputs, outputs, rfl, hinput⟩ := Declaration.exists_of_mem_inputsOf hmem
  obtain ⟨l, hl, hsaid⟩ := exists_of_forall₂ hes _ (List.reduceOption_mem_iff.mp hd)
  exact ⟨inputs, outputs, hlegible.says_row hn ht hl hsaid, hinput⟩

/-- **A net comes back from its text if and only if its transitions are reprintable.** -/
theorem alike_iff_reprintable {s : String} (h : Net.parse s = .ok n) :
    (∃ n', Net.parse n.render = .ok n' ∧ n.Alike n') ↔ ∀ t ∈ n.transitions, t.Reprintable := by
  have hn := wellFormed_of_parse h
  have hlegible := legible_of_parse h
  constructor
  · rintro ⟨n', hparse, halike⟩ t ht
    refine ⟨fun hmem => ?_, ?_⟩
    · obtain ⟨inputs, outputs, hsaid, harrow⟩ := halike.exists_says hparse hn hlegible ht hmem
      exact Transition.arrow_not_mem (hlegible.pre t ht) (hlegible.post t ht) hsaid harrow
    · rintro ⟨hmem, hleast⟩
      obtain ⟨inputs, outputs, hsaid, hcolon⟩ := halike.exists_says hparse hn hlegible ht hmem
      exact Transition.colon_not_mem (hn.arcs t ht).1.sorted (hn.arcs t ht).2.sorted
        (hlegible.pre t ht) (hlegible.post t ht) hsaid hmem hleast hcolon
  · intro hall
    obtain ⟨es, hes, hprinted⟩ := hlegible.says_printed hn hall
    have hparse : Net.parse n.render = .ok (es.reduceOption.foldl declare {}) :=
      readLines_eq_ok_iff.mpr ⟨es, hes, rfl⟩
    refine ⟨_, hparse, Described.alike ?_ (wellFormed_of_parse hparse) hn hlegible⟩
    rw [← hprinted]
    exact described_empty.declareAll es.reduceOption

/-- One transition from the place `p`, with a weight. -/
def fedBy (p : String) (w : Nat) : Net where
  places := [⟨p, 0⟩, ⟨"q", 0⟩]
  transitions := [{ id := "t", pre := [(p, w)], post := [("q", 1)], connected := [p, "q"] }]

/-- An arrow of weight 2 comes back; an arrow or a colon of weight 1 does not. -/
theorem alike_iff_reprintable_arrow :
    (∃ n', Net.parse (fedBy "->" 2).render = .ok n' ∧ (fedBy "->" 2).Alike n') ∧
      (¬ ∃ n', Net.parse (fedBy "->" 1).render = .ok n' ∧ (fedBy "->" 1).Alike n') ∧
        ¬ ∃ n', Net.parse (fedBy ":" 1).render = .ok n' ∧ (fedBy ":" 1).Alike n' := by
  have htwo : Net.parse "tr t ->*2 -> q" = .ok (fedBy "->" 2) := by decide +kernel
  have hone : Net.parse "tr t ->*1 -> q" = .ok (fedBy "->" 1) := by decide +kernel
  have hcolon : Net.parse "tr t :*1 -> q" = .ok (fedBy ":" 1) := by decide +kernel
  rw [alike_iff_reprintable htwo, alike_iff_reprintable hone, alike_iff_reprintable hcolon]
  simp only [fedBy, Transition.Reprintable, List.forall_mem_singleton, String.le_refl]
  decide

end Net

end PetriReach
