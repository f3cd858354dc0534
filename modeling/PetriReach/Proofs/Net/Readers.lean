import PetriReach.Program
import PetriReach.Proofs.Net.Printed

/-!
# Readers

A net can be read from a text or from a file with that text. Both readers go through the lines of
the text, cut in two ways, and stop at the first line that cannot be read. Whether a line can be
read depends on the line alone.

* `Text.HasLine.exists_index`, `Text.hasLine_of_index`: the lines of a text, by their numbers.
* `Net.parseStored_eq_parse`: the last line makes no difference where it is empty.
* `Net.readLines_eq_error_iff`: the error is that of the first line with one.
* `Net.readers_agree`: both readers, and the lines read alone.
-/

namespace PetriReach

/-! ## Lines -/

namespace Text

/-- A text of one line. -/
def Inline (s : String) : Prop :=
  '\n' ∉ s.toList

/-- The text has the line `l` under the number `k`, from 1. A line ends before a line feed or at the
end of the text, and after a line feed there is another line. -/
inductive HasLine : String → Nat → String → Prop where
  | only {l : String} (hl : Inline l) : HasLine l 1 l
  | first {l : String} (hl : Inline l) (rest : String) : HasLine (l ++ "\n" ++ rest) 1 l
  | later {u rest l : String} {k : Nat} (hu : Inline u) (h : HasLine rest k l) :
      HasLine (u ++ "\n" ++ rest) (k + 1) l

theorem HasLine.inline {s l : String} {k : Nat} (h : HasLine s k l) : Inline l := by
  induction h with
  | only hl => exact hl
  | first hl => exact hl
  | later _ _ ih => exact ih

theorem Inline.decide_eq {s : String} (h : Inline s) :
    ∀ c ∈ s.toList, decide (c = '\n') = false := by
  intro c hc
  refine decide_eq_false ?_
  rintro rfl
  exact h hc

theorem Inline.lines {s : String} (h : Inline s) : lines s = [s] := by
  rw [Text.lines, pieces_of_forall h.decide_eq]
  simp

theorem Inline.lines_append {u : String} (h : Inline u) (rest : String) :
    Text.lines (u ++ "\n" ++ rest) = u :: Text.lines rest := by
  have hchars : (u ++ "\n" ++ rest).toList = u.toList ++ '\n' :: rest.toList := by simp
  rw [Text.lines, hchars, pieces_append_cons h.decide_eq (by simp), List.map_cons,
    String.ofList_toList]
  rfl

/-- A text is one line, or it is cut at its first line feed. -/
theorem inline_or_cut (s : String) :
    Inline s ∨ ∃ u rest, Inline u ∧ s = u ++ "\n" ++ rest := by
  by_cases h : '\n' ∈ s.toList
  · obtain ⟨us, rest, hs, hus⟩ := List.eq_append_cons_of_mem h
    refine .inr ⟨String.ofList us, String.ofList rest, ?_, ?_⟩
    · rw [Inline, String.toList_ofList]
      exact hus
    · rw [← String.toList_inj, hs]
      simp
  · exact .inl h

theorem HasLine.exists_index {s l : String} {k : Nat} (h : HasLine s k l) :
    ∃ i, k = i + 1 ∧ (lines s)[i]? = some l := by
  induction h with
  | only hl => exact ⟨0, rfl, by rw [hl.lines]; rfl⟩
  | first hl rest => exact ⟨0, rfl, by rw [hl.lines_append]; rfl⟩
  | later hu _ ih =>
    obtain ⟨i, rfl, hi⟩ := ih
    exact ⟨i + 1, rfl, by rw [hu.lines_append]; exact hi⟩

theorem hasLine_of_index {s l : String} {i : Nat} (h : (lines s)[i]? = some l) :
    HasLine s (i + 1) l := by
  induction i generalizing s with
  | zero =>
    rcases inline_or_cut s with hs | ⟨u, rest, hu, rfl⟩
    · rw [hs.lines] at h
      cases h
      exact .only hs
    · rw [hu.lines_append] at h
      cases h
      exact .first hu rest
  | succ i ih =>
    rcases inline_or_cut s with hs | ⟨u, rest, hu, rfl⟩
    · rw [hs.lines] at h
      cases h
    · rw [hu.lines_append] at h
      exact .later hu (ih h)

/-- The two ways to cut a text differ in an empty line at the end. -/
theorem lines_eq_storedLines (s : String) :
    lines s = storedLines s ∨ lines s = storedLines s ++ [""] := by
  unfold storedLines
  dsimp only
  split
  · next h => exact .inr (List.dropLast_append_getLast? "" h).symm
  · exact .inl rfl

/-- A number in front of a text holds no NUL character. -/
theorem beforeNul_toString_append (k : Nat) (s : String) :
    beforeNul (toString k ++ s) = toString k ++ beforeNul s := by
  have hdigits : ∀ c ∈ (toString k).toList, decide (c ≠ '\x00') = true := by
    intro c hc
    have hlist : (toString k).toList = Nat.toDigits 10 k := Nat.toList_repr
    rw [hlist] at hc
    rw [decide_eq_true_eq]
    rintro rfl
    cases Smt.isDigit_of_mem_toDigits hc
  rw [← String.toList_inj, beforeNul, String.toList_ofList, String.toList_append,
    List.takeWhile_append_of_pos hdigits, String.toList_append, beforeNul, String.toList_ofList]

end Text

/-! ## Readers -/

namespace Net

variable {n : Net} {k : Nat} {ls : List String}

/-- An empty line at the end declares nothing. -/
theorem readLines_append_empty : n.readLines k (ls ++ [""]) = n.readLines k ls := by
  induction ls generalizing n k with
  | nil => rfl
  | cons l ls ih =>
    rw [List.cons_append, readLines, readLines]
    cases Declaration.parse l with
    | error c => rfl
    | ok d =>
      cases d with
      | none => exact ih
      | some d => exact ih

/-- **The last line makes no difference where it is empty.** -/
theorem parseStored_eq_parse (s : String) : parseStored s = parse s := by
  unfold parseStored parse
  rcases Text.lines_eq_storedLines s with h | h
  · rw [h]
  · rw [h, readLines_append_empty]

/-- The lines, numbered from `k`, have an error, and before it none. -/
def FirstError (ls : List String) (k : Nat) (e : ReadError) : Prop :=
  ∃ i l, ls[i]? = some l ∧ Declaration.parse l = .error e.cause ∧ e.line = k + i ∧
    ∀ j < i, ∀ u, ls[j]? = some u → ∃ d, Declaration.parse u = .ok d

/-- The first line has an error. -/
theorem firstError_cons_error {l : String} {c : Declaration.Error} {e : ReadError}
    (hl : Declaration.parse l = .error c) : FirstError (l :: ls) k e ↔ e = ⟨k, c⟩ := by
  constructor
  · rintro ⟨i, u, hu, hcause, hline, hbefore⟩
    cases i with
    | zero =>
      cases hu
      cases hl.symm.trans hcause
      exact congrArg (ReadError.mk · e.cause) hline
    | succ i =>
      obtain ⟨d, hd⟩ := hbefore 0 (by omega) l rfl
      cases hl.symm.trans hd
  · rintro rfl
    exact ⟨0, l, rfl, hl, rfl, fun j hj => absurd hj (Nat.not_lt_zero j)⟩

/-- The first line has none. -/
theorem firstError_cons_ok {l : String} {d : Option Declaration} {e : ReadError}
    (hl : Declaration.parse l = .ok d) : FirstError (l :: ls) k e ↔ FirstError ls (k + 1) e := by
  constructor
  · rintro ⟨i, u, hu, hcause, hline, hbefore⟩
    cases i with
    | zero =>
      cases hu
      cases hl.symm.trans hcause
    | succ i =>
      exact ⟨i, u, hu, hcause, by omega, fun j hj => hbefore (j + 1) (by omega)⟩
  · rintro ⟨i, u, hu, hcause, hline, hbefore⟩
    refine ⟨i + 1, u, hu, hcause, by omega, fun j hj v hv => ?_⟩
    cases j with
    | zero =>
      cases hv
      exact ⟨d, hl⟩
    | succ j => exact hbefore j (by omega) v hv

/-- **The error is that of the first line with one.** -/
theorem readLines_eq_error_iff {e : ReadError} :
    n.readLines k ls = .error e ↔ FirstError ls k e := by
  induction ls generalizing n k with
  | nil => simp [readLines, FirstError]
  | cons l ls ih =>
    rw [readLines]
    cases hl : Declaration.parse l with
    | error c => rw [firstError_cons_error hl, Except.error.injEq, eq_comm]
    | ok d =>
      rw [firstError_cons_ok hl]
      cases d with
      | none => exact ih
      | some d => exact ih

/-- A line alone is a text. -/
theorem parse_inline {l : String} (h : Text.Inline l) : parse l = readLines {} 1 [l] := by
  rw [parse, h.lines]

theorem parse_inline_eq_error_iff {l : String} (h : Text.Inline l) {e : ReadError} :
    parse l = .error e ↔ Declaration.parse l = .error e.cause ∧ e.line = 1 := by
  rw [parse_inline h, readLines]
  cases Declaration.parse l with
  | error c =>
    obtain ⟨line, cause⟩ := e
    simp [eq_comm, and_comm]
  | ok d => cases d <;> simp [readLines]

theorem parse_inline_isOk_iff {l : String} (h : Text.Inline l) :
    (∃ m, parse l = .ok m) ↔ ∃ d, Declaration.parse l = .ok d := by
  rw [parse_inline h, readLines]
  cases Declaration.parse l with
  | error c => simp
  | ok d => cases d <;> simp [readLines]

/-- The number of the line stands in front, and the rest of the message is that of the cause. -/
theorem ReadError.message_eq (e : ReadError) :
    e.message = toString e.line ++ Text.beforeNul (": ERROR: " ++ e.cause.wording) := by
  rw [message, String.append_assoc, Text.beforeNul_toString_append]

/-- What is reported of a line, alone and under its number: the cause is the same, and so is the
message behind the number. -/
structure Reported (l : String) (e : ReadError) : Prop where
  cause : parse l = .error ⟨1, e.cause⟩
  message : ∃ text, (⟨1, e.cause⟩ : ReadError).message = toString 1 ++ text ∧
    e.message = toString e.line ++ text

theorem reported_iff {l : String} (h : Text.Inline l) {e : ReadError} :
    Reported l e ↔ Declaration.parse l = .error e.cause := by
  constructor
  · intro hreported
    exact ((parse_inline_eq_error_iff h).mp hreported.cause).1
  · intro hcause
    exact ⟨(parse_inline_eq_error_iff h).mpr ⟨hcause, rfl⟩, _, ReadError.message_eq _,
      ReadError.message_eq e⟩

/-- A text is refused with the error of its first line that is refused alone. -/
theorem parse_eq_error_iff {s : String} {e : ReadError} : parse s = .error e ↔
    ∃ l, Text.HasLine s e.line l ∧ Reported l e ∧
      ∀ j < e.line, ∀ u, Text.HasLine s j u → ∃ m, parse u = .ok m := by
  rw [parse, readLines_eq_error_iff]
  constructor
  · rintro ⟨i, l, hl, hcause, hline, hbefore⟩
    rw [Nat.add_comm] at hline
    have hhas := Text.hasLine_of_index hl
    refine ⟨l, hline ▸ hhas, (reported_iff hhas.inline).mpr hcause, fun j hj u hu => ?_⟩
    obtain ⟨j, rfl, hj'⟩ := hu.exists_index
    exact (parse_inline_isOk_iff hu.inline).mpr (hbefore j (by omega) u hj')
  · rintro ⟨l, hhas, hreported, hbefore⟩
    obtain ⟨i, hline, hl⟩ := hhas.exists_index
    refine ⟨i, l, hl, (reported_iff hhas.inline).mp hreported, by omega, fun j hj u hu => ?_⟩
    have hu' := Text.hasLine_of_index hu
    exact (parse_inline_isOk_iff hu'.inline).mp (hbefore (j + 1) (by omega) u hu')

/-- A text is refused if and only if one of its lines is. -/
theorem parse_isError_iff {s : String} : (∃ e, parse s = .error e) ↔
    ∃ k l, Text.HasLine s k l ∧ ∃ e, parse l = .error e := by
  constructor
  · rintro ⟨e, he⟩
    obtain ⟨l, hhas, hreported, -⟩ := parse_eq_error_iff.mp he
    exact ⟨e.line, l, hhas, _, hreported.cause⟩
  · rintro ⟨k, l, hhas, e, he⟩
    cases hs : parse s with
    | error e' => exact ⟨e', rfl⟩
    | ok m =>
      -- every line of a text that is accepted says something, this one too
      obtain ⟨es, hes, -⟩ := readLines_eq_ok_iff.mp hs
      obtain ⟨i, -, hl⟩ := hhas.exists_index
      have hsaid := exists_of_forall₂ (List.Forall₂.flip (R := flip Declaration.LineSays) hes)
      obtain ⟨d, -, hd⟩ := hsaid l (List.mem_of_getElem? hl)
      have hcause := ((parse_inline_eq_error_iff hhas.inline).mp he).1
      cases (Declaration.parse_eq_ok_iff.mpr hd).symm.trans hcause

/-- **Readers agree, and blame the first bad line.** A file is read like its text, with the same net
or the same error. A text is refused if and only if one of its lines, read alone into an empty net,
is refused; then the error is that of the first such line, with the number of the line in front. -/
theorem readers_agree (s : String) :
    (∀ (files : Files) (path : String), files path = some s →
      files.readNet path = (parse s).mapError .net) ∧
    ((∃ e, parse s = .error e) ↔ ∃ k l, Text.HasLine s k l ∧ ∃ e, parse l = .error e) ∧
    ∀ e, parse s = .error e ↔ ∃ l, Text.HasLine s e.line l ∧ Reported l e ∧
      ∀ j < e.line, ∀ u, Text.HasLine s j u → ∃ m, parse u = .ok m := by
  refine ⟨fun files path h => ?_, parse_isError_iff, fun e => parse_eq_error_iff⟩
  simp only [Files.readNet, Files.read, h, bind, Except.bind, parseStored_eq_parse]

/-- The third line has no arrow, and the number in the fifth is malformed. The last line has no line
feed. -/
def brokenText : String :=
  "pl p (1)\n\ntr t : x p\npl q\npl r (1Q)"

/-- The third line is to blame, in the text and in a file. -/
theorem brokenText_blamed :
    parse brokenText = .error ⟨3, .missingArrow "t"⟩ ∧
    Files.readNet (fun _ => some brokenText) "m.net" = .error (.net ⟨3, .missingArrow "t"⟩) ∧
    (⟨3, .missingArrow "t"⟩ : ReadError).message = "3: ERROR: missing '->' in transition t" ∧
    ∃ l, Text.HasLine brokenText 3 l ∧ Reported l ⟨3, .missingArrow "t"⟩ ∧
      ∀ j < 3, ∀ u, Text.HasLine brokenText j u → ∃ m, parse u = .ok m := by
  have hparse : parse brokenText = .error ⟨3, .missingArrow "t"⟩ := by decide +kernel
  obtain ⟨hfile, -, hblame⟩ := readers_agree brokenText
  refine ⟨hparse, ?_, by decide +kernel, (hblame _).mp hparse⟩
  rw [hfile (fun _ => some brokenText) "m.net" rfl, hparse]
  rfl

end Net

end PetriReach
