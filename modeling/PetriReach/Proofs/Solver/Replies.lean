import PetriReach.Proofs.Smt.Lines
import PetriReach.Solver.Backend

/-!
# Replies

A process answers tests by lines, one each, in an order that its script fixes from the beginning.
What it is told between the tests has no influence on them.

* `Process.feed_script`: a script without tests is taken in and nothing else happens.
* `Process.take_answer`: a test is answered by the next line that is due.
* `Process.not_line_of_future_nil`: where no line is due, no line comes.
-/

namespace PetriReach

open Smt

namespace Backend

/-- All lines of a script whose process does not exit. -/
def spoken (b : Backend) : List String :=
  b.answers.flatMap Text.lines ++ if b.hangs then [] else Text.endedLines b.tail

/-- The lines that answer tests if `ls` are written and not read. A process that exits takes no
test after that. -/
def repliesBehind (b : Backend) (ls : List String) : List String :=
  match b.exitAfter with
  | some n =>
    if n ≤ b.answers.length then (ls ++ b.answers.flatMap Text.lines).take n else ls ++ b.spoken
  | none => ls ++ b.spoken

/-- The lines that answer the tests. -/
def replies (b : Backend) : List String :=
  b.repliesBehind []

end Backend

namespace Process

/-- The lines that answer the tests to come. -/
def future (p : Process) : List String :=
  if p.gone then [] else if p.closed then p.pending else p.script.repliesBehind p.pending

/-- The process is gone if and only if it has no answer left to give before it exits. -/
def Valid (p : Process) : Prop :=
  p.gone = true ↔ p.script.exitAfter = some 0

theorem valid_start (b : Backend) : (start b).Valid := by
  simp [Valid, start]

theorem future_start (b : Backend) : (start b).future = b.replies := by
  unfold future start
  by_cases h : b.exitAfter = some 0
  · simp [h, Backend.replies, Backend.repliesBehind]
  · simp [h, Backend.replies]

variable {p : Process}

/-! ## Texts without tests -/

theorem foldl_hear {ls : List (List Char)} (h : ∀ l ∈ ls, ¬ askEnd <:+ l) (p : Process) :
    ls.foldl hear p = p := by
  induction ls generalizing p with
  | nil => rfl
  | cons l ls ih =>
    rw [List.forall_mem_cons] at h
    have hl : "(check-sat)".toList.isSuffixOf l = false :=
      Bool.eq_false_iff.mpr fun hs => h.1 (List.isSuffixOf_iff_suffix.mp hs)
    rw [List.foldl_cons, hear, hl]
    exact ih h.2 p

/-- **A script without tests is taken in, and nothing else happens.** -/
theorem feed_script (hline : p.line = []) {cs : Script} (hcs : ∀ c ∈ cs, c.Written)
    (hask : ∀ c ∈ cs, c ≠ .checkSat) :
    p.feed (Script.render cs) = { p with received := p.received ++ [Script.render cs] } := by
  have hbodies : ∀ l ∈ Script.bodies cs, ¬ askEnd <:+ l := by
    intro l hl
    obtain ⟨c, hc, rfl⟩ := List.mem_map.mp hl
    exact Command.not_isSuffixOf (hcs c hc) (hask c hc)
  unfold feed
  rw [hline, List.nil_append, Script.pieces_render hcs]
  simp only [List.dropLast_concat, List.getLast?_concat, Option.getD_some]
  rw [foldl_hear hbodies, ← hline]

/-- A test makes the process answer. -/
theorem feed_checkSat (hline : p.line = []) : p.feed Command.checkSat.render =
    { p with received := p.received ++ [Command.checkSat.render] }.answer := by
  have hpieces : Text.pieces (· = '\n') Command.checkSat.render.toList = [askEnd, []] := by
    decide
  unfold feed
  rw [hline, List.nil_append, hpieces]
  simp only [List.dropLast_cons_cons, List.dropLast_singleton, List.foldl_cons, List.foldl_nil,
    List.getLast?_cons_cons, List.getLast?_singleton, Option.getD_some]
  have hask : "(check-sat)".toList.isSuffixOf askEnd = true := by decide
  rw [hear, if_pos hask, ← hline]

/-! ## Tests -/

theorem lines_ne_nil (a : String) : Text.lines a ≠ [] := by
  have hne : ∀ cs : List Char, Text.pieces (· = '\n') cs ≠ [] := by
    intro cs
    cases cs with
    | nil => simp [Text.pieces]
    | cons c cs =>
      unfold Text.pieces
      split
      · simp
      · split <;> simp
  simpa [Text.lines] using hne a.toList

theorem take_of_pending {l : String} {ls : List String} (h : p.pending = l :: ls) :
    p.take = (.line l, { p with pending := ls }) := by
  unfold take
  rw [h]

/-- The first answer that is left, and what is due after it. -/
theorem repliesBehind_cons {b : Backend} {a : String} {as : List String}
    (hanswers : b.answers = a :: as) (hexit : b.exitAfter ≠ some 0) (l : String)
    {ls qs : List String} (hls : ls ++ Text.lines a = l :: qs) :
    b.repliesBehind ls = l :: if b.exitAfter.map (· - 1) = some 0 then [] else
      { b with answers := as, exitAfter := b.exitAfter.map (· - 1) }.repliesBehind qs := by
  have hsplit : ∀ rest, ls ++ (Text.lines a ++ rest) = l :: (qs ++ rest) := by
    intro rest
    rw [← List.append_assoc, hls, List.cons_append]
  unfold Backend.repliesBehind Backend.spoken
  cases hn : b.exitAfter with
  | none => simp [hanswers, hsplit, List.append_assoc]
  | some n =>
    cases n with
    | zero => exact absurd hn hexit
    | succ n =>
      simp only [hanswers, List.length_cons, Nat.add_le_add_iff_right, Option.map_some,
        Nat.add_sub_cancel, Option.some.injEq, List.flatMap_cons, List.append_assoc]
      by_cases hlen : n ≤ as.length
      · rw [if_pos hlen, if_pos hlen, hsplit, List.take_succ_cons]
        by_cases hzero : n = 0
        · simp [hzero]
        · simp [hzero]
      · have hzero : n ≠ 0 := by omega
        rw [if_neg hlen, if_neg hlen, if_neg hzero, hsplit]

/-- What is due once there is no answer left. -/
theorem repliesBehind_nil {b : Backend} (hanswers : b.answers = []) (hexit : b.exitAfter ≠ some 0)
    (ls : List String) :
    b.repliesBehind ls = ls ++ if b.hangs then [] else Text.endedLines b.tail := by
  have hspoken : b.spoken = if b.hangs then [] else Text.endedLines b.tail := by
    simp [Backend.spoken, hanswers]
  unfold Backend.repliesBehind
  rw [hspoken]
  split
  · next n hn =>
    refine if_neg fun hle => ?_
    rw [hanswers, List.length_nil, Nat.le_zero] at hle
    exact hexit (hle ▸ hn)
  · rfl

theorem not_gone_of_future {l : String} {rest : List String} (h : p.future = l :: rest) :
    p.gone = false := by
  cases hg : p.gone with
  | false => rfl
  | true => simp [future, hg] at h

/-- **A test is answered by the next line that is due.** -/
theorem take_answer (hp : p.Valid) {l : String} {rest : List String} (h : p.future = l :: rest) :
    ∃ q, p.answer.take = (.line l, q) ∧ q.future = rest ∧ q.Valid ∧ q.line = p.line ∧
      q.received = p.received := by
  have hgone : p.gone = false := not_gone_of_future h
  have hexit : p.script.exitAfter ≠ some 0 := fun he => by simp [hp.mpr he] at hgone
  by_cases hclosed : p.closed = true
  · have hpending : p.pending = l :: rest := by simpa [future, hgone, hclosed] using h
    refine ⟨{ p with pending := rest }, ?_, ?_, hp, rfl, rfl⟩
    · rw [answer, if_pos hclosed, take_of_pending hpending]
    · simp [future, hgone, hclosed]
  · have hfuture : p.script.repliesBehind p.pending = l :: rest := by
      simpa [future, hgone, hclosed] using h
    cases hanswers : p.script.answers with
    | cons a as =>
      obtain ⟨l', qs, hqs⟩ : ∃ l' qs, p.pending ++ Text.lines a = l' :: qs :=
        List.exists_cons_of_ne_nil (by simp [lines_ne_nil])
      rw [repliesBehind_cons hanswers hexit l' hqs] at hfuture
      obtain ⟨rfl, rfl⟩ := List.cons.inj hfuture
      unfold answer
      rw [if_neg hclosed, hanswers]
      dsimp only
      rw [take_of_pending hqs]
      refine ⟨_, rfl, ?_, ?_, rfl, rfl⟩
      · unfold future
        by_cases hzero : p.script.exitAfter.map (· - 1) = some 0 <;> simp [hzero]
      · simp [Valid]
    | nil =>
      rw [repliesBehind_nil hanswers hexit] at hfuture
      unfold answer
      rw [if_neg hclosed, hanswers]
      dsimp only
      by_cases hhangs : p.script.hangs = true
      · rw [if_pos hhangs, List.append_nil] at hfuture
        rw [if_pos hhangs, take_of_pending hfuture]
        refine ⟨{ p with pending := rest }, rfl, ?_, hp, rfl, rfl⟩
        simp [future, hgone, hclosed, repliesBehind_nil hanswers hexit, hhangs]
      · rw [if_neg hhangs] at hfuture
        rw [if_neg hhangs]
        exact ⟨_, take_of_pending hfuture, by simp [future, hgone], hp, rfl, rfl⟩

/-- Where no line is due, no line comes. -/
theorem not_line_of_future_nil (hp : p.Valid) (hgone : p.gone = false) (h : p.future = [])
    (l : String) : p.answer.take.1 ≠ .line l := by
  have hexit : p.script.exitAfter ≠ some 0 := fun he => by simp [hp.mpr he] at hgone
  have hempty : ∀ {q : Process}, q.pending = [] → q.take.1 ≠ .line l := by
    intro q hq
    unfold take
    rw [hq]
    dsimp only
    split <;> simp
  by_cases hclosed : p.closed = true
  · rw [answer, if_pos hclosed]
    exact hempty (by simpa [future, hgone, hclosed] using h)
  · have hfuture : p.script.repliesBehind p.pending = [] := by
      simpa [future, hgone, hclosed] using h
    cases hanswers : p.script.answers with
    | cons a as =>
      obtain ⟨l', qs, hqs⟩ : ∃ l' qs, p.pending ++ Text.lines a = l' :: qs :=
        List.exists_cons_of_ne_nil (by simp [lines_ne_nil])
      rw [repliesBehind_cons hanswers hexit l' hqs] at hfuture
      exact absurd hfuture (by simp)
    | nil =>
      rw [repliesBehind_nil hanswers hexit, List.append_eq_nil_iff] at hfuture
      unfold answer
      rw [if_neg hclosed, hanswers]
      dsimp only
      by_cases hhangs : p.script.hangs = true
      · rw [if_pos hhangs]
        exact hempty hfuture.1
      · rw [if_neg hhangs] at hfuture ⊢
        exact hempty (by simp [hfuture.1, hfuture.2])

/-- No more lines are due than can be read. -/
theorem length_future_le (p : Process) : p.future.length ≤ p.supply := by
  have hspoken : p.script.spoken.length ≤ p.script.lines.length := by
    unfold Backend.spoken Backend.lines
    split <;> simp
  have hanswers : (p.script.answers.flatMap Text.lines).length ≤ p.script.lines.length := by
    simp [Backend.lines]
  unfold future supply Backend.repliesBehind
  split
  · simp
  · split
    · omega
    · split
      · split
        · rw [List.length_take, List.length_append]
          omega
        · rw [List.length_append]
          omega
      · rw [List.length_append]
        omega

end Process

end PetriReach
