import PetriReach.Proofs.Encoder.Unrolling
import PetriReach.Proofs.Solver.Logic
import PetriReach.Proofs.Solver.Replies

/-!
# Dialogues

What a solver was told is a legal text, with a meaning, and the tests in it were answered by lines
of its script. A backend is truthful if each of these lines is right about the text before its test.

* `Truthful`: the answers are right about what was sent.
* `Truthful.satisfiable`, `Truthful.unsatisfiable`: what an answer says of the meaning.
* `Process.Fed.tell`, `Process.Fed.take`: a script is taken in, a test takes a line.
-/

namespace PetriReach

open Smt

/-- The text of a test. -/
def ask : String := Command.checkSat.render

/-- A line is right about a text: a text that is not legal can be neither satisfiable nor not. -/
def TrueAnswer (text line : String) : Prop :=
  (Text.trim line = "sat" → ∃ s, Scopes.ofText? text = some s ∧ s.Satisfiable) ∧
    (Text.trim line = "unsat" → ∃ s, Scopes.ofText? text = some s ∧ ¬ s.Satisfiable)

/-- The tests in what was sent are answered by the lines `rs`, one each, and these are right about
all that was sent before. -/
def Truthful (rs sent : List String) : Prop :=
  ∀ before line, before ++ [ask] <+: sent → rs[before.count ask]? = some line →
    TrueAnswer (String.join before) line

/-- Test number `j` was about `t`, and its answer was `w`. -/
def Answered (rs sent : List String) (j : Nat) (t : Scopes) (w : Answer) : Prop :=
  ∃ before line, before ++ [ask] <+: sent ∧ before.count ask = j ∧ rs[j]? = some line ∧
    Text.trim line = w.text ∧ Scopes.ofText? (String.join before) = some t

section Truth

variable {rs sent sent' : List String} {j : Nat} {t : Scopes} {w : Answer}

theorem Answered.mono (h : Answered rs sent j t w) (hsent : sent <+: sent') :
    Answered rs sent' j t w := by
  obtain ⟨before, line, hpre, hrest⟩ := h
  exact ⟨before, line, hpre.trans hsent, hrest⟩

theorem Truthful.satisfiable (h : Truthful rs sent) (ht : Answered rs sent j t .sat) :
    t.Satisfiable := by
  obtain ⟨before, line, hpre, rfl, hline, htrim, htext⟩ := ht
  obtain ⟨s, hs, hsat⟩ := (h before line hpre hline).1 htrim
  rw [htext] at hs
  exact Option.some.inj hs ▸ hsat

theorem Truthful.unsatisfiable (h : Truthful rs sent) (ht : Answered rs sent j t .unsat) :
    ¬ t.Satisfiable := by
  obtain ⟨before, line, hpre, rfl, hline, htrim, htext⟩ := ht
  obtain ⟨s, hs, hsat⟩ := (h before line hpre hline).2 htrim
  rw [htext] at hs
  exact Option.some.inj hs ▸ hsat

end Truth

/-! ## What a process has heard -/

/-- The process was sent the script `cs`, with `i` tests in it, and its next lines are those of `rs`
from number `i` on. -/
structure Process.Fed (rs : List String) (i : Nat) (p : Process) (cs : Script) : Prop where
  line : p.line = []
  valid : p.Valid
  future : p.future = rs.drop i
  tests : p.received.count ask = i
  written : ∀ c ∈ cs, c.Written
  text : String.join p.received = Script.render cs

/-- The process was sent a legal script that means `t`. -/
def Process.Heard (rs : List String) (i : Nat) (p : Process) (t : Scopes) : Prop :=
  ∃ cs, Process.Fed rs i p cs ∧ Script.Means cs t

namespace Smt.Script

variable {cs : Script}

/-- A script without tests is not the text of a test. -/
theorem render_ne_ask (hcs : ∀ c ∈ cs, c.Written) (hask : ∀ c ∈ cs, c ≠ .checkSat) :
    render cs ≠ ask := by
  intro heq
  have hone : ∀ c ∈ ([.checkSat] : Script), c.Readable := List.forall_mem_singleton.mpr trivial
  have htest : ofText? ask = some [.checkSat] := ofText?_render hone
  rw [← heq, ofText?_eq_mapM fun c hc => (hcs c hc).mono And.left] at htest
  cases cs with
  | nil => cases htest
  | cons c cs =>
    rw [List.mapM_cons] at htest
    obtain ⟨d, hd, htest⟩ := Option.bind_eq_some_iff.mp htest
    obtain ⟨ds, -, htest⟩ := Option.bind_eq_some_iff.mp htest
    cases htest
    have hc := hask c List.mem_cons_self
    rcases Command.of_command?_sexpr hd with ⟨x, τ, rfl, h, -⟩ | ⟨u, v, rfl, h⟩ | ⟨rfl, -⟩
    · cases h
    · cases h
    · exact hc rfl

theorem render_eq_empty (h : render cs = "") : cs = [] := by
  cases cs with
  | nil => rfl
  | cons c cs =>
    have hlist := congrArg String.toList h
    rw [toList_render_cons] at hlist
    simp at hlist

end Smt.Script

namespace Process

variable {rs : List String} {i : Nat} {p : Process} {cs ds : Script}

theorem fed_start (b : Backend) : Fed b.replies 0 (start b) [] where
  line := rfl
  valid := valid_start b
  future := future_start b
  tests := rfl
  written := by simp
  text := rfl

theorem join_concat (ss : List String) (s : String) :
    String.join (ss ++ [s]) = String.join ss ++ s := by
  simp [String.join_append]

/-- A script without tests is only taken in. -/
theorem Fed.tell (h : Fed rs i p cs) (hds : ∀ c ∈ ds, c.Written) (hask : ∀ c ∈ ds, c ≠ .checkSat) :
    Fed rs i (p.feed (Script.render ds)) (cs ++ ds) := by
  rw [feed_script h.line hds hask]
  refine ⟨h.line, h.valid, h.future, ?_, List.forall_mem_append.mpr ⟨h.written, hds⟩, ?_⟩
  · rw [List.count_append, h.tests]
    simp [Script.render_ne_ask hds hask]
  · rw [join_concat, h.text, Script.render_append]

theorem Fed.future_eq_cons (h : Fed rs i p cs) {l : String} (hl : rs[i]? = some l) :
    p.future = l :: rs.drop (i + 1) := by
  rw [h.future]
  exact List.drop_eq_getElem?_toList_append.trans (by rw [hl]; rfl)

/-- A process from which a line is due is not gone. -/
theorem Fed.not_gone (h : Fed rs i p cs) (hi : i < rs.length) : p.gone = false :=
  not_gone_of_future (h.future_eq_cons (List.getElem?_eq_getElem hi))

/-- A test is answered by the line of its number. -/
theorem Fed.take (h : Fed rs i p cs) {l : String} (hl : rs[i]? = some l) :
    ∃ q, (p.feed ask).take = (.line l, q) ∧ Fed rs (i + 1) q (cs ++ [.checkSat]) ∧
      q.received = p.received ++ [ask] := by
  have hfuture : { p with received := p.received ++ [ask] }.future = l :: rs.drop (i + 1) :=
    h.future_eq_cons hl
  obtain ⟨q, htake, hrest, hvalid, hline, hreceived⟩ :=
    take_answer (p := { p with received := p.received ++ [ask] }) h.valid hfuture
  refine ⟨q, ?_, ⟨hline.trans h.line, hvalid, hrest, ?_, ?_, ?_⟩, hreceived⟩
  · rw [ask, feed_checkSat h.line]
    exact htake
  · rw [hreceived, List.count_append, h.tests]
    simp
  · exact List.forall_mem_append.mpr ⟨h.written, List.forall_mem_singleton.mpr trivial⟩
  · rw [hreceived, join_concat, h.text, ← Script.render_append]
    simp [Script.render, ask]

/-- A line that answers a test is the line of its number. -/
theorem Fed.line_of_take (h : Fed rs i p cs) (hgone : p.gone = false) {l : String}
    (hl : (p.feed ask).take.1 = .line l) : rs[i]? = some l := by
  cases hi : rs[i]? with
  | none =>
    have hfuture : { p with received := p.received ++ [ask] }.future = [] := by
      show p.future = _
      rw [h.future, List.drop_eq_nil_iff]
      exact List.getElem?_eq_none_iff.mp hi
    rw [ask, feed_checkSat h.line] at hl
    exact absurd hl (not_line_of_future_nil (p := { p with received := p.received ++ [ask] })
      h.valid hgone hfuture l)
  | some l' =>
    obtain ⟨q, htake, -, -⟩ := h.take hi
    rw [htake] at hl
    cases hl
    rfl

theorem heard_start (b : Backend) : Heard b.replies 0 (start b) {} :=
  ⟨[], fed_start b, by simp, rfl⟩

end Process

end PetriReach
