import Mathlib.Tactic.Common
import PetriReach.Proofs.Smt.Reader
import PetriReach.Smt.Meaning

/-!
# Legal scripts

A script is legal if every declared symbol is new and none of the language's own, and every asserted
term is a truth value over what is declared at that point. Only a legal text says anything about
satisfiability.

* `Scopes.ofText?`: what a text declares and asserts, if it is legal.
* `Term.within_of_sort?`: a well-sorted term has symbols that are declared.
* `Scopes.ofText?_render`: a script whose commands are legal one by one is legal as a text.
* `Script.Means.append`: commands that are legal where a script ends belong to its meaning.
* `Scopes.declares_of_ofText?`: a legal text declares each symbol once, and no word of the language.
-/

namespace PetriReach.Smt

/-- The symbols that the theories of truth values and of integers define. -/
def predefined : List String :=
  ["true", "false", "not", "=>", "and", "or", "xor", "=", "distinct", "ite", "-", "+", "*",
    "div", "mod", "abs", "<=", "<", ">=", ">"]

/-- A name that can be declared. -/
def Declarable (name : String) : Prop :=
  name ∉ predefined ∧ name ∉ reservedWords

instance (name : String) : Decidable (Declarable name) :=
  inferInstanceAs (Decidable (_ ∧ _))

/-- The sort of an application to operands of the given sorts. -/
def Op.sort? (op : Op) (τs : List VarSort) : Option VarSort :=
  match op, τs with
  | .not, [.bool] => some .bool
  | .and, τs => if 2 ≤ τs.length ∧ ∀ τ ∈ τs, τ = .bool then some .bool else none
  | .or, τs => if 2 ≤ τs.length ∧ ∀ τ ∈ τs, τ = .bool then some .bool else none
  | .eq, [σ, τ] => if σ = τ then some .bool else none
  | .distinct, [σ, τ] => if σ = τ then some .bool else none
  | .le, [.int, .int] => some .bool
  | .lt, [.int, .int] => some .bool
  | .ge, [.int, .int] => some .bool
  | .gt, [.int, .int] => some .bool
  | .add, τs => if 2 ≤ τs.length ∧ ∀ τ ∈ τs, τ = .int then some .int else none
  | .sub, [.int, .int] => some .int
  | .mul, [.int, .int] => some .int
  | _, _ => none

namespace Term

mutual

/-- The sort of a term over declared symbols. Numerals have no sign. -/
def sort? (ds : List (Symbol × VarSort)) : Term → Option VarSort
  | .sym s => ds.lookup s
  | .num n => if 0 ≤ n then some .int else none
  | .bool _ => some .bool
  | .app op ts => (sorts? ds ts).bind op.sort?

/-- The sorts of terms over declared symbols. -/
def sorts? (ds : List (Symbol × VarSort)) : List Term → Option (List VarSort)
  | [] => some []
  | t :: ts => (t.sort? ds).bind fun τ => (sorts? ds ts).map (τ :: ·)

end

end Term

namespace Scopes

/-- Whether a command is legal. A scope that was never opened cannot be closed either, see
`Scopes.read`. -/
def Admits (s : Scopes) : Command → Prop
  | .declare x _ => (∀ d ∈ s.declared, d.1 ≠ x) ∧ x.name ∉ predefined
  | .assert t => t.sort? s.declared = some .bool
  | _ => True

instance (s : Scopes) : (c : Command) → Decidable (s.Admits c)
  | .declare _ _ => inferInstanceAs (Decidable (_ ∧ _))
  | .assert t => inferInstanceAs (Decidable (t.sort? s.declared = some .bool))
  | .push => inferInstanceAs (Decidable True)
  | .pop => inferInstanceAs (Decidable True)
  | .checkSat => inferInstanceAs (Decidable True)

/-- Reads a legal command. -/
def accept (s : Scopes) (c : Command) : Option Scopes :=
  if s.Admits c then s.read c else none

/-- Reads a legal script. -/
def acceptAll (s : Scopes) : Script → Option Scopes
  | [] => some s
  | c :: cs => (s.accept c).bind (·.acceptAll cs)

/-- What a legal text declares and asserts. -/
def ofText? (text : String) : Option Scopes :=
  (Script.ofText? text).bind ({} : Scopes).acceptAll

/-- The scopes with more in the innermost one. -/
def extend (s : Scopes) (ds : List (Symbol × VarSort)) (ts : List Term) : Scopes :=
  { s with inner := ⟨s.inner.declared ++ ds, s.inner.asserted ++ ts⟩ }

end Scopes

/-! ## Sorts and readability -/

theorem sort?_sym {ds : List (Symbol × VarSort)} {x : Symbol} {τ : VarSort}
    (h : (Term.sym x).sort? ds = some τ) : ∃ d ∈ ds, d.1 = x := by
  induction ds with
  | nil => simp [Term.sort?] at h
  | cons d ds ih =>
    by_cases hx : x = d.1
    · exact ⟨d, List.mem_cons_self, hx.symm⟩
    · rw [Term.sort?, List.lookup_cons] at h
      simp only [beq_eq_false_iff_ne.mpr hx] at h
      obtain ⟨e, he, hex⟩ := ih h
      exact ⟨e, List.mem_cons_of_mem d he, hex⟩

namespace Term

mutual

/-- A well-sorted term has symbols that are declared. -/
theorem within_of_sort? {P : Symbol → Prop} {ds : List (Symbol × VarSort)}
    (hds : ∀ d ∈ ds, P d.1) : ∀ {t : Term} {τ : VarSort}, t.sort? ds = some τ → t.Within P
  | .sym _, _, h => by
    obtain ⟨d, hd, rfl⟩ := sort?_sym h
    exact hds d hd
  | .num n, _, h => by
    rw [sort?] at h
    by_cases hn : 0 ≤ n
    · exact hn
    · rw [if_neg hn] at h
      exact absurd h (by simp)
  | .bool _, _, _ => trivial
  | .app _ ts, _, h => by
    rw [sort?, Option.bind_eq_some_iff] at h
    obtain ⟨τs, hτs, -⟩ := h
    exact withinAll_of_sorts? hds hτs

theorem withinAll_of_sorts? {P : Symbol → Prop} {ds : List (Symbol × VarSort)}
    (hds : ∀ d ∈ ds, P d.1) :
    ∀ {ts : List Term} {τs : List VarSort}, sorts? ds ts = some τs → WithinAll P ts
  | [], _, _ => trivial
  | t :: ts, _, h => by
    rw [sorts?, Option.bind_eq_some_iff] at h
    obtain ⟨τ, hτ, h⟩ := h
    obtain ⟨τs, hτs, -⟩ := Option.map_eq_some_iff.mp h
    exact ⟨within_of_sort? hds hτ, withinAll_of_sorts? hds hτs⟩

end

end Term

namespace Scopes

variable {s s' : Scopes}

@[simp] theorem extend_declared (s : Scopes) (ds : List (Symbol × VarSort)) (ts : List Term) :
    (s.extend ds ts).declared = s.declared ++ ds := by
  simp [extend, declared]

@[simp] theorem extend_asserted (s : Scopes) (ds : List (Symbol × VarSort)) (ts : List Term) :
    (s.extend ds ts).asserted = s.asserted ++ ts := by
  simp [extend, asserted]

theorem extend_extend (s : Scopes) (ds ds' : List (Symbol × VarSort)) (ts ts' : List Term) :
    (s.extend ds ts).extend ds' ts' = s.extend (ds ++ ds') (ts ++ ts') := by
  simp [extend]

theorem extend_nil (s : Scopes) : s.extend [] [] = s := by
  simp [extend]

theorem acceptAll_append (s : Scopes) (cs ds : Script) :
    s.acceptAll (cs ++ ds) = (s.acceptAll cs).bind (·.acceptAll ds) := by
  induction cs generalizing s with
  | nil => rfl
  | cons c cs ih =>
    simp only [List.cons_append, acceptAll]
    cases s.accept c with
    | none => rfl
    | some s' => exact ih s'

theorem accept_declare {x : Symbol} (hfresh : ∀ d ∈ s.declared, d.1 ≠ x)
    (hname : x.name ∉ predefined) (τ : VarSort) :
    s.accept (.declare x τ) = some (s.extend [(x, τ)] []) := by
  rw [accept, if_pos ⟨hfresh, hname⟩]
  simp [read, extend]

theorem accept_assert {t : Term} (h : t.sort? s.declared = some .bool) :
    s.accept (.assert t) = some (s.extend [] [t]) := by
  have ha : s.Admits (.assert t) := h
  rw [accept, if_pos ha]
  simp [read, extend]

/-- Well-sorted terms can be asserted one after another. -/
theorem acceptAll_assert {ts : List Term} (h : ∀ t ∈ ts, t.sort? s.declared = some .bool) :
    s.acceptAll (ts.map .assert) = some (s.extend [] ts) := by
  induction ts generalizing s with
  | nil => rw [extend_nil]; rfl
  | cons t ts ih =>
    have hts : ∀ u ∈ ts, u.sort? (s.extend [] [t]).declared = some .bool := fun u hu => by
      rw [extend_declared, List.append_nil]
      exact h u (List.mem_cons_of_mem t hu)
    rw [List.map_cons, acceptAll, accept_assert (h t List.mem_cons_self), Option.bind_some,
      ih hts, extend_extend]
    rfl

/-- A command that leaves a scope leaves no new declaration behind. -/
theorem declared_of_read_pop (h : s.read .pop = some s') : ∀ d ∈ s'.declared, d ∈ s.declared := by
  intro d hd
  unfold read at h
  cases hs : s.around with
  | nil => simp [hs] at h
  | cons outer rest =>
    simp only [hs, Option.some.injEq] at h
    subst h
    simp only [declared, hs, List.reverse_cons, List.map_append, List.flatten_append] at hd ⊢
    simp only [List.map_cons, List.map_nil, List.flatten_cons, List.flatten_nil,
      List.append_nil]
    exact List.mem_append_left _ hd

/-- What a legal command declares is what is declared after it, or was declared before. -/
theorem declared_of_accept {c : Command} (h : s.accept c = some s') :
    ∀ d ∈ s'.declared, d ∈ s.declared ∨ c = .declare d.1 d.2 := by
  intro d hd
  unfold accept at h
  split at h
  · cases c with
    | declare x τ =>
      simp only [read, Option.some.injEq] at h
      subst h
      simp only [declared, List.mem_append, List.mem_singleton] at hd ⊢
      rcases hd with hd | hd | rfl
      · exact .inl (.inl hd)
      · exact .inl (.inr hd)
      · exact .inr rfl
    | assert t =>
      simp only [read, Option.some.injEq] at h
      subst h
      exact .inl hd
    | push =>
      simp only [read, Option.some.injEq] at h
      subst h
      refine .inl ?_
      simpa [declared] using hd
    | pop => exact .inl (declared_of_read_pop h d hd)
    | checkSat =>
      simp only [read, Option.some.injEq] at h
      subst h
      exact .inl hd
  · exact absurd h (by simp)

/-- A legal script has no other symbols than those it declares. -/
theorem within_of_acceptAll {P : Symbol → Prop} {cs : Script} (hs : ∀ d ∈ s.declared, P d.1)
    (hcs : ∀ x τ, Command.declare x τ ∈ cs → P x) (h : s.acceptAll cs = some s') :
    ∀ c ∈ cs, c.Within P := by
  induction cs generalizing s with
  | nil => simp
  | cons c cs ih =>
    obtain ⟨s₁, h₁, h₂⟩ := Option.bind_eq_some_iff.mp h
    have hread : c.Within P := by
      cases c with
      | declare x τ => exact hcs x τ List.mem_cons_self
      | assert t =>
        by_cases ht : t.sort? s.declared = some .bool
        · exact Term.within_of_sort? hs ht
        · have ha : ¬ s.Admits (.assert t) := ht
          rw [accept, if_neg ha] at h₁
          exact absurd h₁ (by simp)
      | push => trivial
      | pop => trivial
      | checkSat => trivial
    have hs₁ : ∀ d ∈ s₁.declared, P d.1 := by
      intro d hd
      rcases declared_of_accept h₁ d hd with hd | rfl
      · exact hs d hd
      · exact hread
    rw [List.forall_mem_cons]
    exact ⟨hread, ih hs₁ (fun x τ hx => hcs x τ (List.mem_cons_of_mem c hx)) h₂⟩

/-- **A legal script whose declarations are read back is a legal text**, with the same meaning. -/
theorem ofText?_render {cs : Script} (hcs : ∀ x τ, Command.declare x τ ∈ cs → x.ReadBack)
    (h : ({} : Scopes).acceptAll cs = some s) : ofText? (Script.render cs) = some s := by
  have hread := within_of_acceptAll (by simp [declared]) hcs h
  rw [ofText?, Script.ofText?_render_of_readBack hread]
  exact h

end Scopes

/-! ## Scripts that mean something -/

/-- The script is legal, and means `t`. -/
structure Script.Means (cs : Script) (t : Scopes) : Prop where
  declared : ∀ x τ, Command.declare x τ ∈ cs → x.Readable
  accepted : ({} : Scopes).acceptAll cs = some t

namespace Script

variable {cs ds : Script} {t t' : Scopes}

theorem Means.text (h : Means cs t) : Scopes.ofText? (render cs) = some t :=
  Scopes.ofText?_render (fun x τ hx => (h.declared x τ hx).readBack) h.accepted

theorem Means.readable (h : Means cs t) : ∀ c ∈ cs, c.Readable :=
  Scopes.within_of_acceptAll (by simp [Scopes.declared]) h.declared h.accepted

/-- Commands that are legal where a script ends belong to its meaning from then on. -/
theorem Means.append (h : Means cs t) (haccept : t.acceptAll ds = some t')
    (hdecl : ∀ x τ, Command.declare x τ ∈ ds → x.Readable) : Means (cs ++ ds) t' where
  declared x τ hx := (List.mem_append.mp hx).elim (h.declared x τ) (hdecl x τ)
  accepted := by rw [Scopes.acceptAll_append, h.accepted, Option.bind_some, haccept]

theorem Means.checkSat (h : Means cs t) : Means (cs ++ [.checkSat]) t :=
  h.append rfl (by simp)

theorem render_append (cs ds : Script) : render cs ++ render ds = render (cs ++ ds) := by
  simp [render, String.join_append]

end Script

/-! ## Declarations -/

/-- The symbols that a script declares, in order. -/
def Script.declares (cs : Script) : List Symbol :=
  cs.filterMap fun
    | .declare x _ => some x
    | _ => none

theorem Script.mem_declares {cs : Script} {x : Symbol} :
    x ∈ declares cs ↔ ∃ τ, Command.declare x τ ∈ cs := by
  rw [declares, List.mem_filterMap]
  constructor
  · rintro ⟨c, hc, hx⟩
    cases c with
    | declare y τ =>
      cases hx
      exact ⟨τ, hc⟩
    | _ => cases hx
  · rintro ⟨τ, hc⟩
    exact ⟨_, hc, rfl⟩

/-- A symbol in a declaration is itself, and no reserved word. -/
theorem symbol?_sexpr_eq {x y : Symbol} (h : x.sexpr.symbol? = some y) :
    y = x ∧ x.name ∉ reservedWords := by
  have hsimple : ∀ w ∈ reservedWords, isSimple w = true := by decide +kernel
  unfold Symbol.sexpr at h
  split at h
  · next hs =>
    rw [SExpr.symbol?, String.ofList_toList] at h
    split at h
    · next hword =>
      cases h
      exact ⟨rfl, hword.2⟩
    · cases h
  · next hs =>
    rw [SExpr.symbol?, String.ofList_toList] at h
    cases h
    exact ⟨rfl, fun hword => hs (hsimple _ hword)⟩

/-- What a written command is read as: a declaration as itself, an assertion as an assertion, and
any other as itself. -/
theorem Command.of_command?_sexpr {c d : Command} (h : c.sexpr.command? = some d) :
    (∃ x τ, c = .declare x τ ∧ d = c ∧ x.name ∉ reservedWords) ∨
      (∃ t u, c = .assert t ∧ d = .assert u) ∨
      (d = c ∧ (c = .push ∨ c = .pop ∨ c = .checkSat)) := by
  cases c with
  | declare x τ =>
    rw [Command.sexpr, SExpr.command?, if_pos rfl, Option.bind_eq_some_iff] at h
    obtain ⟨y, hy, h⟩ := h
    obtain ⟨rfl, hword⟩ := symbol?_sexpr_eq hy
    have hτ : τ.sexpr.sort? = some τ := by cases τ <;> rfl
    rw [hτ] at h
    cases h
    exact .inl ⟨_, _, rfl, rfl, hword⟩
  | assert t =>
    rw [Command.sexpr, SExpr.command?, if_pos rfl] at h
    obtain ⟨u, -, rfl⟩ := Option.map_eq_some_iff.mp h
    exact .inr (.inl ⟨t, u, rfl, rfl⟩)
  | push => exact .inr (.inr ⟨(Option.some.inj h).symm, .inl rfl⟩)
  | pop => exact .inr (.inr ⟨(Option.some.inj h).symm, .inr (.inl rfl)⟩)
  | checkSat => exact .inr (.inr ⟨(Option.some.inj h).symm, .inr (.inr rfl)⟩)

/-- A script is read with its own declarations, none of them a reserved word. -/
theorem Script.declares_of_mapM {cs ds : Script}
    (h : (cs.mapM fun c => c.sexpr.command?) = some ds) :
    declares ds = declares cs ∧ (∀ x ∈ declares cs, x.name ∉ reservedWords) ∧
      (.pop ∈ ds → .pop ∈ cs) := by
  induction cs generalizing ds with
  | nil =>
    cases h
    exact ⟨rfl, by simp [declares], id⟩
  | cons c cs ih =>
    rw [List.mapM_cons] at h
    obtain ⟨d, hd, h⟩ := Option.bind_eq_some_iff.mp h
    obtain ⟨ds', hds, h⟩ := Option.bind_eq_some_iff.mp h
    cases h
    obtain ⟨hdecl, hword, hpop⟩ := ih hds
    have htail : .pop ∈ ds' → .pop ∈ c :: cs := fun h => List.mem_cons_of_mem c (hpop h)
    rcases Command.of_command?_sexpr hd with ⟨x, τ, rfl, rfl, hx⟩ | ⟨t, u, rfl, rfl⟩ | ⟨rfl, hc⟩
    · refine ⟨congrArg (x :: ·) hdecl, ?_, fun h => htail ((List.mem_cons.mp h).resolve_left nofun)⟩
      exact List.forall_mem_cons.mpr ⟨hx, hword⟩
    · exact ⟨hdecl, hword, fun h => htail ((List.mem_cons.mp h).resolve_left nofun)⟩
    · refine ⟨?_, ?_, fun h => ?_⟩
      · rcases hc with rfl | rfl | rfl <;> exact hdecl
      · rcases hc with rfl | rfl | rfl <;> exact hword
      · rcases List.mem_cons.mp h with rfl | h
        · exact List.mem_cons_self
        · exact htail h

namespace Scopes

variable {s s' : Scopes}

/-- A legal script that closes no scope declares each symbol once, and none of the theories. -/
theorem declares_of_acceptAll {cs : Script} (hpop : .pop ∉ cs) (h : s.acceptAll cs = some s') :
    cs.declares.Nodup ∧
      ∀ x ∈ cs.declares, x.name ∉ predefined ∧ ∀ d ∈ s.declared, d.1 ≠ x := by
  induction cs generalizing s with
  | nil => exact ⟨List.nodup_nil, by simp [Script.declares]⟩
  | cons c cs ih =>
    rw [List.mem_cons, not_or] at hpop
    obtain ⟨s₁, h₁, h₂⟩ := Option.bind_eq_some_iff.mp h
    obtain ⟨hnodup, hcs⟩ := ih hpop.2 h₂
    have hadmits : s.Admits c := by
      by_contra hno
      rw [accept, if_neg hno] at h₁
      cases h₁
    rw [accept, if_pos hadmits] at h₁
    have hrest : (∀ d ∈ s.declared, d ∈ s₁.declared) → ∀ x ∈ Script.declares cs,
        x.name ∉ predefined ∧ ∀ d ∈ s.declared, d.1 ≠ x :=
      fun hsub x hx => ⟨(hcs x hx).1, fun d hd => (hcs x hx).2 d (hsub d hd)⟩
    cases c with
    | declare x τ =>
      cases h₁
      refine ⟨List.nodup_cons.mpr ⟨fun hx => ?_, hnodup⟩, List.forall_mem_cons.mpr ⟨?_, ?_⟩⟩
      · exact (hcs x hx).2 (x, τ) (by simp [declared]) rfl
      · exact ⟨hadmits.2, hadmits.1⟩
      · refine hrest fun d hd => ?_
        rw [declared, List.mem_append] at hd ⊢
        exact hd.imp_right fun hd => List.mem_append_left _ hd
    | assert t =>
      cases h₁
      exact ⟨hnodup, hrest fun d hd => hd⟩
    | push =>
      cases h₁
      exact ⟨hnodup, hrest fun d hd => by simpa [declared] using hd⟩
    | pop => exact absurd rfl hpop.1
    | checkSat =>
      cases h₁
      exact ⟨hnodup, hrest fun d hd => hd⟩

/-- **A legal text declares each symbol once, and no word of the language.** -/
theorem declares_of_ofText? {cs : Script} (hcs : ∀ c ∈ cs, c.Within Symbol.Quotable)
    (hpop : .pop ∉ cs)
    (h : ofText? (Script.render cs) = some s) :
    cs.declares.Nodup ∧ ∀ x ∈ cs.declares, Declarable x.name := by
  rw [ofText?, Script.ofText?_eq_mapM hcs] at h
  obtain ⟨ds, hds, h⟩ := Option.bind_eq_some_iff.mp h
  obtain ⟨hdecl, hword, hpop'⟩ := Script.declares_of_mapM hds
  obtain ⟨hnodup, hnew⟩ := declares_of_acceptAll (fun hp => hpop (hpop' hp)) h
  rw [hdecl] at hnodup hnew
  exact ⟨hnodup, fun x hx => ⟨(hnew x hx).1, hword x hx⟩⟩

end Scopes

end PetriReach.Smt
