import PetriReach.Formula.Table
import PetriReach.Proofs.Formula.Roundtrip

/-!
# Node tables

Every number of a table that was made by requests stands for an expression, and every formula among
them is printed as a text that is read back as the same formula.

* `Table.meets`: what becomes of a request.
* `Table.Built.inStep`: the index tells which nodes are there, and under which numbers.
* `Table.Built.founded`: a node refers to nodes before it, of the right sort.
* `Table.Founded.known`: the number of a formula node stands for a formula, that of a sum for a sum.
* `Table.insert_built`: adding a formula is a run of requests, and gives the number of the formula.
* `Table.parse_render`: formulas of tables, and formulas that were read, are printed faithfully.
-/

namespace PetriReach

namespace Table

/-- Tables made by requests, one after another. -/
inductive Built : Table → Prop where
  | empty : Built {}
  | make {t t' : Table} {m : Make} {id : Nat} : Built t → t.make m = .ok (id, t') → Built t'

/-- The number is that of a formula, or of a sum if `b` is false. -/
def Has (ns : List Node) (b : Bool) (id : Nat) : Prop :=
  ∃ n, ns[id]? = some n ∧ n.isFormula = b

/-- The node refers to nodes in the list, of the right sort; a junction refers to two at least, and
a count has a term. -/
def Admits (ns : List Node) : Node → Prop
  | .not c => Has ns true c
  | .junction _ cs => 2 ≤ cs.length ∧ ∀ c ∈ cs, Has ns true c
  | .atom l _ r => Has ns false l ∧ Has ns false r
  | .sum (.count ms _) => ms ≠ []
  | _ => True

/-- Every node is admitted by those before it. -/
inductive Founded : List Node → Prop where
  | nil : Founded []
  | snoc {ns : List Node} {n : Node} : Founded ns → Admits ns n → Founded (ns ++ [n])

/-- The index holds the nodes, each under the first number that it has. -/
def InStep (t : Table) : Prop :=
  ∀ n, t.index.lookup n = t.nodes.idxOf? n

/-! ## The index -/

theorem inStep_push {t : Table} (h : t.InStep) {n : Node} (hn : n ∉ t.nodes) :
    (t.push n).InStep := by
  intro n'
  rw [push, lookup_cons_eq, idxOf?_concat hn, h n']
  rfl

/-- A node is interned under the number that it has, or under the next. -/
theorem intern_cases {t : Table} (h : t.InStep) (n : Node) :
    (∃ id, t.nodes[id]? = some n ∧ t.intern n = (id, t)) ∨
      n ∉ t.nodes ∧ t.intern n = (t.size, t.push n) := by
  unfold intern
  rw [h n]
  cases hfound : t.nodes.idxOf? n with
  | none => exact .inr ⟨List.idxOf?_eq_none_iff.mp hfound, rfl⟩
  | some id =>
    obtain ⟨hid, hn, -⟩ := List.findIdx?_eq_some_iff_getElem.mp hfound
    refine .inl ⟨id, ?_, rfl⟩
    rw [List.getElem?_eq_getElem hid, beq_iff_eq.mp hn]

/-- The second table is the first with more nodes, and its index is in step again. -/
def Extends (t t' : Table) : Prop :=
  t'.InStep ∧ ∃ more, t'.nodes = t.nodes ++ more

theorem Extends.refl {t : Table} (h : t.InStep) : Extends t t :=
  ⟨h, [], (List.append_nil _).symm⟩

theorem Extends.trans {t t' t'' : Table} (h : Extends t t') (h' : Extends t' t'') :
    Extends t t'' := by
  obtain ⟨-, more, hmore⟩ := h
  obtain ⟨hstep, more', hmore'⟩ := h'
  exact ⟨hstep, more ++ more', by rw [hmore', hmore, List.append_assoc]⟩

theorem Extends.getElem? {t t' : Table} (h : Extends t t') {id : Nat} {n : Node}
    (hn : t.nodes[id]? = some n) : t'.nodes[id]? = some n := by
  obtain ⟨-, more, hmore⟩ := h
  rw [hmore, List.getElem?_append_left (List.getElem?_eq_some_iff.mp hn).1]
  exact hn

theorem Extends.has {t t' : Table} (h : Extends t t') {b : Bool} {id : Nat}
    (hid : Has t.nodes b id) : Has t'.nodes b id := by
  obtain ⟨n, hn, hb⟩ := hid
  exact ⟨n, h.getElem? hn, hb⟩

/-- **Interning gives the number of the node** and keeps the nodes that are there. -/
theorem intern_extends {t : Table} (h : t.InStep) (n : Node) :
    Extends t (t.intern n).2 ∧ (t.intern n).2.nodes[(t.intern n).1]? = some n := by
  rcases intern_cases h n with ⟨id, hid, hintern⟩ | ⟨hnew, hintern⟩
  · rw [hintern]
    exact ⟨.refl h, hid⟩
  · rw [hintern]
    exact ⟨⟨inStep_push h hnew, [n], rfl⟩, List.getElem?_concat_length⟩

/-- A new table is one in which truth and falsehood were interned. -/
theorem empty_eq : (((⟨[], []⟩ : Table).intern .tt).2.intern .ff).2 = {} :=
  rfl

theorem inStep_empty : ({} : Table).InStep := by
  have hnone : (⟨[], []⟩ : Table).InStep := fun _ => rfl
  rw [← empty_eq]
  exact (intern_extends (intern_extends hnone .tt).1.1 .ff).1.1

/-! ## Requests -/

theorem node_eq_ok {t : Table} {id : Nat} {n : Node} :
    t.node id = .ok n ↔ t.nodes[id]? = some n := by
  unfold node
  cases t.nodes[id]? <;> simp

section Work

variable {α β : Type} {x : Work α} {f : α → Work β} {t t' : Table}

theorem run_bind_ok {a : α} (h : x.run.run t = (.ok a, t')) :
    (x >>= f).run.run t = (f a).run.run t' := by
  simp only [ExceptT.run_bind, StateT.run_bind, h]
  rfl

theorem run_bind_error {e : Error} (h : x.run.run t = (.error e, t')) :
    (x >>= f).run.run t = (.error e, t') := by
  simp only [ExceptT.run_bind, StateT.run_bind, h]
  rfl

end Work

theorem run_enter (t : Table) (n : Node) :
    (enter n).run.run t = (.ok (t.intern n).1, (t.intern n).2) :=
  rfl

theorem run_fetch (t : Table) (id : Nat) : (fetch id).run.run t = (t.node id, t) := by
  show (ofExcept (t.node id) : Work Node).run.run t = _
  cases t.node id <;> rfl

/-- Tests leave the table alone. -/
theorem run_require (t : Table) (b : Bool) (e : Error) (ids : List Nat) :
    ∃ r, (require b e ids).run.run t = (r, t) ∧ (r = .ok () ↔ ∀ id ∈ ids, Has t.nodes b id) := by
  induction ids with
  | nil => exact ⟨.ok (), rfl, by simp⟩
  | cons id ids ih =>
    have hfetch := run_fetch t id
    rw [require, List.forall_mem_cons]
    cases hnode : t.node id with
    | error err =>
      rw [hnode] at hfetch
      refine ⟨.error err, run_bind_error hfetch, nofun, fun h => ?_⟩
      obtain ⟨⟨n, hn, -⟩, -⟩ := h
      cases hnode.symm.trans (node_eq_ok.mpr hn)
    | ok n =>
      rw [hnode] at hfetch
      rw [run_bind_ok hfetch]
      have hid : Has t.nodes b id ↔ n.isFormula = b := by
        rw [Has, node_eq_ok.mp hnode]
        simp
      rw [hid]
      split
      · next hb =>
        obtain ⟨r, hrun, hr⟩ := ih
        exact ⟨r, hrun, hr.trans ⟨fun h => ⟨hb, h⟩, fun h => h.2⟩⟩
      · next hb => exact ⟨.error e, rfl, nofun, fun h => absurd h.1 hb⟩

/-- The operands of the request are there, and of the right sort. -/
def Accepts (t : Table) : Make → Prop
  | .not c => Has t.nodes true c
  | .junction _ cs => cs ≠ [] ∧ ∀ c ∈ cs, Has t.nodes true c
  | .atom l _ r => Has t.nodes false l ∧ Has t.nodes false r
  | _ => True

/-- The number is that of the node that is asked for. A junction of one operand is that operand,
and a count without terms is a constant. -/
def Answers (t : Table) (id : Nat) : Make → Prop
  | .tt => t.node id = .ok .tt
  | .ff => t.node id = .ok .ff
  | .not c => t.node id = .ok (.not c)
  | .junction _ [a] => id = a
  | .junction c cs => t.node id = .ok (.junction c cs)
  | .atom l op r => t.node id = .ok (.atom l op r)
  | .constant k => t.node id = .ok (.sum (.literal k))
  | .count [] k => t.node id = .ok (.sum (.literal k))
  | .count ms k => t.node id = .ok (.sum (.count ms k))

/-- What becomes of a request: it is refused without a trace, it is answered with its operand, or a
node is interned for it. -/
inductive Meets (t : Table) (m : Make) : Except Error Nat × Table → Prop where
  | refused {e : Error} (hm : ¬ t.Accepts m) : Meets t m (.error e, t)
  | operand {a : Nat} (hm : t.Accepts m) (ha : ∀ t' : Table, t'.Answers a m) : Meets t m (.ok a, t)
  | node {n : Node} (hm : t.Accepts m) (hn : Admits t.nodes n)
    (hanswer : ∀ (t' : Table) id, t'.node id = .ok n → t'.Answers id m) :
    Meets t m (.ok (t.intern n).1, (t.intern n).2)

theorem has_pair {ns : List Node} {b : Bool} {l r : Nat} :
    (∀ id ∈ [l, r], Has ns b id) ↔ Has ns b l ∧ Has ns b r := by
  rw [List.forall_mem_cons, List.forall_mem_singleton]

/-- The request for a node. -/
def asking : Node → Make
  | .tt => .tt
  | .ff => .ff
  | .not c => .not c
  | .junction c cs => .junction c cs
  | .atom l op r => .atom l op r
  | .sum (.literal k) => .constant k
  | .sum (.count ms k) => .count ms k

theorem serve_of_test {t : Table} {m : Make} {n : Node} {b : Bool} {e : Error} {ids : List Nat}
    (hm : request m = require b e ids >>= fun _ => enter n)
    (hids : ∀ id ∈ ids, Has t.nodes b id) :
    t.serve m = (.ok (t.intern n).1, (t.intern n).2) := by
  obtain ⟨r, hrun, hr⟩ := run_require t b e ids
  rw [hr.mpr hids] at hrun
  rw [serve, hm, run_bind_ok hrun, run_enter]

/-- **A node that is admitted can be asked for.** -/
theorem serve_asking {t : Table} {n : Node} (hn : Admits t.nodes n) :
    t.serve (asking n) = (.ok (t.intern n).1, (t.intern n).2) := by
  cases n with
  | tt => rfl
  | ff => rfl
  | not c => exact serve_of_test rfl (List.forall_mem_singleton.mpr hn)
  | junction c cs =>
    obtain ⟨hlength, hcs⟩ := hn
    cases cs with
    | nil => cases hlength
    | cons a cs =>
      cases cs with
      | nil => simp at hlength
      | cons b cs => exact serve_of_test rfl hcs
  | atom l op r => exact serve_of_test rfl (has_pair.mpr hn)
  | sum s =>
    cases s with
    | literal k => rfl
    | count ms k =>
      cases ms with
      | nil => exact absurd rfl hn
      | cons m ms => rfl

/-- A request for a node, behind a test of its operands. -/
theorem meets_of_test {t : Table} {m : Make} {n : Node} {b : Bool} {e : Error} {ids : List Nat}
    (hm : request m = require b e ids >>= fun _ => enter n)
    (htest : (∀ id ∈ ids, Has t.nodes b id) ↔ t.Accepts m) (hn : t.Accepts m → Admits t.nodes n)
    (hanswer : ∀ (t' : Table) id, t'.node id = .ok n → t'.Answers id m) :
    Meets t m (t.serve m) := by
  by_cases haccepts : t.Accepts m
  · rw [serve_of_test hm (htest.mpr haccepts)]
    exact .node haccepts (hn haccepts) hanswer
  · obtain ⟨r, hrun, hr⟩ := run_require t b e ids
    cases r with
    | ok u => exact absurd (htest.mp (hr.mp rfl)) haccepts
    | error err =>
      rw [serve, hm, run_bind_error hrun]
      exact .refused haccepts

/-- A request for a node without operands. -/
theorem meets_of_leaf {t : Table} {m : Make} {n : Node} (hm : request m = enter n)
    (haccepts : t.Accepts m) (hn : Admits t.nodes n)
    (hanswer : ∀ (t' : Table) id, t'.node id = .ok n → t'.Answers id m) :
    Meets t m (t.serve m) := by
  rw [serve, hm, run_enter]
  exact .node haccepts hn hanswer

/-- A request for a junction: the number of operands decides. -/
theorem meets_junction (t : Table) (c : Connective) (cs : List Nat) :
    Meets t (.junction c cs) (t.serve (.junction c cs)) := by
  cases cs with
  | nil => exact .refused fun hm => hm.1 rfl
  | cons a cs =>
    have hne := List.cons_ne_nil a cs
    cases cs with
    | nil =>
      obtain ⟨r, hrun, hr⟩ := run_require t true (.joinsSum c) [a]
      rw [serve, request]
      cases r with
      | error err =>
        rw [run_bind_error hrun]
        refine .refused fun hm => ?_
        cases hr.mpr hm.2
      | ok u =>
        rw [run_bind_ok hrun]
        exact .operand ⟨hne, hr.mp rfl⟩ fun _ => rfl
    | cons b cs =>
      refine meets_of_test (n := .junction c (a :: b :: cs)) rfl ⟨fun h => ⟨hne, h⟩, fun h => h.2⟩
        (fun hm => ⟨?_, hm.2⟩) fun _ _ h => h
      simp

/-- A request for a sum: without terms it is a constant. -/
theorem meets_count (t : Table) (ms : List Multiple) (k : Int) :
    Meets t (.count ms k) (t.serve (.count ms k)) := by
  cases ms with
  | nil => exact meets_of_leaf (n := .sum (.literal k)) rfl trivial trivial fun _ _ h => h
  | cons m ms =>
    exact meets_of_leaf (n := .sum (.count (m :: ms) k)) rfl trivial (List.cons_ne_nil m ms)
      fun _ _ h => h

/-- **What becomes of a request.** -/
theorem meets (t : Table) (m : Make) : Meets t m (t.serve m) := by
  cases m with
  | tt => exact meets_of_leaf (n := .tt) rfl trivial trivial fun _ _ h => h
  | ff => exact meets_of_leaf (n := .ff) rfl trivial trivial fun _ _ h => h
  | not c =>
    exact meets_of_test (n := .not c) rfl List.forall_mem_singleton (fun hm => hm) fun _ _ h => h
  | junction c cs => exact meets_junction t c cs
  | atom l op r =>
    exact meets_of_test (n := .atom l op r) rfl has_pair (fun hm => hm) fun _ _ h => h
  | constant k => exact meets_of_leaf (n := .sum (.literal k)) rfl trivial trivial fun _ _ h => h
  | count ms k => exact meets_count t ms k

/-- What a request is met with, and the table after it. -/
theorem make_eq_ok {t t' : Table} {m : Make} {id : Nat} :
    t.make m = .ok (id, t') ↔ t.serve m = (.ok id, t') := by
  unfold make
  split
  · next h =>
    rw [h]
    simp
  · next h =>
    rw [h]
    simp

theorem Meets.extends {t : Table} {m : Make} {r : Except Error Nat × Table} (h : Meets t m r)
    (ht : t.InStep) : Extends t r.2 := by
  cases h with
  | refused => exact .refl ht
  | operand => exact .refl ht
  | @node n => exact (intern_extends ht n).1

theorem Meets.founded {t : Table} {m : Make} {r : Except Error Nat × Table} (h : Meets t m r)
    (hstep : t.InStep) (ht : Founded t.nodes) : Founded r.2.nodes := by
  cases h with
  | refused => exact ht
  | operand => exact ht
  | @node n _ hn =>
    rcases intern_cases hstep n with ⟨id, -, hintern⟩ | ⟨-, hintern⟩
    · rw [hintern]
      exact ht
    · rw [hintern]
      exact ht.snoc hn

/-- **The index of a table that was made by requests is in step**, and its nodes are founded. -/
theorem Built.inStep_founded {t : Table} (h : Built t) : t.InStep ∧ Founded t.nodes := by
  induction h with
  | empty =>
    refine ⟨inStep_empty, ?_⟩
    show Founded (([] ++ [.tt]) ++ [.ff])
    exact .snoc (.snoc .nil trivial) trivial
  | @make t t' m id _ hmake ih =>
    have hmeets := t.meets m
    rw [make_eq_ok.mp hmake] at hmeets
    exact ⟨(hmeets.extends ih.1).1, hmeets.founded ih.1 ih.2⟩

theorem Built.inStep {t : Table} (h : Built t) : t.InStep :=
  h.inStep_founded.1

theorem Built.founded {t : Table} (h : Built t) : Founded t.nodes :=
  h.inStep_founded.2

/-! ## Expressions -/

theorem unfoldAll_snoc (ns : List Node) (n : Node) : unfoldAll (ns ++ [n]) =
    unfoldAll ns ++ [unfoldNode (unfoldAll ns) n] := by
  simp [unfoldAll]

theorem length_unfoldAll (ns : List Node) : (unfoldAll ns).length = ns.length := by
  induction ns using List.reverseRecOn with
  | nil => rfl
  | append_singleton ns n ih => simp [unfoldAll_snoc, ih]

theorem formulaAt?_eq_some {known : List (Option Expr)} {id : Nat} {f : Formula} :
    formulaAt? known id = some f ↔ known[id]? = some (some (.formula f)) := by
  unfold formulaAt?
  split
  · next g h => simp [h]
  · next h => simp; intro h'; exact h f h'

theorem sumAt?_eq_some {known : List (Option Expr)} {id : Nat} {s : TokenSum} :
    sumAt? known id = some s ↔ known[id]? = some (some (.sum s)) := by
  unfold sumAt?
  split
  · next g h => simp [h]
  · next h => simp; intro h'; exact h s h'

theorem lt_of_has {ns : List Node} {b : Bool} {id : Nat} (h : Has ns b id) : id < ns.length := by
  obtain ⟨n, hn, -⟩ := h
  exact (List.getElem?_eq_some_iff.mp hn).1

/-- The formulas of a list of numbers, if each stands for one. -/
theorem mapM_formulaAt? {known : List (Option Expr)} {cs : List Nat}
    (h : ∀ c ∈ cs, ∃ f, formulaAt? known c = some f ∧ f.Proper) :
    ∃ fs, cs.mapM (formulaAt? known) = some fs ∧ fs.length = cs.length ∧
      Formula.AllProper fs := by
  induction cs with
  | nil => exact ⟨[], rfl, rfl, trivial⟩
  | cons c cs ih =>
    rw [List.forall_mem_cons] at h
    obtain ⟨⟨f, hf, hproper⟩, hcs⟩ := h
    obtain ⟨fs, hfs, hlen, hall⟩ := ih hcs
    refine ⟨f :: fs, ?_, by simp [hlen], hproper, hall⟩
    rw [List.mapM_cons, hf, hfs]
    rfl

/-- Every number stands for an expression of the sort of its node, and junctions in it have two
operands at least. -/
def Known (ns : List Node) (known : List (Option Expr)) : Prop :=
  ∀ id, (Has ns true id → ∃ f, formulaAt? known id = some f ∧ f.Proper) ∧
    (Has ns false id → ∃ s, sumAt? known id = some s)

/-- A node that is admitted unfolds to an expression of its sort. -/
theorem Known.unfoldNode {ns : List Node} {known : List (Option Expr)} (h : Known ns known)
    {n : Node} (hn : Admits ns n) :
    (n.isFormula = true → ∃ f, unfoldNode known n = some (.formula f) ∧ f.Proper) ∧
      (n.isFormula = false → ∃ s, Table.unfoldNode known n = some (.sum s)) := by
  cases n with
  | tt => exact ⟨fun _ => ⟨.tt, rfl, trivial⟩, by simp [Node.isFormula]⟩
  | ff => exact ⟨fun _ => ⟨.ff, rfl, trivial⟩, by simp [Node.isFormula]⟩
  | not c =>
    obtain ⟨f, hf, hproper⟩ := (h c).1 hn
    exact ⟨fun _ => ⟨.not f, by simp [Table.unfoldNode, hf], hproper⟩, by simp [Node.isFormula]⟩
  | junction c cs =>
    obtain ⟨fs, hfs, hlen, hall⟩ := mapM_formulaAt? fun c hc => (h c).1 (hn.2 c hc)
    refine ⟨fun _ => ⟨.junction c fs, by simp [Table.unfoldNode, hfs], ?_, hall⟩,
      by simp [Node.isFormula]⟩
    rw [hlen]
    exact hn.1
  | atom l op r =>
    obtain ⟨a, ha⟩ := (h l).2 hn.1
    obtain ⟨b, hb⟩ := (h r).2 hn.2
    exact ⟨fun _ => ⟨.atom a op b, by simp [Table.unfoldNode, ha, hb], trivial⟩,
      by simp [Node.isFormula]⟩
  | sum s => exact ⟨by simp [Node.isFormula], fun _ => ⟨s.toSum, rfl⟩⟩

theorem has_append {ns more : List Node} {b : Bool} {id : Nat} (h : id < ns.length) :
    Has (ns ++ more) b id ↔ Has ns b id := by
  rw [Has, Has, List.getElem?_append_left h]

theorem has_snoc_self {ns : List Node} {n : Node} {b : Bool} :
    Has (ns ++ [n]) b ns.length ↔ n.isFormula = b := by
  simp [Has]

/-- **Every number stands for an expression.** -/
theorem Founded.known {ns : List Node} (h : Founded ns) : Known ns (unfoldAll ns) := by
  induction h with
  | nil => simp [Known, Has]
  | @snoc ns n hns hn ih =>
    intro id
    have hlen := length_unfoldAll ns
    rw [unfoldAll_snoc]
    by_cases hid : id < ns.length
    · have hold : (unfoldAll ns ++ [Table.unfoldNode (unfoldAll ns) n])[id]? =
          (unfoldAll ns)[id]? := List.getElem?_append_left (by omega)
      rw [has_append hid, has_append hid, formulaAt?, sumAt?, hold]
      exact ih id
    · have hself : ∀ {b}, Has (ns ++ [n]) b id → id = ns.length := by
        intro b hb
        have hlt := lt_of_has hb
        rw [List.length_append, List.length_singleton] at hlt
        omega
      have hnew : (unfoldAll ns ++ [Table.unfoldNode (unfoldAll ns) n])[ns.length]? =
          some (Table.unfoldNode (unfoldAll ns) n) := by
        rw [← hlen, List.getElem?_concat_length]
      obtain ⟨hformula, hsum⟩ := ih.unfoldNode hn
      refine ⟨fun hb => ?_, fun hb => ?_⟩
      · obtain rfl := hself hb
        obtain ⟨f, hf, hproper⟩ := hformula (has_snoc_self.mp hb)
        exact ⟨f, formulaAt?_eq_some.mpr (by rw [hnew, hf]), hproper⟩
      · obtain rfl := hself hb
        obtain ⟨s, hs⟩ := hsum (has_snoc_self.mp hb)
        exact ⟨s, sumAt?_eq_some.mpr (by rw [hnew, hs])⟩

/-! ## Larger tables -/

theorem unfoldAll_append (ns more : List Node) :
    ∃ tail, unfoldAll (ns ++ more) = unfoldAll ns ++ tail := by
  induction more using List.reverseRecOn with
  | nil => exact ⟨[], by simp⟩
  | append_singleton more n ih =>
    obtain ⟨tail, htail⟩ := ih
    refine ⟨tail ++ [unfoldNode (unfoldAll (ns ++ more)) n], ?_⟩
    rw [← List.append_assoc ns, unfoldAll_snoc, ← List.append_assoc, ← htail]

theorem getElem?_known_append {known : List (Option Expr)} (tail : List (Option Expr)) {id : Nat}
    {e : Option Expr} (h : known[id]? = some e) : (known ++ tail)[id]? = some e := by
  rw [List.getElem?_append_left (List.getElem?_eq_some_iff.mp h).1]
  exact h

theorem formulaAt?_append {known : List (Option Expr)} (tail : List (Option Expr)) {id : Nat}
    {f : Formula} (h : formulaAt? known id = some f) : formulaAt? (known ++ tail) id = some f :=
  formulaAt?_eq_some.mpr (getElem?_known_append tail (formulaAt?_eq_some.mp h))

theorem sumAt?_append {known : List (Option Expr)} (tail : List (Option Expr)) {id : Nat}
    {s : TokenSum} (h : sumAt? known id = some s) : sumAt? (known ++ tail) id = some s :=
  sumAt?_eq_some.mpr (getElem?_known_append tail (sumAt?_eq_some.mp h))

theorem mapM_formulaAt?_append {known : List (Option Expr)} (tail : List (Option Expr))
    {cs : List Nat} {fs : List Formula} (h : cs.mapM (formulaAt? known) = some fs) :
    cs.mapM (formulaAt? (known ++ tail)) = some fs := by
  induction cs generalizing fs with
  | nil => exact h
  | cons c cs ih =>
    rw [List.mapM_cons] at h ⊢
    obtain ⟨f, hf, h⟩ := Option.bind_eq_some_iff.mp h
    obtain ⟨gs, hgs, h⟩ := Option.bind_eq_some_iff.mp h
    rw [formulaAt?_append tail hf, ih hgs]
    exact h

theorem forall_of_mapM {known : List (Option Expr)} {cs : List Nat} {fs : List Formula}
    (h : cs.mapM (formulaAt? known) = some fs) :
    fs.length = cs.length ∧ ∀ c ∈ cs, ∃ f, formulaAt? known c = some f := by
  induction cs generalizing fs with
  | nil =>
    cases h
    simp
  | cons c cs ih =>
    rw [List.mapM_cons] at h
    obtain ⟨f, hf, h⟩ := Option.bind_eq_some_iff.mp h
    obtain ⟨gs, hgs, h⟩ := Option.bind_eq_some_iff.mp h
    cases h
    obtain ⟨hlen, hall⟩ := ih hgs
    rw [List.forall_mem_cons]
    exact ⟨by simp [hlen], ⟨f, hf⟩, hall⟩

/-- What a node unfolds to does not change when more is known. -/
theorem unfoldNode_append {known : List (Option Expr)} (tail : List (Option Expr)) {n : Node}
    {e : Expr} (h : unfoldNode known n = some e) : unfoldNode (known ++ tail) n = some e := by
  cases n with
  | tt => exact h
  | ff => exact h
  | not c =>
    obtain ⟨f, hf, rfl⟩ := Option.map_eq_some_iff.mp h
    rw [unfoldNode, formulaAt?_append tail hf]
    rfl
  | junction c cs =>
    obtain ⟨fs, hfs, rfl⟩ := Option.map_eq_some_iff.mp h
    rw [unfoldNode, mapM_formulaAt?_append tail hfs]
    rfl
  | atom l op r =>
    rw [unfoldNode] at h ⊢
    split at h
    · next a b ha hb =>
      rw [sumAt?_append tail ha, sumAt?_append tail hb]
      exact h
    · cases h
  | sum s => exact h

/-- What stands in a list with one more entry stood there before, or is that entry. -/
theorem getElem?_snoc_cases {α : Type} {xs : List α} {x y : α} {i : Nat}
    (h : (xs ++ [x])[i]? = some y) : xs[i]? = some y ∨ i = xs.length ∧ x = y := by
  rcases Nat.lt_or_ge i xs.length with hlt | hge
  · rw [List.getElem?_append_left hlt] at h
    exact .inl h
  · rw [List.getElem?_append_right hge, List.getElem?_singleton] at h
    split at h
    · exact .inr ⟨by omega, Option.some.inj h⟩
    · cases h

/-- In a founded table a number stands for what its node unfolds to. -/
theorem Founded.unfolds {ns : List Node} (h : Founded ns) : ∀ {id : Nat} {n}, ns[id]? = some n →
    ∃ e, (unfoldAll ns)[id]? = some (some e) ∧ unfoldNode (unfoldAll ns) n = some e := by
  induction h with
  | nil => simp
  | @snoc ns m hns hm ih =>
    intro id n hn
    rw [unfoldAll_snoc]
    rcases getElem?_snoc_cases hn with hn | ⟨hid, rfl⟩
    · obtain ⟨e, he, hunfold⟩ := ih hn
      exact ⟨e, getElem?_known_append _ he, unfoldNode_append _ hunfold⟩
    · obtain ⟨e, he⟩ : ∃ e, unfoldNode (unfoldAll ns) m = some e := by
        obtain ⟨hformula, hsum⟩ := hns.known.unfoldNode hm
        cases hb : m.isFormula with
        | true =>
          obtain ⟨f, hf, -⟩ := hformula hb
          exact ⟨_, hf⟩
        | false =>
          obtain ⟨s, hs⟩ := hsum hb
          exact ⟨_, hs⟩
      refine ⟨e, ?_, unfoldNode_append _ he⟩
      rw [hid, ← length_unfoldAll ns, List.getElem?_concat_length, he]

/-- A number that stands for a formula is that of a formula node. -/
theorem Founded.has_of_formulaAt? {ns : List Node} (h : Founded ns) {id : Nat} {f : Formula}
    (hf : formulaAt? (unfoldAll ns) id = some f) : Has ns true id := by
  rw [formulaAt?_eq_some] at hf
  have hlt := (List.getElem?_eq_some_iff.mp hf).1
  rw [length_unfoldAll] at hlt
  refine ⟨ns[id], List.getElem?_eq_getElem hlt, ?_⟩
  cases hb : ns[id].isFormula with
  | true => rfl
  | false =>
    obtain ⟨s, hs⟩ := (h.known id).2 ⟨ns[id], List.getElem?_eq_getElem hlt, hb⟩
    rw [sumAt?_eq_some, hf] at hs
    cases hs

/-! ## Adding formulas -/

/-- The second table is made from the first by requests. -/
def Grows (t t' : Table) : Prop :=
  Built t' ∧ Extends t t'

theorem Grows.trans {t t' t'' : Table} (h : Grows t t') (h' : Grows t' t'') : Grows t t'' :=
  ⟨h'.1, h.2.trans h'.2⟩

theorem Extends.exprs {t t' : Table} (h : Extends t t') : ∃ tail, t'.exprs = t.exprs ++ tail := by
  obtain ⟨-, more, hmore⟩ := h
  obtain ⟨tail, htail⟩ := unfoldAll_append t.nodes more
  refine ⟨tail, ?_⟩
  rw [← hmore] at htail
  exact htail

/-- Interning an admitted node gives a number that stands for what it unfolds to. -/
theorem intern_unfolds {t : Table} (h : Built t) {n : Node} (hn : Admits t.nodes n) {e : Expr}
    (he : unfoldNode t.exprs n = some e) : Grows t (t.intern n).2 ∧
      (t.intern n).2.exprs[(t.intern n).1]? = some (some e) := by
  obtain ⟨hextends, hnode⟩ := intern_extends h.inStep n
  have hgrows : Grows t (t.intern n).2 := ⟨h.make (make_eq_ok.mpr (serve_asking hn)), hextends⟩
  obtain ⟨tail, htail⟩ := hextends.exprs
  obtain ⟨e', he', hunfold⟩ := hgrows.1.founded.unfolds hnode
  have hsame : unfoldNode (t.intern n).2.exprs n = some e := by
    rw [htail]
    exact unfoldNode_append tail he
  cases hunfold.symm.trans hsame
  exact ⟨hgrows, he'⟩

theorem toSum_ofSum (s : TokenSum) : (SumNode.ofSum s).toSum = s := by
  obtain ⟨ms, k⟩ := s
  cases ms <;> rfl

theorem admits_ofSum (ns : List Node) (s : TokenSum) : Admits ns (.sum (.ofSum s)) := by
  obtain ⟨ms, k⟩ := s
  cases ms with
  | nil => trivial
  | cons m ms => exact List.cons_ne_nil m ms

theorem has_insertSum {t : Table} (h : t.InStep) (s : TokenSum) :
    Has (t.insertSum s).2.nodes false (t.insertSum s).1 :=
  ⟨_, (intern_extends h _).2, rfl⟩

/-- Adding a sum gives a number that stands for it. -/
theorem insertSum_built {t : Table} (h : Built t) (s : TokenSum) : Grows t (t.insertSum s).2 ∧
    sumAt? (t.insertSum s).2.exprs (t.insertSum s).1 = some s := by
  have he : unfoldNode t.exprs (.sum (.ofSum s)) = some (.sum s) := by
    rw [unfoldNode, toSum_ofSum]
  obtain ⟨hgrows, hs⟩ := intern_unfolds h (admits_ofSum _ s) he
  exact ⟨hgrows, sumAt?_eq_some.mpr hs⟩

mutual

/-- **Adding a formula is a run of requests** that ends in the number of the formula. -/
theorem insert_built : ∀ (f : Formula) {t : Table}, f.Proper → Built t →
    Grows t (t.insert f).2 ∧ formulaAt? (t.insert f).2.exprs (t.insert f).1 = some f
  | .tt, t, _, h => by
    obtain ⟨hgrows, he⟩ := intern_unfolds h (n := .tt) trivial rfl
    exact ⟨hgrows, formulaAt?_eq_some.mpr he⟩
  | .ff, t, _, h => by
    obtain ⟨hgrows, he⟩ := intern_unfolds h (n := .ff) trivial rfl
    exact ⟨hgrows, formulaAt?_eq_some.mpr he⟩
  | .not f, t, hproper, h => by
    obtain ⟨hgrows, hf⟩ := insert_built f hproper h
    obtain ⟨hgrows', he⟩ := intern_unfolds hgrows.1 (n := .not (t.insert f).1)
      (hgrows.1.founded.has_of_formulaAt? hf) (by rw [unfoldNode, hf]; rfl)
    exact ⟨hgrows.trans hgrows', formulaAt?_eq_some.mpr he⟩
  | .junction c fs, t, hproper, h => by
    obtain ⟨hgrows, hfs⟩ := insertAll_built fs hproper.2 h
    obtain ⟨hlen, hall⟩ := forall_of_mapM hfs
    have hadmits : Admits (t.insertAll fs).2.nodes (.junction c (t.insertAll fs).1) := by
      refine ⟨hlen ▸ hproper.1, fun id hid => ?_⟩
      obtain ⟨f, hf⟩ := hall id hid
      exact hgrows.1.founded.has_of_formulaAt? hf
    obtain ⟨hgrows', he⟩ := intern_unfolds hgrows.1 hadmits (by rw [unfoldNode, hfs]; rfl)
    exact ⟨hgrows.trans hgrows', formulaAt?_eq_some.mpr he⟩
  | .atom l op r, t, _, h => by
    obtain ⟨hleft, hl⟩ := insertSum_built h l
    obtain ⟨hright, hr⟩ := insertSum_built hleft.1 r
    obtain ⟨tail, htail⟩ := hright.2.exprs
    have ha := sumAt?_append tail hl
    rw [← htail] at ha
    have hadmits : Admits ((t.insertSum l).2.insertSum r).2.nodes
        (.atom (t.insertSum l).1 op ((t.insertSum l).2.insertSum r).1) :=
      ⟨hright.2.has (has_insertSum h.inStep l), has_insertSum hleft.1.inStep r⟩
    obtain ⟨hgrows, he⟩ := intern_unfolds hright.1 hadmits
      (e := .formula (.atom l op r)) (by rw [unfoldNode, ha, hr])
    exact ⟨(hleft.trans hright).trans hgrows, formulaAt?_eq_some.mpr he⟩

theorem insertAll_built : ∀ (fs : List Formula) {t : Table}, Formula.AllProper fs → Built t →
    Grows t (t.insertAll fs).2 ∧
      (t.insertAll fs).1.mapM (formulaAt? (t.insertAll fs).2.exprs) = some fs
  | [], t, _, h => ⟨⟨h, .refl h.inStep⟩, rfl⟩
  | f :: fs, t, hproper, h => by
    obtain ⟨hgrows, hf⟩ := insert_built f hproper.1 h
    obtain ⟨hgrows', hfs⟩ := insertAll_built fs hproper.2 hgrows.1
    obtain ⟨tail, htail⟩ := hgrows'.2.exprs
    refine ⟨hgrows.trans hgrows', ?_⟩
    have hfirst : formulaAt? ((t.insert f).2.insertAll fs).2.exprs (t.insert f).1 = some f := by
      rw [htail]
      exact formulaAt?_append tail hf
    show ((t.insert f).1 :: ((t.insert f).2.insertAll fs).1).mapM
      (formulaAt? ((t.insert f).2.insertAll fs).2.exprs) = _
    rw [List.mapM_cons, hfirst, hfs]
    rfl

end

/-! ## Printing -/

theorem expr_eq_formula {t : Table} {id : Nat} {f : Formula} :
    t.expr id = .ok (.formula f) ↔ formulaAt? t.exprs id = some f := by
  rw [formulaAt?_eq_some, expr]
  split
  · next e h => simp [h]
  · next h =>
    constructor
    · intro h'
      cases h'
    · intro h'
      exact (h _ h').elim

/-- **Printing and reading are inverse.** A formula node of a table that was made by requests stands
for a formula; if its names can be written in braces and its numbers can be read, its text is read
back as that formula. Every formula that was read is of this kind, so that the text of a formula
stands for the formula, however it is used. -/
theorem parse_render :
    (∀ t : Table, Built t → ∀ id n, t.node id = .ok n → n.isFormula = true →
      ∃ f, t.expr id = .ok (.formula f) ∧ (f.Writable → Formula.parse f.render = .ok f)) ∧
    ∀ s f, Formula.parse s = .ok f →
      f.Writable ∧ (∃ t id, Built t ∧ t.expr id = .ok (.formula f)) ∧
        Formula.parse f.render = .ok f := by
  refine ⟨fun t ht id n hnode hn => ?_, fun s f h => ?_⟩
  · obtain ⟨f, hf, hproper⟩ := (ht.founded.known id).1 ⟨n, node_eq_ok.mp hnode, hn⟩
    exact ⟨f, expr_eq_formula.mpr hf, Grammar.parse_render_of_proper hproper⟩
  · obtain ⟨hproper, hwritable⟩ := Grammar.printable_of_parse h
    obtain ⟨hgrows, hf⟩ := insert_built f hproper .empty
    exact ⟨hwritable, ⟨_, _, hgrows.1, expr_eq_formula.mpr hf⟩,
      Grammar.parse_render_of_proper hproper hwritable⟩

/-- A negated comparison of a place that is named like a truth value. -/
def negated : Formula :=
  .not (.atom ⟨[⟨"T", 2⟩], 0⟩ .eq ⟨[], 1⟩)

/-- A table with the negated comparison at number 5. -/
def negatedTable : Table :=
  (({} : Table).insert negated).2

theorem negatedTable_built : Built negatedTable :=
  Built.make (m := .not 4) (Built.make (m := .atom 2 .eq 3) (Built.make (m := .constant 1)
    (Built.make (m := .count [⟨"T", 2⟩] 0) .empty rfl) rfl) rfl) rfl

/-- The place is written in braces, and read back as a place. -/
theorem negated_read_back : negatedTable.expr 5 = .ok (.formula negated) ∧
    negated.render = "-(2*\x7bT\x7d = 1)" ∧ Formula.parse negated.render = .ok negated := by
  obtain ⟨f, hf, hread⟩ := parse_render.1 negatedTable negatedTable_built 5 (.not 4) rfl rfl
  have hnegated : negatedTable.expr 5 = .ok (.formula negated) := rfl
  cases hnegated.symm.trans hf
  have hleft : (⟨[⟨"T", 2⟩], 0⟩ : TokenSum).Writable := by
    refine ⟨List.forall_mem_singleton.mpr ?_, by decide, by decide⟩
    exact ⟨⟨by decide, by decide⟩, by decide, by decide⟩
  have hright : (⟨[], 1⟩ : TokenSum).Writable := ⟨by simp, by decide, by decide⟩
  exact ⟨hnegated, by decide +kernel, hread ⟨hleft, hright⟩⟩

end Table

end PetriReach
