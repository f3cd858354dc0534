import PetriReach.Proofs.Formula.Tables

/-!
# Interning

A table that serves requests, whether it can meet them or not. What is stored stays, nothing is
stored twice, and a number stands for one expression only: two numbers are equal if and only if
their expressions are.

* `Table.served`: what becomes of a request.
* `Table.OneNumber.node_eq`: nodes that unfold to one expression are equal.
* `Table.Founded.oneNumber`: where no node is stored twice, every expression has one number.
* `Table.serveAll_canonical`: all of it, after any sequence of requests.
-/

namespace PetriReach

namespace Table

/-- The table after requests, one after another. -/
def serveAll (t : Table) (ms : List Make) : Table :=
  ms.foldl (fun t m => (t.serve m).2) t

/-- What becomes of a request: it is refused, it is answered with a number that is there, or its
node is new and gets the next number. -/
inductive Served (t : Table) (m : Make) : Except Error Nat × Table → Prop where
  | refused {e : Error} (hm : ¬ t.Accepts m) : Served t m (.error e, t)
  | found {id : Nat} (hm : t.Accepts m) (hid : t.Answers id m) : Served t m (.ok id, t)
  | added {n : Node} (hm : t.Accepts m) (hnew : n ∉ t.nodes) (hn : Admits t.nodes n)
      (hid : (t.push n).Answers t.size m) : Served t m (.ok t.size, t.push n)

/-- What a table is at any time: the index is in step with the nodes, no node is stored twice, truth
and falsehood come first, a node refers to smaller numbers of the right sort, and numbers are equal
if and only if their expressions are. -/
structure Canonical (t : Table) : Prop where
  inStep : t.InStep
  nodup : t.nodes.Nodup
  truth : t.node 0 = .ok .tt
  falsehood : t.node 1 = .ok .ff
  descends : ∀ id n, t.node id = .ok n → ∀ c ∈ n.children, c < id
  admits : ∀ id n, t.node id = .ok n → Admits t.nodes n
  unfolds : ∀ id n, t.node id = .ok n → ∃ e, t.expr id = .ok e ∧ unfoldNode t.exprs n = some e
  expr_inj : ∀ i < t.size, ∀ j < t.size, t.expr i = t.expr j ↔ i = j

/-! ## One request -/

/-- **What becomes of a request.** -/
theorem served {t : Table} (h : t.InStep) (m : Make) : Served t m (t.serve m) := by
  have hmeets := t.meets m
  generalize t.serve m = r at hmeets ⊢
  cases hmeets with
  | refused hm => exact .refused hm
  | @operand a hm ha => exact .found hm (ha t)
  | @node n hm hn hanswer =>
    rcases intern_cases h n with ⟨id, hid, hintern⟩ | ⟨hnew, hintern⟩
    · rw [hintern]
      exact .found hm (hanswer t id (node_eq_ok.mpr hid))
    · rw [hintern]
      exact .added hm hnew hn (hanswer _ _ (node_eq_ok.mpr List.getElem?_concat_length))

theorem Served.nodup {t : Table} {m : Make} {r : Except Error Nat × Table} (h : Served t m r)
    (ht : t.nodes.Nodup) : r.2.nodes.Nodup := by
  cases h with
  | refused => exact ht
  | found => exact ht
  | added _ hnew =>
    refine List.nodup_append.mpr ⟨ht, List.nodup_singleton _, fun a ha b hb => ?_⟩
    obtain rfl := List.mem_singleton.mp hb
    rintro rfl
    exact hnew ha

/-! ## Numbers and expressions -/

/-- The node that unfolds to an expression, by the expression: its children are numbers of the
parts. -/
def Shape (known : List (Option Expr)) (n : Node) : Expr → Prop
  | .sum s => n = .sum (.ofSum s)
  | .formula .tt => n = .tt
  | .formula .ff => n = .ff
  | .formula (.not f) => ∃ c, n = .not c ∧ formulaAt? known c = some f
  | .formula (.junction k fs) =>
    ∃ cs, n = .junction k cs ∧ cs.mapM (formulaAt? known) = some fs
  | .formula (.atom a op b) =>
    ∃ l r, n = .atom l op r ∧ sumAt? known l = some a ∧ sumAt? known r = some b

/-- A sum that is admitted is stored as its terms say. -/
theorem ofSum_toSum {ns : List Node} {s : SumNode} (h : Admits ns (.sum s)) :
    SumNode.ofSum s.toSum = s := by
  cases s with
  | literal k => rfl
  | count ms k =>
    cases ms with
    | nil => exact absurd rfl h
    | cons m ms => rfl

theorem shape_of_unfoldNode {known : List (Option Expr)} {ns : List Node} {n : Node} {e : Expr}
    (hn : Admits ns n) (h : unfoldNode known n = some e) : Shape known n e := by
  cases n with
  | tt =>
    cases h
    rfl
  | ff =>
    cases h
    rfl
  | not c =>
    obtain ⟨f, hf, rfl⟩ := Option.map_eq_some_iff.mp h
    exact ⟨c, rfl, hf⟩
  | junction k cs =>
    obtain ⟨fs, hfs, rfl⟩ := Option.map_eq_some_iff.mp h
    exact ⟨cs, rfl, hfs⟩
  | atom l op r =>
    rw [unfoldNode] at h
    split at h
    · next a b ha hb =>
      cases h
      exact ⟨l, r, rfl, ha, hb⟩
    · cases h
  | sum s =>
    cases h
    exact congrArg Node.sum (ofSum_toSum hn).symm

/-- Every expression has one number. -/
def OneNumber (known : List (Option Expr)) : Prop :=
  ∀ ⦃i j : Nat⦄ ⦃e : Expr⦄, known[i]? = some (some e) → known[j]? = some (some e) → i = j

namespace OneNumber

variable {known : List (Option Expr)} (h : OneNumber known)

include h

theorem formulaAt? {i j : Nat} {f : Formula} (hi : formulaAt? known i = some f)
    (hj : Table.formulaAt? known j = some f) : i = j :=
  h (formulaAt?_eq_some.mp hi) (formulaAt?_eq_some.mp hj)

theorem sumAt? {i j : Nat} {s : TokenSum} (hi : sumAt? known i = some s)
    (hj : Table.sumAt? known j = some s) : i = j :=
  h (sumAt?_eq_some.mp hi) (sumAt?_eq_some.mp hj)

theorem mapM {is js : List Nat} {fs : List Formula}
    (hi : is.mapM (Table.formulaAt? known) = some fs)
    (hj : js.mapM (Table.formulaAt? known) = some fs) : is = js := by
  induction is generalizing js fs with
  | nil =>
    cases hi
    exact (List.length_eq_zero_iff.mp (forall_of_mapM hj).1.symm).symm
  | cons i is ih =>
    rw [List.mapM_cons] at hi
    obtain ⟨f, hf, hi⟩ := Option.bind_eq_some_iff.mp hi
    obtain ⟨gs, hgs, hi⟩ := Option.bind_eq_some_iff.mp hi
    cases hi
    cases js with
    | nil => cases hj
    | cons j js =>
      rw [List.mapM_cons] at hj
      obtain ⟨f', hf', hj⟩ := Option.bind_eq_some_iff.mp hj
      obtain ⟨gs', hgs', hj⟩ := Option.bind_eq_some_iff.mp hj
      cases hj
      rw [h.formulaAt? hf hf', ih hgs hgs']

/-- Where every expression has one number, nodes that unfold to one expression are equal. -/
theorem node_eq {ns ns' : List Node} {n n' : Node} {e : Expr} (ha : Admits ns n)
    (hn : unfoldNode known n = some e) (ha' : Admits ns' n')
    (hn' : unfoldNode known n' = some e) : n = n' := by
  replace hn := shape_of_unfoldNode ha hn
  replace hn' := shape_of_unfoldNode ha' hn'
  cases e with
  | sum s => exact hn.trans hn'.symm
  | formula f =>
    cases f with
    | tt => exact hn.trans hn'.symm
    | ff => exact hn.trans hn'.symm
    | not f =>
      obtain ⟨c, rfl, hc⟩ := hn
      obtain ⟨c', rfl, hc'⟩ := hn'
      rw [h.formulaAt? hc hc']
    | junction k fs =>
      obtain ⟨cs, rfl, hcs⟩ := hn
      obtain ⟨cs', rfl, hcs'⟩ := hn'
      rw [h.mapM hcs hcs']
    | atom a op b =>
      obtain ⟨l, r, rfl, hl, hr⟩ := hn
      obtain ⟨l', r', rfl, hl', hr'⟩ := hn'
      rw [h.sumAt? hl hl', h.sumAt? hr hr']

end OneNumber

/-- In a founded list a node refers to nodes before it. -/
theorem Founded.admits_take {ns : List Node} (h : Founded ns) {id : Nat} {n : Node}
    (hn : ns[id]? = some n) : Admits (ns.take id) n := by
  induction h with
  | nil => cases hn
  | @snoc ns m _ hm ih =>
    rcases getElem?_snoc_cases hn with hold | ⟨rfl, rfl⟩
    · have hlt := (List.getElem?_eq_some_iff.mp hold).1
      rw [List.take_append_of_le_length (Nat.le_of_lt hlt)]
      exact ih hold
    · rw [List.take_left]
      exact hm

/-- An expression that is there is not that of a new node. -/
theorem Founded.new {ns : List Node} (h : Founded ns) (hone : OneNumber (unfoldAll ns)) {n : Node}
    (ha : Admits ns n) (hn : n ∉ ns) {i : Nat} {e : Expr}
    (hi : (unfoldAll ns)[i]? = some (some e)) : unfoldNode (unfoldAll ns) n ≠ some e := by
  intro hnew
  have hlt : i < ns.length := by
    rw [← length_unfoldAll]
    exact (List.getElem?_eq_some_iff.mp hi).1
  obtain ⟨e', he', hunfold⟩ := h.unfolds (List.getElem?_eq_getElem hlt)
  cases hi.symm.trans he'
  have hold := h.admits_take (List.getElem?_eq_getElem hlt)
  exact hn (hone.node_eq hold hunfold ha hnew ▸ List.getElem_mem hlt)

/-- **Where no node is stored twice, every expression has one number.** -/
theorem Founded.oneNumber {ns : List Node} (h : Founded ns) (hnodup : ns.Nodup) :
    OneNumber (unfoldAll ns) := by
  induction h with
  | nil =>
    intro i j e hi
    cases hi
  | @snoc ns n hns ha ih =>
    obtain ⟨hold, -, hdisjoint⟩ := List.nodup_append.mp hnodup
    have hn : n ∉ ns := fun hmem => hdisjoint n hmem n List.mem_cons_self rfl
    have hone := ih hold
    -- a number is that of an old node, whose expression is old, or that of the new one
    have hsplit : ∀ {i e}, (unfoldAll (ns ++ [n]))[i]? = some (some e) →
        (unfoldAll ns)[i]? = some (some e) ∨
          i = ns.length ∧ unfoldNode (unfoldAll ns) n = some e := by
      intro i e hi
      rw [unfoldAll_snoc] at hi
      rcases getElem?_snoc_cases hi with hold | ⟨hnew, he⟩
      · exact .inl hold
      · rw [length_unfoldAll] at hnew
        exact .inr ⟨hnew, he⟩
    intro i j e hi hj
    rcases hsplit hi with hi | ⟨hi, hie⟩ <;> rcases hsplit hj with hj | ⟨hj, hje⟩
    · exact hone hi hj
    · exact absurd hje (hns.new hone ha hn hi)
    · exact absurd hie (hns.new hone ha hn hj)
    · exact hi.trans hj.symm

/-! ## Canonical tables -/

theorem Has.append {ns : List Node} {b : Bool} {id : Nat} (h : Has ns b id) (more : List Node) :
    Has (ns ++ more) b id :=
  (has_append (lt_of_has h)).mpr h

theorem Admits.append {ns : List Node} {n : Node} (h : Admits ns n) (more : List Node) :
    Admits (ns ++ more) n := by
  cases n with
  | tt => trivial
  | ff => trivial
  | not c => exact Has.append h more
  | junction k cs => exact ⟨h.1, fun c hc => (h.2 c hc).append more⟩
  | atom l op r => exact ⟨h.1.append more, h.2.append more⟩
  | sum s =>
    cases s with
    | literal k => trivial
    | count ms k => exact h

theorem Admits.lt {ns : List Node} {n : Node} (h : Admits ns n) :
    ∀ c ∈ n.children, c < ns.length := by
  cases n with
  | tt => simp [Node.children]
  | ff => simp [Node.children]
  | not c => exact List.forall_mem_singleton.mpr (lt_of_has h)
  | junction k cs => exact fun c hc => lt_of_has (h.2 c hc)
  | atom l op r =>
    rw [Node.children, List.forall_mem_cons, List.forall_mem_singleton]
    exact ⟨lt_of_has h.1, lt_of_has h.2⟩
  | sum s => simp [Node.children]

theorem expr_eq_ok {t : Table} {id : Nat} {e : Expr} :
    t.expr id = .ok e ↔ t.exprs[id]? = some (some e) := by
  rw [expr]
  split
  · next h => simp [h]
  · next h =>
    constructor
    · intro h'
      cases h'
    · intro h'
      exact (h e h').elim

theorem canonical_of_founded {t : Table} (h : Founded t.nodes) (hnodup : t.nodes.Nodup)
    (hfirst : Extends {} t) : Canonical t where
  inStep := hfirst.1
  nodup := hnodup
  truth := node_eq_ok.mpr (hfirst.getElem? rfl)
  falsehood := node_eq_ok.mpr (hfirst.getElem? rfl)
  descends id n hn c hc := by
    have hlt := (h.admits_take (node_eq_ok.mp hn)).lt c hc
    rw [List.length_take] at hlt
    omega
  admits id n hn := by
    have hadmits := (h.admits_take (node_eq_ok.mp hn)).append (t.nodes.drop id)
    rwa [List.take_append_drop] at hadmits
  unfolds id n hn := by
    obtain ⟨e, he, hunfold⟩ := h.unfolds (node_eq_ok.mp hn)
    exact ⟨e, expr_eq_ok.mpr he, hunfold⟩
  expr_inj i hi j hj := by
    refine ⟨fun heq => ?_, fun heq => heq ▸ rfl⟩
    obtain ⟨e, he, -⟩ := h.unfolds (List.getElem?_eq_getElem hi)
    have hj' : t.expr j = .ok e := heq ▸ expr_eq_ok.mpr he
    exact h.oneNumber hnodup he (expr_eq_ok.mp hj')

/-! ## Sequences of requests -/

theorem serveAll_extends {t : Table} (h : t.InStep) (ms : List Make) :
    Extends t (t.serveAll ms) := by
  induction ms generalizing t with
  | nil => exact .refl h
  | cons m ms ih =>
    have hfirst := (t.meets m).extends h
    exact hfirst.trans (ih hfirst.1)

/-- What every request keeps, a sequence of requests keeps. -/
theorem serveAll_induction {P : Table → Prop}
    (hstep : ∀ (t : Table) m, t.InStep → P t → P (t.serve m).2) {t : Table} (ht : t.InStep)
    (h : P t) (ms : List Make) : P (t.serveAll ms) := by
  induction ms generalizing t with
  | nil => exact h
  | cons m ms ih => exact ih ((t.meets m).extends ht).1 (hstep t m ht h)

theorem serveAll_append (t : Table) (ms more : List Make) :
    t.serveAll (ms ++ more) = (t.serveAll ms).serveAll more :=
  List.foldl_append

/-- **Interning is canonical.** After any sequence of requests, met or refused, the table is
canonical; every node keeps its number, whatever is asked later; and one more request is refused
without a trace, or answered with the number of what it asks for. -/
theorem serveAll_canonical (ms : List Make) :
    (({} : Table).serveAll ms).Canonical ∧
    (∀ id n, (({} : Table).serveAll ms).node id = .ok n →
      ∀ more, (({} : Table).serveAll (ms ++ more)).node id = .ok n) ∧
    ∀ m, Served (({} : Table).serveAll ms) m ((({} : Table).serveAll ms).serve m) := by
  have hextends := serveAll_extends inStep_empty ms
  have hfounded : Founded (({} : Table).serveAll ms).nodes :=
    serveAll_induction (fun t m => (t.meets m).founded) inStep_empty Built.empty.founded ms
  have hnodup : (({} : Table).serveAll ms).nodes.Nodup :=
    serveAll_induction (fun t m ht => (served ht m).nodup) inStep_empty (by decide) ms
  refine ⟨canonical_of_founded hfounded hnodup hextends, fun id n hn more => ?_,
    served hextends.1⟩
  rw [serveAll_append, node_eq_ok]
  exact (serveAll_extends hextends.1 more).getElem? (node_eq_ok.mp hn)

/-- A comparison that is asked for twice, between requests that cannot be met and a junction of one
operand. -/
def insistent : List Make :=
  [.count [⟨"p", 1⟩] 0, .count [] 1, .atom 2 .eq 3, .not 2, .junction .and [4], .atom 2 .eq 3,
    .junction .or [], .not 4, .junction .or [4, 5], .not 9, .constant 1]

/-- The comparison has one number, and so have the constant and the count without terms; refused
requests leave nothing behind. -/
theorem insistent_canonical : (({} : Table).serveAll insistent).nodes =
      [.tt, .ff, .sum (.count [⟨"p", 1⟩] 0), .sum (.literal 1), .atom 2 .eq 3, .not 4,
        .junction .or [4, 5]] ∧
    (({} : Table).serveAll insistent).Canonical ∧
    (({} : Table).serveAll (insistent ++ [.ff, .constant 7])).node 5 = .ok (.not 4) ∧
    Served (({} : Table).serveAll insistent) (.not 2)
      (.error .negatesSum, ({} : Table).serveAll insistent) := by
  obtain ⟨hcanonical, hkeeps, hserved⟩ := serveAll_canonical insistent
  exact ⟨by decide +kernel, hcanonical, hkeeps 5 (.not 4) rfl _, hserved (.not 2)⟩

end Table

end PetriReach
