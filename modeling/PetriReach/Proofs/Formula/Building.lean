import PetriReach.Formula.Builder
import PetriReach.Proofs.Formula.Tables

/-!
# Formulas read into tables

Reading a text into a table gives the numbers and the nodes that come of reading the formula first
and adding it then. In particular no node is refused: a text is stored if and only if it is read,
and the errors are the same.

* `Table.insert_extends`: a formula is added behind the nodes that are there.
* `Formula.Builds`: a builder stores what a reader reads.
* `Formula.builds_readAtom`, `Formula.buildLinks_eq`, `Formula.builds_readOperand`: the builders do.
* `Formula.store_eq`: whole texts.
-/

namespace PetriReach

/-! ## Adding formulas -/

namespace Table

mutual

/-- A formula is added behind the nodes that are there, and its number is that of a formula. -/
theorem insert_extends : ∀ (f : Formula) {t : Table}, t.InStep →
    Extends t (t.insert f).2 ∧ Has (t.insert f).2.nodes true (t.insert f).1
  | .tt, t, h => by
    obtain ⟨hextends, hnode⟩ := intern_extends h .tt
    exact ⟨hextends, _, hnode, rfl⟩
  | .ff, t, h => by
    obtain ⟨hextends, hnode⟩ := intern_extends h .ff
    exact ⟨hextends, _, hnode, rfl⟩
  | .not f, t, h => by
    obtain ⟨hf, -⟩ := insert_extends f h
    obtain ⟨hextends, hnode⟩ := intern_extends hf.1 (.not (t.insert f).1)
    exact ⟨hf.trans hextends, _, hnode, rfl⟩
  | .junction c fs, t, h => by
    obtain ⟨hfs, -⟩ := insertAll_extends fs h
    obtain ⟨hextends, hnode⟩ := intern_extends hfs.1 (.junction c (t.insertAll fs).1)
    exact ⟨hfs.trans hextends, _, hnode, rfl⟩
  | .atom l op r, t, h => by
    have hl := (intern_extends h (.sum (.ofSum l))).1
    have hr := (intern_extends hl.1 (.sum (.ofSum r))).1
    obtain ⟨hextends, hnode⟩ := intern_extends hr.1
      (.atom (t.insertSum l).1 op ((t.insertSum l).2.insertSum r).1)
    exact ⟨(hl.trans hr).trans hextends, _, hnode, rfl⟩

theorem insertAll_extends : ∀ (fs : List Formula) {t : Table}, t.InStep →
    Extends t (t.insertAll fs).2 ∧ ∀ id ∈ (t.insertAll fs).1, Has (t.insertAll fs).2.nodes true id
  | [], t, h => ⟨.refl h, by simp [insertAll]⟩
  | f :: fs, t, h => by
    obtain ⟨hf, hid⟩ := insert_extends f h
    obtain ⟨hfs, hids⟩ := insertAll_extends fs hf.1
    exact ⟨hf.trans hfs, List.forall_mem_cons.mpr ⟨hfs.has hid, hids⟩⟩

end

theorem insertAll_append (t : Table) (fs gs : List Formula) : t.insertAll (fs ++ gs) =
    ((t.insertAll fs).1 ++ ((t.insertAll fs).2.insertAll gs).1,
      ((t.insertAll fs).2.insertAll gs).2) := by
  induction fs generalizing t with
  | nil => rfl
  | cons f fs ih =>
    show ((t.insert f).1 :: ((t.insert f).2.insertAll (fs ++ gs)).1,
      ((t.insert f).2.insertAll (fs ++ gs)).2) = _
    rw [ih]
    rfl

theorem length_insertAll (t : Table) (fs : List Formula) :
    (t.insertAll fs).1.length = fs.length := by
  induction fs generalizing t with
  | nil => rfl
  | cons f fs ih => exact congrArg (· + 1) (ih (t.insert f).2)

/-- A junction of stored operands is made. -/
theorem serve_junction {t : Table} (h : t.InStep) (c : Connective) {fs : List Formula}
    (hfs : 2 ≤ fs.length) : (t.insertAll fs).2.serve (.junction c (t.insertAll fs).1) =
      (.ok (t.insert (.junction c fs)).1, (t.insert (.junction c fs)).2) :=
  serve_asking (n := .junction c _) ⟨(length_insertAll t fs).symm ▸ hfs, (insertAll_extends fs h).2⟩

end Table

namespace Formula

/-! ## Builders -/

section Builders

variable {α β : Type} {build : Builder α} {next : α → Builder β} {ts us : List Token}
  {t t' : Table}

theorem bind_ok {a : α} (h : build ts t = .ok ((a, us), t')) :
    (build >>= next) ts t = next a us t' := by
  show (build ts t >>= fun r => next r.1.1 r.1.2 r.2) = _
  rw [h]
  rfl

theorem bind_error {e : StoreError} (h : build ts t = .error e) :
    (build >>= next) ts t = .error e := by
  show (build ts t >>= fun r => next r.1.1 r.1.2 r.2) = _
  rw [h]
  rfl

theorem bind_get {next : List Token → Builder β} : (get >>= next) ts t = next ts ts t :=
  rfl

theorem bind_modify {next : PUnit → Builder β} (f : List Token → List Token) :
    (modify f >>= next) ts t = next ⟨⟩ (f ts) t :=
  rfl

theorem take_ok {read : Reader α} {r : α × List Token} (h : read ts = .ok r) :
    take read ts t = .ok (r, t) := by
  unfold take
  rw [h]

theorem take_error {read : Reader α} {e : SyntaxError} (h : read ts = .error e) :
    take read ts t = .error (.unread e) := by
  unfold take
  rw [h]

theorem ask_ok {m : Table.Make} {id : Nat} (h : t.serve m = (.ok id, t')) :
    ask m ts t = .ok ((id, ts), t') := by
  unfold ask
  rw [h]

end Builders

/-- What comes of adding what was read. -/
def stored (t : Table) : Except SyntaxError (Formula × List Token) →
    Except StoreError ((Nat × List Token) × Table)
  | .error e => .error (.unread e)
  | .ok (f, rest) => .ok (((t.insert f).1, rest), (t.insert f).2)

/-- **The builder stores what the reader reads.** -/
def Builds (read : Reader Formula) (build : Builder Nat) : Prop :=
  ∀ ⦃t : Table⦄, t.InStep → ∀ ts, build ts t = stored t (read ts)

/-- One builder after another. -/
theorem Builds.bind {read : Reader Formula} {build : Builder Nat} (ho : Builds read build)
    {k : Formula → Reader Formula} {next : Nat → Builder Nat}
    (hnext : ∀ ⦃t : Table⦄, t.InStep → ∀ f rest,
      next (t.insert f).1 rest (t.insert f).2 = stored t (k f rest)) :
    Builds (fun ts => read ts >>= fun x => k x.1 x.2) (build >>= next) := by
  intro t h ts
  have hbuild := ho h ts
  dsimp only
  cases hread : read ts with
  | error e =>
    rw [hread] at hbuild
    exact bind_error hbuild
  | ok r =>
    obtain ⟨f, rest⟩ := r
    rw [hread] at hbuild
    rw [bind_ok hbuild]
    exact hnext h f rest

theorem buildSum_ok {ts rest : List Token} {s : TokenSum} (h : readSum ts = .ok (s, rest))
    (t : Table) : buildSum ts t = .ok (((t.insertSum s).1, rest), (t.insertSum s).2) := by
  unfold buildSum
  rw [bind_ok (take_ok h)]
  rfl

theorem buildSum_error {ts : List Token} {e : SyntaxError} (h : readSum ts = .error e)
    (t : Table) : buildSum ts t = .error (.unread e) := by
  unfold buildSum
  rw [bind_error (take_error h)]

theorem builds_readAtom : Builds readAtom buildAtom := by
  intro t h ts
  unfold readAtom buildAtom
  cases hleft : readSum ts with
  | error e => exact bind_error (buildSum_error hleft t)
  | ok l =>
    obtain ⟨lhs, ts⟩ := l
    rw [bind_ok (buildSum_ok hleft t)]
    show _ = stored t (readRelation ts >>= fun x => readSum x.2 >>= fun y =>
      .ok (.atom lhs x.1 y.1, y.2))
    cases hop : readRelation ts with
    | error e => exact bind_error (take_error hop)
    | ok o =>
      obtain ⟨op, ts⟩ := o
      rw [bind_ok (take_ok hop)]
      show _ = stored t (readSum ts >>= fun y => .ok (.atom lhs op y.1, y.2))
      cases hright : readSum ts with
      | error e => exact bind_error (buildSum_error hright _)
      | ok r =>
        obtain ⟨rhs, ts⟩ := r
        rw [bind_ok (buildSum_ok hright _)]
        have hl := (Table.intern_extends h (.sum (.ofSum lhs))).1
        have hr := (Table.intern_extends hl.1 (.sum (.ofSum rhs))).1
        exact ask_ok (Table.serve_asking (n := .atom _ op _)
          ⟨hr.has (Table.has_insertSum h lhs), Table.has_insertSum hl.1 rhs⟩)

/-! ## Runs -/

/-- The numbers of a run: `a` is that of the first operand `f`, and the others follow. -/
inductive Gathered (t₀ : Table) (f : Formula) : Option (Connective × List Formula) → Nat →
    Option (Connective × List Nat) → Table → Prop where
  | first : Gathered t₀ f none (t₀.insert f).1 none (t₀.insert f).2
  | run {c : Connective} {fs : List Formula} {a : Nat} {ids : List Nat} {t : Table}
    (hne : fs ≠ []) (h : t₀.insertAll (f :: fs) = (a :: ids, t)) :
    Gathered t₀ f (some (c, fs)) a (some (c, ids)) t

variable {t₀ t : Table} {f : Formula} {run : Option (Connective × List Formula)} {a : Nat}
  {ids : Option (Connective × List Nat)}

/-- A run that ends is stored. -/
theorem Gathered.endRun (h : Gathered t₀ f run a ids t) (ht : t₀.InStep) (ts : List Token) :
    endRun a ids ts t = stored t₀ (.ok (closeRun f run, ts)) := by
  cases h with
  | first => rfl
  | @run c fs a ids t hne h =>
    have hlength : 2 ≤ (f :: fs).length := Nat.succ_le_succ (List.length_pos_iff.mpr hne)
    have hserve := Table.serve_junction ht c hlength
    rw [h] at hserve
    exact ask_ok hserve

/-- The run that a connective belongs to. -/
theorem Gathered.runOf (h : Gathered t₀ f run a ids t) (ht : t₀.InStep) (c : Connective)
    (ts : List Token) : ∃ f' fs b is t', runOf c a ids ts t = .ok (((b, is), ts), t') ∧
      t₀.insertAll (f' :: fs) = (b :: is, t') ∧
      ∀ g links, chainFrom f run ((c, g) :: links) = chainFrom f' (some (c, fs ++ [g])) links := by
  cases h with
  | first => exact ⟨f, [], _, _, _, rfl, rfl, fun g links => rfl⟩
  | @run d fs a ids t hne h =>
    by_cases hc : c = d
    · refine ⟨f, fs, a, ids, t, ?_, h, fun g links => ?_⟩
      · rw [Formula.runOf, if_pos hc]
        rfl
      · rw [chainFrom, if_pos hc, hc]
    · have hend := Gathered.endRun (.run (c := d) hne h) ht ts
      refine ⟨.junction d (f :: fs), [], _, [], _, ?_, rfl, fun g links => ?_⟩
      · rw [Formula.runOf, if_neg hc]
        exact bind_ok hend
      · rw [chainFrom, if_neg hc]
        rfl

theorem buildLinks_none {build : Builder Nat} {n : Nat} {ts : List Token}
    (h : connectiveAhead? ts = none) : buildLinks build (n + 1) a ids ts t = endRun a ids ts t := by
  rw [buildLinks, bind_get, h]

theorem buildLinks_some {build : Builder Nat} {n : Nat} {ts : List Token} {c : Connective}
    (h : connectiveAhead? ts = some c) : buildLinks build (n + 1) a ids ts t =
      (runOf c a ids >>= fun x => modify List.tail >>= fun _ => build >>= fun b =>
        buildLinks build n x.1 (some (c, x.2 ++ [b]))) ts t := by
  rw [buildLinks, bind_get, h]

/-- **Reading on behind an operand** stores the combination of all operands. -/
theorem buildLinks_eq {operand : Reader Formula} {build : Builder Nat} (ho : Builds operand build)
    (ht : t₀.InStep) (n : Nat) : ∀ {f run a ids t}, Gathered t₀ f run a ids t → ∀ ts,
    buildLinks build n a ids ts t =
      stored t₀ ((readLinks operand n ts).map fun x => (chainFrom f run x.1, x.2)) := by
  induction n with
  | zero =>
    intro f run a ids t h ts
    exact h.endRun ht ts
  | succ n ih =>
    intro f run a ids t h ts
    cases ts with
    | nil =>
      rw [buildLinks_none rfl]
      exact h.endRun ht []
    | cons tok rest =>
      cases hc : connective? tok.kind with
      | none =>
        have hahead : connectiveAhead? (tok :: rest) = none := hc
        rw [buildLinks_none hahead, readLinks, hc]
        exact h.endRun ht (tok :: rest)
      | some c =>
        obtain ⟨f', fs, b, is, t', hrun, hall, hchain⟩ := h.runOf ht c (tok :: rest)
        have hstep := (Table.insertAll_extends (f' :: fs) ht).1.1
        rw [hall] at hstep
        have hahead : connectiveAhead? (tok :: rest) = some c := hc
        rw [buildLinks_some hahead, bind_ok hrun, bind_modify, List.tail_cons, readLinks, hc]
        show _ = stored t₀ (Except.map _ (operand rest >>= fun x =>
          readLinks operand n x.2 >>= fun y => .ok ((c, x.1) :: y.1, y.2)))
        have hbuild := ho hstep rest
        cases hread : operand rest with
        | error e =>
          rw [hread] at hbuild
          exact bind_error hbuild
        | ok r =>
          obtain ⟨g, rest⟩ := r
          rw [hread] at hbuild
          rw [bind_ok hbuild]
          -- the operand is one more of the run
          have hmore : t₀.insertAll (f' :: (fs ++ [g])) =
              (b :: (is ++ [(t'.insert g).1]), (t'.insert g).2) := by
            rw [← List.cons_append, Table.insertAll_append, hall]
            rfl
          rw [ih (.run (c := c) (by simp) hmore) rest]
          show _ = stored t₀ (Except.map _ (readLinks operand n rest >>= fun y =>
            .ok ((c, g) :: y.1, y.2)))
          cases readLinks operand n rest with
          | error e => rfl
          | ok l =>
            show _ = stored t₀ (.ok (chainFrom f run ((c, g) :: l.1), l.2))
            rw [hchain]
            rfl

theorem builds_readChain {operand : Reader Formula} {build : Builder Nat}
    (ho : Builds operand build) : Builds (readChain operand) (buildChain build) := by
  refine ho.bind (k := fun f ts => readLinks operand ts.length ts >>= fun x =>
    .ok (chain f x.1, x.2)) fun t h f ts => ?_
  rw [bind_get, buildLinks_eq ho h ts.length .first ts]
  cases readLinks operand ts.length ts <;> rfl

/-! ## Operands -/

theorem builds_noOperand : Builds noOperand (take noOperand) := by
  intro t _ ts
  cases ts <;> rfl

theorem builds_not {operand : Reader Formula} {build : Builder Nat} (ho : Builds operand build) :
    Builds (fun ts => operand ts >>= fun x => .ok (.not x.1, x.2))
      (build >>= fun a => ask (.not a)) :=
  ho.bind (k := fun f ts => .ok (.not f, ts)) fun _ h f _ =>
    ask_ok (Table.serve_asking (n := .not _) (Table.insert_extends f h).2)

theorem builds_closing {operand : Reader Formula} {build : Builder Nat}
    (ho : Builds operand build) :
    Builds (fun ts => operand ts >>= fun x =>
        if leads .rparen x.2 then .ok (x.1, x.2.tail) else missing .unclosedGroup x.2)
      (build >>= fun a => take closing >>= fun _ => pure a) := by
  refine ho.bind (k := fun f ts => if leads .rparen ts then .ok (f, ts.tail)
    else missing .unclosedGroup ts) fun t _ f ts => ?_
  cases hclose : leads .rparen ts with
  | true =>
    have hread : closing ts = .ok ((), ts.tail) := by rw [closing, hclose, if_pos rfl]
    rw [bind_ok (take_ok hread), if_pos rfl]
    rfl
  | false =>
    have hread : closing ts = missing .unclosedGroup ts := by
      rw [closing, hclose, if_neg Bool.false_ne_true]
    rw [if_neg Bool.false_ne_true]
    cases ts with
    | nil => exact bind_error (take_error hread)
    | cons tok ts => exact bind_error (take_error hread)

/-- **An operand is stored as it is read.** -/
theorem builds_readOperand (n : Nat) : Builds (readOperand n) (buildOperand n) := by
  induction n with
  | zero => exact builds_noOperand
  | succ n ih =>
    intro t h ts
    cases ts with
    | nil => exact builds_noOperand h []
    | cons tok rest =>
      rw [buildOperand, bind_get, readOperand]
      dsimp only
      cases tok.kind with
      | minus => exact builds_not ih h rest
      | tt => rfl
      | ff => rfl
      | identifier => exact builds_readAtom h (tok :: rest)
      | integer => exact builds_readAtom h (tok :: rest)
      | lparen =>
        dsimp only
        split
        · exact builds_readAtom h (tok :: rest)
        · exact builds_closing (builds_readChain ih) h rest
      | _ => exact builds_noOperand h (tok :: rest)

/-! ## Whole texts -/

theorem buildFormula_eq {t : Table} (h : t.InStep) (ts : List Token) :
    (buildFormula ts t).map (fun r => (r.1.1, r.2)) =
      ((ofTokens ts).mapError .unread).map t.insert := by
  have hbuild := builds_readChain (builds_readOperand ts.length) h ts
  unfold buildFormula ofTokens readFormula
  rw [bind_get]
  cases hread : readChain (readOperand ts.length) ts with
  | error e =>
    rw [hread] at hbuild
    rw [bind_error hbuild]
    rfl
  | ok r =>
    obtain ⟨f, rest⟩ := r
    rw [hread] at hbuild
    rw [bind_ok hbuild]
    cases rest with
    | nil => rfl
    | cons tok rest =>
      obtain ⟨kind, text, column⟩ := tok
      cases kind <;> rfl

/-- **Reading a text into a table** gives what comes of reading the formula and adding it. No node
is refused. -/
theorem store_eq (s : String) :
    store s = ((parse s).mapError .unread).map ({} : Table).insert := by
  unfold store parse
  cases Token.scan s with
  | error e => rfl
  | ok ts => exact buildFormula_eq Table.inStep_empty ts

end Formula

end PetriReach
