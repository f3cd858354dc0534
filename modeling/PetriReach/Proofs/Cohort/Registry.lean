import PetriReach.Proofs.Cohort.Results

/-!
# The registry of a cohort

A solver is registered as long as an enlistment of it is alive: neither given up nor moved away. A
cancelled cohort has only killed solvers, those that join it later included. What an operation kills
is known from the state before it, and no process is ended twice.

* `Muster.Op.Kills`: the solvers that an operation kills.
* `Muster.switch_apply`: an operation kills these and no others.
* `Muster.Settled`: what every operation keeps.
* `Muster.Tracked`: what is kept as long as no solver is enlisted twice at a time.
* `Muster.registry_law`: the state after any such operations.
-/

namespace PetriReach

namespace Cohort

variable {ι : Type}

/-- A result that decides the race: the first conclusive verdict. -/
def DecidedBy (c : Cohort ι) (verdict : Option Verdict) : Prop :=
  c.conclusive = none ∧ verdict.any Verdict.isConclusive = true

instance (c : Cohort ι) (verdict : Option Verdict) : Decidable (c.DecidedBy verdict) :=
  inferInstanceAs (Decidable (_ ∧ _))

/-- A result leaves the registrations alone, and cancels the cohort if it decides the race. -/
theorem finish_cases (c : Cohort ι) (name : String) (verdict : Option Verdict) :
    (c.finish name verdict).registered = c.registered ∧
      ((c.finish name verdict).cancelled = true ↔ c.cancelled = true ∨ c.DecidedBy verdict) := by
  cases verdict with
  | none => simp [finish, DecidedBy]
  | some v =>
    cases hc : c.conclusive with
    | some w => simp [finish, DecidedBy, hc]
    | none =>
      cases hv : v.isConclusive with
      | true => simp [finish, DecidedBy, hc, hv, cancel]
      | false => cases hg : c.gaveUp <;> simp [finish, DecidedBy, hc, hv, hg]

end Cohort

namespace Muster

/-! ## Switches -/

/-- The switch of a solver, unused before the solver is enlisted or killed. -/
def switch (m : Muster) (x : String) : Switch :=
  (m.switches.lookup x).getD {}

/-- The operation cancels the cohort. -/
def Op.Cancels (m : Muster) : Op → Prop
  | .finish _ verdict => m.cohort.DecidedBy verdict
  | .cancel => True
  | _ => False

instance (m : Muster) : (op : Op) → Decidable (op.Cancels m)
  | .finish _ verdict => inferInstanceAs (Decidable (m.cohort.DecidedBy verdict))
  | .cancel => inferInstanceAs (Decidable True)
  | .enlist _ _ => inferInstanceAs (Decidable False)
  | .withdraw _ => inferInstanceAs (Decidable False)
  | .move _ _ => inferInstanceAs (Decidable False)
  | .kill _ => inferInstanceAs (Decidable False)
  | .look => inferInstanceAs (Decidable False)

/-- The solver that joins by an operation. -/
def Op.joins : Op → List String
  | .enlist solver _ => [solver]
  | _ => []

/-- The solver whose enlistment an operation gives up. -/
def Op.drops (m : Muster) : Op → Option String
  | .enlist _ slot => (m.held? slot).join
  | .withdraw slot => (m.held? slot).join
  | .move slot target =>
    if (m.held? slot).isSome then ((m.hold slot none).held? target).join else none
  | _ => none

/-- The operation kills the solver `x`: it cancels the cohort while `x` is registered, or `x` joins
a cancelled cohort, or `x` is killed from outside. -/
def Op.Kills (m : Muster) (x : String) (op : Op) : Prop :=
  op.Cancels m ∧ x ∈ m.cohort.registered ∨ m.cohort.cancelled = true ∧ x ∈ op.joins ∨
    op = .kill x

instance (m : Muster) (x : String) (op : Op) : Decidable (op.Kills m x) :=
  inferInstanceAs (Decidable (_ ∨ _))

/-- Every solver has one switch. -/
def Increasing (m : Muster) : Prop :=
  (m.switches.map (·.1)).Pairwise (· < ·)

/-- What holds of the switches whatever is done. -/
structure Settled (m : Muster) : Prop where
  increasing : m.Increasing
  killed : m.cohort.cancelled = true → ∀ x ∈ m.cohort.registered, (m.switch x).killed = true
  counted : ∀ x, (m.switch x).Counted

variable {m : Muster} {x : String}

/-! ### One switch -/

theorem mem_names_modifySwitch {name : String} {f : Switch → Switch}
    {switches : List (String × Switch)} :
    x ∈ (modifySwitch name f switches).map (·.1) ↔ x = name ∨ x ∈ switches.map (·.1) := by
  induction switches with
  | nil => simp [modifySwitch]
  | cons entry rest ih =>
    obtain ⟨n, s⟩ := entry
    unfold modifySwitch
    split
    · simp
    · split
      · next hname => simp [hname]
      · simp only [List.map_cons, List.mem_cons, ih]
        exact or_left_comm

theorem increasing_modifySwitch {switches : List (String × Switch)}
    (h : (switches.map (·.1)).Pairwise (· < ·)) (name : String) (f : Switch → Switch) :
    ((modifySwitch name f switches).map (·.1)).Pairwise (· < ·) := by
  induction switches with
  | nil => exact List.pairwise_singleton _ _
  | cons entry rest ih =>
    obtain ⟨n, s⟩ := entry
    obtain ⟨hn, hrest⟩ := List.pairwise_cons.mp h
    unfold modifySwitch
    split
    · next hlt =>
      refine List.pairwise_cons.mpr ⟨fun y hy => ?_, h⟩
      rcases List.mem_cons.mp hy with rfl | hy
      · exact hlt
      · exact String.lt_trans hlt (hn y hy)
    · next hlt =>
      split
      · exact List.pairwise_cons.mpr ⟨hn, hrest⟩
      · next hne =>
        refine List.pairwise_cons.mpr ⟨fun y hy => ?_, ih hrest⟩
        rcases mem_names_modifySwitch.mp hy with rfl | hy
        · exact String.not_le.mp fun hle => hne (String.le_antisymm hle (String.not_lt.mp hlt))
        · exact hn y hy

theorem lookup_of_lt {switches : List (String × Switch)}
    (h : ∀ y ∈ switches.map (·.1), x < y) : switches.lookup x = none := by
  rw [List.lookup_eq_none_iff]
  intro entry hentry
  rw [bne_iff_ne]
  rintro rfl
  exact String.lt_irrefl _ (h _ (List.mem_map_of_mem hentry))

/-- One switch is used, where a solver without a switch counts as one whose switch is unused, and
all others keep theirs. -/
theorem lookup_modifySwitch {switches : List (String × Switch)}
    (h : (switches.map (·.1)).Pairwise (· < ·)) (name : String) (f : Switch → Switch) (x : String) :
    ((modifySwitch name f switches).lookup x).getD {} =
      if x = name then f ((switches.lookup x).getD {}) else (switches.lookup x).getD {} := by
  induction switches with
  | nil =>
    rw [modifySwitch, List.lookup_cons]
    by_cases hx : x = name
    · simp [hx]
    · simp [beq_eq_false_iff_ne.mpr hx, hx]
  | cons entry rest ih =>
    obtain ⟨n, s⟩ := entry
    obtain ⟨hn, hrest⟩ := List.pairwise_cons.mp h
    unfold modifySwitch
    split
    · next hlt =>
      by_cases hx : x = name
      · subst hx
        have hnone : List.lookup x ((n, s) :: rest) = none := by
          refine lookup_of_lt fun y hy => ?_
          rcases List.mem_cons.mp hy with rfl | hy
          · exact hlt
          · exact String.lt_trans hlt (hn y hy)
        rw [List.lookup_cons_self, hnone, if_pos rfl]
        rfl
      · rw [List.lookup_cons, beq_eq_false_iff_ne.mpr hx, if_neg hx]
    · split
      · next hname =>
        subst hname
        rw [List.lookup_cons, List.lookup_cons]
        by_cases hx : x = name
        · simp [hx]
        · simp [beq_eq_false_iff_ne.mpr hx, hx]
      · next hne =>
        rw [List.lookup_cons, List.lookup_cons]
        by_cases hx : x = n
        · rw [if_neg fun hname : x = name => hne (hname.symm.trans hx), hx, beq_self_eq_true]
        · rw [beq_eq_false_iff_ne.mpr hx]
          exact ih hrest

/-! ### One solver, and all that are registered -/

theorem Increasing.killOne (h : m.Increasing) (name : String) : (m.killOne name).Increasing :=
  increasing_modifySwitch h name Switch.kill

theorem switch_killOne (h : m.Increasing) (name x : String) :
    (m.killOne name).switch x = if x = name then (m.switch x).kill else m.switch x :=
  lookup_modifySwitch h name Switch.kill x

theorem Increasing.foldl_killOne (h : m.Increasing) (names : List String) :
    (names.foldl Muster.killOne m).Increasing := by
  induction names generalizing m with
  | nil => exact h
  | cons name names ih => exact ih (h.killOne name)

/-- Killing several solvers kills each of them. -/
theorem switch_foldl_killOne (h : m.Increasing) (names : List String) (x : String) :
    (names.foldl killOne m).switch x = if x ∈ names then (m.switch x).kill else m.switch x := by
  induction names generalizing m with
  | nil => rfl
  | cons name names ih =>
    rw [List.foldl_cons, ih (h.killOne name), switch_killOne h]
    by_cases hx : x = name
    · subst hx
      rw [if_pos rfl, if_pos List.mem_cons_self,
        Switch.kill_of_killed (Switch.killed_kill _), ite_self]
    · rw [if_neg hx]
      simp only [List.mem_cons, hx, false_or]

theorem Increasing.settle (h : m.Increasing) : m.settle.Increasing := by
  unfold Muster.settle
  split
  · exact h.foldl_killOne _
  · exact h

theorem switch_settle (h : m.Increasing) (x : String) :
    m.settle.switch x = if m.cohort.cancelled = true ∧ x ∈ m.cohort.registered
      then (m.switch x).kill else m.switch x := by
  unfold settle
  by_cases hcancelled : m.cohort.cancelled = true
  · rw [if_pos hcancelled, switch_foldl_killOne h]
    simp only [hcancelled, true_and]
  · rw [if_neg hcancelled, if_neg fun h => hcancelled h.1]

/-! ### One operation -/

theorem switches_release (m : Muster) (e : Option Enlistment) :
    (m.release e).switches = m.switches := by
  unfold release
  split <;> rfl

theorem switch_release (m : Muster) (e : Option Enlistment) (x : String) :
    (m.release e).switch x = m.switch x := by
  rw [switch, switches_release, switch]

theorem registered_release (m : Muster) (e : Option Enlistment) :
    (m.release e).cohort.registered = m.cohort.registered.filter (e.join != some ·) := by
  unfold release
  split
  · next solver =>
    refine List.filter_congr fun x _ => ?_
    by_cases hx : x = solver
    · simp [hx]
    · simp [hx, Ne.symm hx]
  · next hdead =>
    have hnone : e.join = none := by
      rcases e with _ | _ | solver
      · rfl
      · rfl
      · exact absurd rfl (hdead solver)
    rw [hnone]
    exact (List.filter_eq_self.mpr fun x _ => by simp).symm

theorem cancelled_release (m : Muster) (e : Option Enlistment) :
    (m.release e).cohort.cancelled = m.cohort.cancelled := by
  unfold release
  split <;> rfl

/-- To kill a solver once more changes nothing. -/
theorem kill_congr {s : Switch} {p q : Prop} [Decidable p] [Decidable q] (hqp : q → p)
    (hpq : p → q ∨ s.killed = true) : (if p then s.kill else s) = if q then s.kill else s := by
  by_cases hq : q
  · rw [if_pos (hqp hq), if_pos hq]
  · rw [if_neg hq]
    by_cases hp : p
    · rw [if_pos hp, Switch.kill_of_killed ((hpq hp).resolve_left hq)]
    · rw [if_neg hp]

theorem switch_enlist (h : m.Settled) (solver x : String) :
    (m.enlist solver).switch x = if m.cohort.cancelled = true ∧ x = solver
      then (m.switch x).kill else m.switch x := by
  have hswitch : ({ m with
      cohort := m.cohort.enlist solver
      switches := modifySwitch solver id m.switches } : Muster).switch x = m.switch x :=
    (lookup_modifySwitch h.increasing solver id x).trans (ite_self _)
  have hincreasing : ({ m with
      cohort := m.cohort.enlist solver
      switches := modifySwitch solver id m.switches } : Muster).Increasing :=
    increasing_modifySwitch h.increasing solver id
  rw [enlist, switch_settle hincreasing, hswitch]
  refine kill_congr (fun hx => ⟨hx.1, ?_⟩) fun hx => ?_
  · exact List.mem_append_right _ (List.mem_singleton.mpr hx.2)
  · rcases List.mem_append.mp hx.2 with hmem | hmem
    · exact .inr (h.killed hx.1 x hmem)
    · exact .inl ⟨hx.1, List.mem_singleton.mp hmem⟩

/-- An enlistment is moved only out of a slot that holds one. -/
theorem apply_move (m : Muster) (slot target : String) :
    (m.apply (.move slot target) = m ∧ m.held? slot = none) ∨
    ∃ e, m.held? slot = some e ∧ m.apply (.move slot target) =
      ((m.hold slot none).release ((m.hold slot none).held? target)).hold target e := by
  cases hheld : m.held? slot with
  | none =>
    refine .inl ⟨?_, rfl⟩
    simp only [apply, hheld]
  | some e =>
    refine .inr ⟨e, rfl, ?_⟩
    simp only [apply, hheld]

/-- **The registrations after an operation.** -/
theorem registered_apply (m : Muster) (op : Op) : (m.apply op).cohort.registered =
    (m.cohort.registered ++ op.joins).filter (op.drops m != some ·) := by
  have hkeep : ∀ xs : List String, xs = (xs ++ []).filter (none != some ·) := fun xs => by
    rw [List.append_nil]
    exact (List.filter_eq_self.mpr fun x _ => rfl).symm
  cases op with
  | finish method verdict =>
    rw [apply, cohort_settle]
    exact (m.cohort.finish_cases method verdict).1.trans (hkeep _)
  | cancel =>
    rw [apply, cohort_settle]
    exact hkeep _
  | enlist solver slot =>
    show ((m.enlist solver).release (m.held? slot)).cohort.registered = _
    rw [registered_release, enlist, cohort_settle]
    rfl
  | withdraw slot =>
    show (m.release (m.held? slot)).cohort.registered = (_ ++ []).filter _
    rw [registered_release, List.append_nil]
    rfl
  | move slot target =>
    show _ = (_ ++ []).filter _
    obtain ⟨happly, hheld⟩ | ⟨e, hheld, happly⟩ := m.apply_move slot target
    · simp only [happly, Op.drops, hheld]
      exact hkeep _
    · simp only [happly, Op.drops, hheld, List.append_nil]
      exact registered_release (m.hold slot none) _
  | kill solver => exact hkeep _
  | look => exact hkeep _

/-- **When a cohort is cancelled after an operation.** -/
theorem cancelled_apply (m : Muster) (op : Op) :
    (m.apply op).cohort.cancelled = true ↔ m.cohort.cancelled = true ∨ op.Cancels m := by
  cases op with
  | finish method verdict =>
    rw [apply, cohort_settle]
    exact (m.cohort.finish_cases method verdict).2
  | cancel =>
    rw [apply, cohort_settle]
    simp [Cohort.cancel, Op.Cancels]
  | enlist solver slot =>
    show ((m.enlist solver).release (m.held? slot)).cohort.cancelled = true ↔ _ ∨ False
    rw [cancelled_release, enlist, cohort_settle, or_false]
    rfl
  | withdraw slot =>
    show (m.release (m.held? slot)).cohort.cancelled = true ↔ _ ∨ False
    rw [cancelled_release, or_false]
  | move slot target =>
    show _ ↔ _ ∨ False
    obtain ⟨happly, -⟩ | ⟨e, -, happly⟩ := m.apply_move slot target
    · rw [happly, or_false]
    · rw [happly, or_false]
      exact iff_of_eq (congrArg (· = true) (cancelled_release (m.hold slot none) _))
  | kill solver => exact (or_false _).symm ▸ Iff.rfl
  | look => exact (or_false _).symm ▸ Iff.rfl

/-- **An operation kills** those that it is said to kill, and no others. -/
theorem switch_apply (h : m.Settled) (op : Op) (x : String) :
    (m.apply op).switch x = if op.Kills m x then (m.switch x).kill else m.switch x := by
  unfold Op.Kills
  cases op with
  | finish method verdict =>
    obtain ⟨hregistered, hcancelled⟩ := m.cohort.finish_cases method verdict
    have hsettle := switch_settle (m := { m with cohort := m.cohort.finish method verdict })
      h.increasing x
    rw [apply, hsettle]
    simp only [hregistered, hcancelled, Op.Cancels, Op.joins, List.not_mem_nil, and_false,
      reduceCtorEq, or_false]
    refine kill_congr (fun hx => ⟨.inr hx.1, hx.2⟩) fun hx => ?_
    rcases hx.1 with hbefore | hnow
    · exact .inr (h.killed hbefore x hx.2)
    · exact .inl ⟨hnow, hx.2⟩
  | cancel =>
    have hsettle := switch_settle (m := { m with cohort := m.cohort.cancel }) h.increasing x
    rw [apply, hsettle]
    simp only [Cohort.cancel, Op.Cancels, Op.joins, List.not_mem_nil, and_false, reduceCtorEq,
      or_false]
    rfl
  | enlist solver slot =>
    show ((m.enlist solver).release (m.held? slot)).switch x = _
    rw [switch_release, switch_enlist h]
    simp only [Op.Cancels, Op.joins, List.mem_singleton, reduceCtorEq, false_and, false_or,
      or_false]
  | withdraw slot =>
    simp only [Op.Cancels, Op.joins, List.not_mem_nil, and_false, reduceCtorEq, false_and,
      or_false, if_false]
    exact switch_release m (m.held? slot) x
  | move slot target =>
    simp only [Op.Cancels, Op.joins, List.not_mem_nil, and_false, reduceCtorEq, false_and,
      or_false, if_false]
    obtain ⟨happly, -⟩ | ⟨e, -, happly⟩ := m.apply_move slot target
    · rw [happly]
    · rw [happly]
      exact switch_release (m.hold slot none) _ x
  | kill solver =>
    simp only [Op.Cancels, Op.joins, List.not_mem_nil, and_false, false_and, false_or,
      Op.kill.injEq]
    rw [apply, switch_killOne h.increasing]
    simp only [eq_comm]
  | look =>
    simp only [Op.Cancels, Op.joins, List.not_mem_nil, and_false, reduceCtorEq, false_and,
      or_false, if_false]
    rfl

theorem Increasing.apply (h : m.Increasing) (op : Op) : (m.apply op).Increasing := by
  have hrelease : ∀ {m : Muster} (e : Option Enlistment), m.Increasing →
      (m.release e).Increasing := fun {m} e hm => by
    rw [Increasing, switches_release]
    exact hm
  cases op with
  | finish method verdict => exact Increasing.settle (m := { m with cohort := _ }) h
  | cancel => exact Increasing.settle (m := { m with cohort := _ }) h
  | enlist solver slot =>
    exact hrelease (m.held? slot) (Increasing.settle (increasing_modifySwitch h solver id))
  | withdraw slot => exact hrelease (m.held? slot) h
  | move slot target =>
    obtain ⟨happly, -⟩ | ⟨e, -, happly⟩ := m.apply_move slot target
    · rw [happly]
      exact h
    · rw [happly]
      exact hrelease (m := m.hold slot none) _ h
  | kill solver => exact h.killOne solver
  | look => exact h

theorem joins_of_cancels {op : Op} (h : op.Cancels m) : op.joins = [] := by
  cases op with
  | finish method verdict => rfl
  | cancel => rfl
  | _ => cases h

/-- **What every operation keeps.** -/
theorem Settled.apply (h : m.Settled) (op : Op) : (m.apply op).Settled := by
  have hregistered : ∀ x ∈ (m.apply op).cohort.registered,
      x ∈ m.cohort.registered ∨ x ∈ op.joins := fun x hx => by
    rw [registered_apply, List.mem_filter, List.mem_append] at hx
    exact hx.1
  refine ⟨h.increasing.apply op, fun hcancelled x hx => ?_, fun x => ?_⟩
  · rw [switch_apply h]
    split
    · exact Switch.killed_kill _
    · next hspared =>
      rcases (m.cancelled_apply op).mp hcancelled with hbefore | hnow
      · rcases hregistered x hx with hmem | hjoins
        · exact h.killed hbefore x hmem
        · exact absurd (.inr (.inl ⟨hbefore, hjoins⟩)) hspared
      · have hmem : x ∈ m.cohort.registered := by
          simpa [joins_of_cancels hnow] using hregistered x hx
        exact absurd (.inl ⟨hnow, hmem⟩) hspared
  · rw [switch_apply h]
    split
    · exact (h.counted x).kill
    · exact h.counted x

/-! ## Enlistments -/

/-- An enlistment of the solver `x` is alive: some slot holds it. -/
def Live (m : Muster) (x : String) : Prop :=
  ∃ slot ∈ m.slots.map (·.1), m.held? slot = some (some x)

instance (m : Muster) (x : String) : Decidable (m.Live x) :=
  inferInstanceAs (Decidable (∃ slot ∈ m.slots.map (·.1), m.held? slot = some (some x)))

/-- The operation enlists no solver of which an enlistment is alive. -/
def Admits (m : Muster) (op : Op) : Prop :=
  ∀ x ∈ op.joins, ¬ m.Live x

instance (m : Muster) (op : Op) : Decidable (m.Admits op) :=
  inferInstanceAs (Decidable (∀ x ∈ op.joins, ¬ m.Live x))

/-- No solver is enlisted while an enlistment of it is alive. -/
def Orderly (m : Muster) : List Op → Prop
  | [] => True
  | op :: ops => m.Admits op ∧ (m.apply op).Orderly ops

instance decidableOrderly : (ops : List Op) → (m : Muster) → Decidable (m.Orderly ops)
  | [], _ => inferInstanceAs (Decidable True)
  | op :: ops, m =>
    have := decidableOrderly ops (m.apply op)
    inferInstanceAs (Decidable (m.Admits op ∧ (m.apply op).Orderly ops))

/-- The solvers of the enlistments that are alive. -/
def live (m : Muster) : List String :=
  m.slots.filterMap (·.2)

/-- What holds as long as no solver is enlisted twice at a time. -/
structure Tracked (m : Muster) : Prop where
  slots : (m.slots.map (·.1)).Nodup
  registered : m.cohort.registered.Perm m.live
  nodup : m.live.Nodup

theorem lookup_of_mem {slots : List (String × Enlistment)} (h : (slots.map (·.1)).Nodup)
    {entry : String × Enlistment} (hentry : entry ∈ slots) :
    slots.lookup entry.1 = some entry.2 := by
  induction slots with
  | nil => cases hentry
  | cons first rest ih =>
    obtain ⟨hfirst, hrest⟩ := List.nodup_cons.mp h
    rcases List.mem_cons.mp hentry with rfl | hentry
    · exact List.lookup_cons_self
    · have hne : entry.1 ≠ first.1 := fun heq =>
        hfirst (List.mem_map.mpr ⟨entry, hentry, heq⟩)
      rw [List.lookup_cons, beq_eq_false_iff_ne.mpr hne]
      exact ih hrest hentry

theorem mem_live (h : (m.slots.map (·.1)).Nodup) : x ∈ m.live ↔ m.Live x := by
  unfold live
  rw [List.mem_filterMap]
  constructor
  · rintro ⟨entry, hentry, hx⟩
    refine ⟨entry.1, List.mem_map_of_mem hentry, ?_⟩
    rw [held?, lookup_of_mem h hentry, hx]
  · rintro ⟨slot, -, hheld⟩
    obtain ⟨before, behind, hslots, -⟩ := List.lookup_eq_some_iff.mp hheld
    exact ⟨(slot, some x), by rw [hslots]; simp, rfl⟩

/-- What a slot holds is part of what is held. -/
theorem live_perm (h : (m.slots.map (·.1)).Nodup) (slot : String) :
    m.live.Perm ((m.held? slot).join.toList ++ (m.clear slot).live) := by
  show (m.slots.filterMap (·.2)).Perm ((m.slots.lookup slot).join.toList ++
    (m.slots.filter (·.1 ≠ slot)).filterMap (·.2))
  generalize m.slots = slots at h
  induction slots with
  | nil => exact .refl []
  | cons entry rest ih =>
    obtain ⟨k, e⟩ := entry
    obtain ⟨hk, hrest⟩ := List.nodup_cons.mp h
    have hcons : ∀ entries : List (String × Enlistment),
        ((k, e) :: entries).filterMap (·.2) = e.toList ++ entries.filterMap (·.2) := by
      intro entries
      cases e <;> rfl
    rw [hcons, List.lookup_cons]
    by_cases hslot : slot = k
    · subst hslot
      have hothers : rest.filter (·.1 ≠ slot) = rest := by
        refine List.filter_eq_self.mpr fun entry hentry => decide_eq_true fun heq => ?_
        exact hk (List.mem_map.mpr ⟨entry, hentry, heq⟩)
      rw [beq_self_eq_true, List.filter_cons_of_neg (by simp), hothers]
      exact .refl _
    · rw [beq_eq_false_iff_ne.mpr hslot, List.filter_cons_of_pos (by simpa using Ne.symm hslot),
        hcons]
      exact ((ih hrest).append_left e.toList).trans (List.perm_append_comm_assoc _ _ _)

theorem live_hold (m : Muster) (slot : String) (e : Enlistment) :
    (m.hold slot e).live = e.toList ++ (m.clear slot).live := by
  cases e <;> rfl

theorem nodup_clear (h : (m.slots.map (·.1)).Nodup) (slot : String) :
    ((m.clear slot).slots.map (·.1)).Nodup :=
  h.sublist (List.filter_sublist.map _)

theorem nodup_hold (h : (m.slots.map (·.1)).Nodup) (slot : String) (e : Enlistment) :
    ((m.hold slot e).slots.map (·.1)).Nodup := by
  refine List.nodup_cons.mpr ⟨fun hslot => ?_, nodup_clear h slot⟩
  obtain ⟨entry, hentry, rfl⟩ := List.mem_map.mp hslot
  simp [clear] at hentry

theorem slots_settle (m : Muster) : m.settle.slots = m.slots := by
  have hfold : ∀ (names : List String) (m : Muster),
      (names.foldl killOne m).slots = m.slots := by
    intro names
    induction names with
    | nil => exact fun _ => rfl
    | cons name names ih => exact fun m => ih (m.killOne name)
  unfold settle
  split
  · exact hfold _ m
  · rfl

theorem slots_release (m : Muster) (e : Option Enlistment) : (m.release e).slots = m.slots := by
  unfold release
  split <;> rfl

/-- **The enlistments after an operation.** -/
theorem live_apply (h : (m.slots.map (·.1)).Nodup) (op : Op) :
    ((m.apply op).slots.map (·.1)).Nodup ∧
      (m.live ++ op.joins).Perm ((op.drops m).toList ++ (m.apply op).live) := by
  have hquiet : ∀ m' : Muster, m'.slots = m.slots →
      (m'.slots.map (·.1)).Nodup ∧ (m.live ++ []).Perm ([] ++ m'.live) := by
    intro m' hslots
    refine ⟨hslots ▸ h, ?_⟩
    rw [List.append_nil, live, live, hslots]
    exact .refl _
  cases op with
  | finish method verdict => exact hquiet _ (slots_settle _)
  | cancel => exact hquiet _ (slots_settle _)
  | enlist solver slot =>
    have hslots : ((m.enlist solver).release (m.held? slot)).slots = m.slots := by
      rw [slots_release, enlist, slots_settle]
    refine ⟨nodup_hold (hslots ▸ h) slot (some solver), ?_⟩
    have hlive : (m.apply (.enlist solver slot)).live = solver :: (m.clear slot).live := by
      show (Muster.hold _ slot (some solver)).live = _
      rw [live_hold, clear, hslots]
      rfl
    rw [hlive]
    refine ((live_perm h slot).append_right [solver]).trans ?_
    rw [List.append_assoc]
    exact (List.perm_append_singleton solver _).append_left _
  | withdraw slot =>
    have hslots : (m.apply (.withdraw slot)).slots = (m.clear slot).slots := by
      show (Muster.clear _ slot).slots = _
      rw [clear, slots_release, clear]
    refine ⟨hslots ▸ nodup_clear h slot, ?_⟩
    have hlive : (m.apply (.withdraw slot)).live = (m.clear slot).live := by
      rw [live, hslots, live]
    show (m.live ++ []).Perm _
    rw [hlive, List.append_nil]
    exact live_perm h slot
  | move slot target =>
    obtain ⟨happly, hheld⟩ | ⟨e, hheld, happly⟩ := m.apply_move slot target
    · rw [happly]
      simp only [Op.drops, hheld]
      exact hquiet m rfl
    · have hempty := nodup_hold h slot none
      have hslots := slots_release (m.hold slot none) ((m.hold slot none).held? target)
      have hout : m.live.Perm (e.toList ++ (m.hold slot none).live) := by
        have hperm := live_perm h slot
        rw [hheld] at hperm
        rw [live_hold]
        exact hperm
      have hlive : (m.apply (.move slot target)).live =
          e.toList ++ ((m.hold slot none).clear target).live := by
        rw [happly, live_hold, clear, hslots, clear]
        rfl
      refine ⟨happly ▸ nodup_hold (hslots ▸ hempty) target e, ?_⟩
      show (m.live ++ []).Perm _
      simp only [hlive, Op.drops, hheld, Option.isSome_some, if_true, List.append_nil]
      exact (hout.trans ((live_perm hempty target).append_left _)).trans
        (List.perm_append_comm_assoc _ _ _)
  | kill solver => exact hquiet _ rfl
  | look => exact hquiet _ rfl

/-- What is left of some names without one of them. -/
theorem perm_filter {xs ys : List String} {o : Option String} (h : xs.Perm (o.toList ++ ys))
    (hnodup : (o.toList ++ ys).Nodup) : (xs.filter (o != some ·)).Perm ys := by
  refine (h.filter _).trans (.of_eq ?_)
  cases o with
  | none => exact List.filter_eq_self.mpr fun x _ => rfl
  | some x =>
    obtain ⟨hx, -⟩ := List.nodup_cons.mp hnodup
    refine (List.filter_cons_of_neg (by simp)).trans (List.filter_eq_self.mpr fun y hy => ?_)
    rw [bne_iff_ne, ne_eq, Option.some.injEq]
    rintro rfl
    exact hx hy

/-- **What an operation keeps** that enlists no solver twice. -/
theorem Tracked.apply (h : m.Tracked) {op : Op} (hadmits : m.Admits op) :
    (m.apply op).Tracked := by
  obtain ⟨hslots, hlive⟩ := live_apply h.slots op
  have hnodup : (m.live ++ op.joins).Nodup := by
    refine List.nodup_append.mpr ⟨h.nodup, ?_, fun x hx y hy hxy => ?_⟩
    · cases op <;> simp [Op.joins]
    · subst hxy
      exact hadmits x hy ((mem_live h.slots).mp hx)
  have hafter := hlive.nodup_iff.mp hnodup
  refine ⟨hslots, ?_, (List.nodup_append.mp hafter).2.1⟩
  rw [registered_apply]
  exact perm_filter ((h.registered.append_right _).trans hlive) hafter

/-! ## Operations one after another -/

theorem settled_foldl (h : m.Settled) (ops : List Op) : (ops.foldl apply m).Settled := by
  induction ops generalizing m with
  | nil => exact h
  | cons op ops ih => exact ih (h.apply op)

theorem tracked_foldl (h : m.Tracked) {ops : List Op} (hops : m.Orderly ops) :
    (ops.foldl apply m).Tracked := by
  induction ops generalizing m with
  | nil => exact h
  | cons op ops ih => exact ih (h.apply hops.1) hops.2

theorem cancelled_foldl (h : m.cohort.cancelled = true) (ops : List Op) :
    (ops.foldl apply m).cohort.cancelled = true := by
  induction ops generalizing m with
  | nil => exact h
  | cons op ops ih => exact ih ((m.cancelled_apply op).mpr (.inl h))

theorem settled_new (workers : Nat) : ({ cohort := { workers } } : Muster).Settled where
  increasing := .nil
  killed := by simp
  counted _ := rfl

theorem tracked_new (workers : Nat) : ({ cohort := { workers } } : Muster).Tracked where
  slots := .nil
  registered := .refl []
  nodup := .nil

/-- **The registry law.** Whatever is done with a new cohort, in any order, as long as no solver is
enlisted while an enlistment of it is alive: exactly the solvers with such an enlistment are
registered, each of them once. Once the cohort is cancelled it stays so, and every registered solver
is killed. An operation kills the solvers that are registered while it cancels the cohort, the one
that it enlists in a cancelled cohort and the one that it kills from outside, and no others. Every
solver has one switch, and its process was ended once if it was killed, and never otherwise. -/
theorem registry_law {workers : Nat} {ops : List Op}
    (h : Orderly { cohort := { workers } } ops) :
    (∀ x, x ∈ (after workers ops).cohort.registered ↔ (after workers ops).Live x) ∧
    (after workers ops).cohort.registered.Nodup ∧
    ((after workers ops).cohort.cancelled = true →
      (∀ x ∈ (after workers ops).cohort.registered, ((after workers ops).switch x).killed = true) ∧
      ∀ later, (after workers (ops ++ later)).cohort.cancelled = true) ∧
    (∀ op x, ((after workers ops).apply op).switch x =
      if op.Kills (after workers ops) x then ((after workers ops).switch x).kill
      else (after workers ops).switch x) ∧
    ((after workers ops).switches.map (·.1)).Nodup ∧
    ∀ x, ((after workers ops).switch x).terminations =
      ((after workers ops).switch x).killed.toNat := by
  have hsettled : (after workers ops).Settled := settled_foldl (settled_new workers) ops
  have htracked : (after workers ops).Tracked := tracked_foldl (tracked_new workers) h
  refine ⟨fun x => ?_, ?_, fun hcancelled => ⟨hsettled.killed hcancelled, fun later => ?_⟩,
    fun op x => switch_apply hsettled op x, ?_, hsettled.counted⟩
  · rw [htracked.registered.mem_iff, mem_live htracked.slots]
  · exact htracked.registered.nodup_iff.mpr htracked.nodup
  · rw [after, List.foldl_append]
    exact cancelled_foldl hcancelled later
  · refine hsettled.increasing.imp fun {a b} hlt heq => ?_
    exact String.lt_irrefl b (heq ▸ hlt)

/-- A solver is killed before it is enlisted. Two more are enlisted, one enlistment is moved and the
other given up; then the race is decided, and a fourth solver joins too late. -/
def relieved : List Op :=
  [.kill "zero", .enlist "zero" "front", .enlist "one" "left", .enlist "two" "right",
    .move "left" "middle", .withdraw "right", .finish "BMC" (some .reachable),
    .enlist "three" "right"]

/-- The solver that was killed first is not ended once more, the one whose enlistment was moved is
still registered and killed, the one that was withdrawn is spared, and the one that came late is
killed. -/
theorem relieved_registry :
    Orderly { cohort := { workers := 2 } } relieved ∧
    (∀ x, x ∈ (after 2 relieved).cohort.registered ↔ (after 2 relieved).Live x) ∧
    ((after 2 (relieved.take 2)).switch "zero").terminations = 1 ∧
    ((after 2 relieved).switch "zero").terminations = 1 ∧
    ((after 2 relieved).switch "one").terminations = 1 ∧
    ((after 2 relieved).switch "two").terminations = 0 ∧
    ((after 2 relieved).switch "three").terminations = 1 := by
  have horderly : Orderly { cohort := { workers := 2 } } relieved := by decide
  have hfirst : Orderly { cohort := { workers := 2 } } (relieved.take 2) := by decide
  obtain ⟨-, -, -, -, -, hcountedFirst⟩ := registry_law hfirst
  obtain ⟨hlive, -, -, -, -, hcounted⟩ := registry_law horderly
  refine ⟨horderly, hlive, ?_, ?_, ?_, ?_, ?_⟩
  · exact (hcountedFirst "zero").trans (by decide)
  · exact (hcounted "zero").trans (by decide)
  · exact (hcounted "one").trans (by decide)
  · exact (hcounted "two").trans (by decide)
  · exact (hcounted "three").trans (by decide)

end Muster

end PetriReach
