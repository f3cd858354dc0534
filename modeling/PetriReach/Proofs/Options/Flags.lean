import Mathlib.Tactic.Common
import PetriReach.Options
import PetriReach.Proofs.Net.WellFormed

/-!
# Flags on the command line

A command line is read from left to right: a word that begins an option, with the words behind it,
then what the option leaves. A flag is raised if and only if such a word asks for it; what stands
among the values of another option asks for nothing.

* `Options.Reaches`: the words at which options begin.
* `Options.Flag.Given`: a command line asks for a flag.
* `Options.Flag.raised_iff_given`: the flags of the options that were read.
-/

namespace PetriReach.Options

/-- The reading of words comes to an option that begins with `w`, with `rest` behind it. -/
inductive Reaches : List String → String → List String → Prop
  | here (w : String) (rest : List String) : Reaches (w :: rest) w rest
  | next {v w : String} {rest left behind : List String} {item : Item}
    (h : readItem v rest = .ok (item, left)) (hrest : Reaches left w behind) :
    Reaches (v :: rest) w behind

/-- What a command line turns on. -/
inductive Flag where
  | selftest | help | version | showTime | dummy
  deriving DecidableEq, Repr

namespace Flag

/-- The flag is up in the options. -/
def raised (k : Flag) (o : Options) : Bool :=
  match k with
  | selftest => o.selftest
  | help => o.help
  | version => o.version
  | showTime => o.showTime
  | dummy => o.dummy

/-- A word at the beginning of an option asks for the flag. The dummy is one of the methods. -/
def Asked (k : Flag) (w : String) (rest : List String) : Prop :=
  match k with
  | selftest => w = "--selftest"
  | help => w = "--help" ∨ w = "-h"
  | version => w = "--version"
  | showTime => w = "--show-time"
  | dummy => w = "--methods" ∧ "DUMMY" ∈ rest.takeWhile fun v => v.toList.head? ≠ some '-'

/-- A command line asks for the flag. -/
def Given (k : Flag) (words : List String) : Prop :=
  ∃ w rest, Reaches (words.map Text.beforeNul) w rest ∧ k.Asked w rest

end Flag

/-- The flag that an item raises. -/
def Item.flag? : Item → Option Flag
  | .selftest => some .selftest
  | .help => some .help
  | .version => some .version
  | .showTime => some .showTime
  | .methods _ true => some .dummy
  | _ => none

/-! ## One option -/

variable {o o' : Options} {w v : String} {rest left : List String} {item : Item} {k : Flag}

theorem raised_apply (h : o.apply item = .ok o') :
    k.raised o' = true ↔ k.raised o = true ∨ item.flag? = some k := by
  cases item with
  | methods ms dummy =>
    unfold apply at h
    dsimp only at h
    split at h
    · cases h
    · cases h
      cases dummy <;> cases k <;> simp [Flag.raised, Item.flag?]
  | _ =>
    cases h
    cases k <;> simp [Flag.raised, Item.flag?]

theorem dummy_of_readMethods {names : List String} {ms : List Method} {dummy : Bool}
    (h : readMethods names = .ok (ms, dummy)) : dummy = true ↔ "DUMMY" ∈ names := by
  induction names generalizing ms dummy with
  | nil =>
    cases h
    simp
  | cons name names ih =>
    unfold readMethods at h
    split at h
    · next hname =>
      obtain ⟨_, -, h⟩ := exists_of_map_ok h
      cases h
      simp [hname]
    · next hname =>
      split at h
      · cases h
      · obtain ⟨⟨ms', dummy'⟩, hrest, h⟩ := exists_of_map_ok h
        cases h
        rw [ih hrest, List.mem_cons]
        exact (or_iff_right (Ne.symm hname)).symm

theorem withValue_ok {read : String → Except UsageError Item}
    (h : withValue w rest read = .ok (item, left)) : ∃ v, rest = v :: left ∧ read v = .ok item := by
  cases rest with
  | nil => cases h
  | cons v rest =>
    obtain ⟨item', hread, h⟩ := exists_of_map_ok h
    cases h
    exact ⟨v, rfl, hread⟩

theorem exists_of_readTimeout (h : readTimeout v = .ok item) : ∃ n, item = .timeout n := by
  unfold readTimeout at h
  split at h
  · cases h
  · split at h
    · cases h
    · cases h
      exact ⟨_, rfl⟩

theorem exists_of_readEncoding (h : readEncoding v = .ok item) : ∃ e, item = .encoding e := by
  unfold readEncoding at h
  split at h
  · cases h
    exact ⟨_, rfl⟩
  · cases h

theorem exists_of_readSolver (h : readSolver v = .ok item) : ∃ kind, item = .solver kind := by
  unfold readSolver at h
  split at h
  · cases h
    exact ⟨_, rfl⟩
  · cases h
    exact ⟨_, rfl⟩
  · cases h

theorem exists_of_readCommand (h : readCommand v = .ok item) : ∃ ws, item = .command ws := by
  unfold readCommand at h
  split at h
  · cases h
  · cases h
    exact ⟨_, rfl⟩

/-- **What an option leaves, and the flag that it raises.** -/
theorem readItem_ok (h : readItem w rest = .ok (item, left)) :
    left.length ≤ rest.length ∧ (item.flag? = some k ↔ k.Asked w rest) := by
  -- an option with a value raises no flag
  have hvalue : ∀ {read : String → Except UsageError Item},
      withValue w rest read = .ok (item, left) → (∀ v, read v = .ok item → item.flag? = none) →
      ¬ k.Asked w rest → left.length ≤ rest.length ∧ (item.flag? = some k ↔ k.Asked w rest) := by
    intro read hread hflag hother
    obtain ⟨v, rfl, hv⟩ := withValue_ok hread
    exact ⟨Nat.le_succ _, by simp [hflag v hv, hother]⟩
  unfold readItem at h
  split at h
  case h_1 | h_2 | h_3 | h_4 | h_16 | h_17 | h_18 | h_19 =>
    cases h
    exact ⟨Nat.le_refl _, by cases k <;> simp [Item.flag?, Flag.Asked]⟩
  case h_5 | h_6 | h_7 | h_8 | h_9 | h_10 =>
    refine hvalue h (fun v hv => ?_) (by cases k <;> simp [Flag.Asked])
    cases hv
    rfl
  case h_11 =>
    obtain ⟨⟨ms, dummy⟩, hmethods, h⟩ := exists_of_map_ok h
    have hdummy := dummy_of_readMethods hmethods
    cases h
    refine ⟨by simp, ?_⟩
    cases dummy <;> cases k <;> simp_all [Item.flag?, Flag.Asked]
  case h_12 =>
    refine hvalue h (fun v hv => ?_) (by cases k <;> simp [Flag.Asked])
    obtain ⟨n, rfl⟩ := exists_of_readTimeout hv
    rfl
  case h_13 =>
    refine hvalue h (fun v hv => ?_) (by cases k <;> simp [Flag.Asked])
    obtain ⟨e, rfl⟩ := exists_of_readEncoding hv
    rfl
  case h_14 =>
    refine hvalue h (fun v hv => ?_) (by cases k <;> simp [Flag.Asked])
    obtain ⟨kind, rfl⟩ := exists_of_readSolver hv
    rfl
  case h_15 =>
    refine hvalue h (fun v hv => ?_) (by cases k <;> simp [Flag.Asked])
    obtain ⟨ws, rfl⟩ := exists_of_readCommand hv
    rfl
  case h_20 => cases h

/-! ## All options -/

theorem asked_nil : ¬ ∃ w rest, Reaches [] w rest ∧ k.Asked w rest := by
  rintro ⟨w, rest, hreaches, -⟩
  cases hreaches

/-- Behind an option, the reading goes on with what it leaves. -/
theorem asked_cons (h : readItem w rest = .ok (item, left)) :
    (∃ v behind, Reaches (w :: rest) v behind ∧ k.Asked v behind) ↔
      k.Asked w rest ∨ ∃ v behind, Reaches left v behind ∧ k.Asked v behind := by
  constructor
  · rintro ⟨v, behind, hreaches, hasked⟩
    cases hreaches with
    | here => exact .inl hasked
    | next hitem hrest =>
      rw [h] at hitem
      cases hitem
      exact .inr ⟨v, behind, hrest, hasked⟩
  · rintro (hasked | ⟨v, behind, hreaches, hasked⟩)
    · exact ⟨w, rest, .here w rest, hasked⟩
    · exact ⟨v, behind, .next h hreaches, hasked⟩

/-- **The flags after all words.** -/
theorem raised_readFrom {n : Nat} {words : List String} (h : readFrom n o words = .ok o')
    (hn : words.length ≤ n) : k.raised o' = true ↔
      k.raised o = true ∨ ∃ w rest, Reaches words w rest ∧ k.Asked w rest := by
  induction n generalizing o words with
  | zero =>
    obtain rfl := List.length_eq_zero_iff.mp (Nat.le_zero.mp hn)
    cases h
    exact (or_iff_left asked_nil).symm
  | succ n ih =>
    cases words with
    | nil =>
      cases h
      exact (or_iff_left asked_nil).symm
    | cons w rest =>
      obtain ⟨⟨item, left⟩, hitem, h⟩ := exists_of_bind_ok h
      obtain ⟨o₁, happly, h⟩ := exists_of_bind_ok h
      obtain ⟨hlength, hflag⟩ := readItem_ok (k := k) hitem
      rw [List.length_cons] at hn
      rw [ih h (by omega), raised_apply happly, hflag, asked_cons hitem, or_assoc]

theorem validate_ok (h : o.validate = .ok o') : o = o' := by
  unfold validate at h
  split at h
  · exact Except.ok.inj h
  · split at h
    · cases h
    · split at h
      · cases h
      · exact Except.ok.inj h

/-- **A flag is up if and only if the command line asks for it.** -/
theorem Flag.raised_iff_given {words : List String} (h : parse words = .ok o) (k : Flag) :
    k.raised o = true ↔ k.Given words := by
  obtain ⟨o₁, hread, hvalid⟩ := exists_of_bind_ok h
  obtain rfl := validate_ok hvalid
  rw [raised_readFrom hread (Nat.le_refl _)]
  exact or_iff_right (by cases k <;> decide)

/-- A value is not taken for an option. -/
example : (parse ["-n", "a.net", "-f", "--help", "--methods", "BMC", "DUMMY"]).toOption.map
    (fun o => (o.help, o.dummy)) = some (false, true) := by
  decide

end PetriReach.Options
