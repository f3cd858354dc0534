import Mathlib.Tactic.Common
import PetriReach.Formula.Basic
import PetriReach.Proofs.Net.Tokens

/-!
# Comparisons in formulas

What holds of every comparison in a formula.

* `Formula.Atoms`: every comparison satisfies a property.
* `Formula.mem_places`: the places of a formula are the names it mentions.
* `Formula.atoms_mentions`: what holds of the names holds on either side of every comparison.
-/

namespace PetriReach

/-- No factor and no constant is negative. -/
def TokenSum.NonNeg (s : TokenSum) : Prop :=
  0 ≤ s.constant ∧ ∀ m ∈ s.terms, 0 ≤ m.factor

namespace Formula

section Atoms

variable (P : TokenSum → Comparison → TokenSum → Prop)

mutual

/-- Every comparison in the formula satisfies `P`. -/
def Atoms : Formula → Prop
  | .tt => True
  | .ff => True
  | .not f => f.Atoms
  | .junction _ fs => AllAtoms fs
  | .atom l op r => P l op r

/-- Every comparison in the formulas satisfies `P`. -/
def AllAtoms : List Formula → Prop
  | [] => True
  | f :: fs => f.Atoms ∧ AllAtoms fs

end

variable {P} {Q : TokenSum → Comparison → TokenSum → Prop}

theorem allAtoms_iff {fs : List Formula} : AllAtoms P fs ↔ ∀ f ∈ fs, f.Atoms P := by
  induction fs with
  | nil => simp [AllAtoms]
  | cons f fs ih => simp [AllAtoms, ih]

mutual

theorem Atoms.mono (h : ∀ l op r, P l op r → Q l op r) : ∀ {f : Formula}, f.Atoms P → f.Atoms Q
  | .tt, _ => trivial
  | .ff, _ => trivial
  | .not f, hf => Atoms.mono (f := f) h hf
  | .junction _ fs, hf => AllAtoms.mono h (show AllAtoms P fs from hf)
  | .atom l op r, hf => h l op r hf

theorem AllAtoms.mono (h : ∀ l op r, P l op r → Q l op r) :
    ∀ {fs : List Formula}, AllAtoms P fs → AllAtoms Q fs
  | [], _ => trivial
  | _ :: _, hfs => ⟨Atoms.mono h hfs.1, AllAtoms.mono h hfs.2⟩

end

mutual

theorem Atoms.and : ∀ {f : Formula}, f.Atoms P → f.Atoms Q →
    f.Atoms fun l op r => P l op r ∧ Q l op r
  | .tt, _, _ => trivial
  | .ff, _, _ => trivial
  | .not f, hp, hq => Atoms.and (f := f) hp hq
  | .junction _ fs, hp, hq =>
    AllAtoms.and (show AllAtoms P fs from hp) (show AllAtoms Q fs from hq)
  | .atom _ _ _, hp, hq => ⟨hp, hq⟩

theorem AllAtoms.and : ∀ {fs : List Formula}, AllAtoms P fs → AllAtoms Q fs →
    AllAtoms (fun l op r => P l op r ∧ Q l op r) fs
  | [], _, _ => trivial
  | _ :: _, hp, hq => ⟨Atoms.and hp.1 hq.1, AllAtoms.and hp.2 hq.2⟩

end

end Atoms

/-- No number in the formula is negative. -/
def NonNeg (f : Formula) : Prop :=
  f.Atoms fun l _ r => l.NonNeg ∧ r.NonNeg

end Formula

/-! ## Places -/

theorem Names.mem_insert {a b : String} {bs : List String} :
    b ∈ insert a bs ↔ b = a ∨ b ∈ bs := by
  induction bs with
  | nil => simp [insert]
  | cons c bs ih =>
    unfold insert
    split
    · simp
    · split
      · next hac =>
        subst hac
        simp
      · simp [ih, or_left_comm]

theorem Names.mem_ofList {a : String} {as : List String} : a ∈ ofList as ↔ a ∈ as := by
  induction as with
  | nil => simp [ofList]
  | cons b as ih =>
    rw [ofList, List.foldr_cons, mem_insert, ← ofList, ih, List.mem_cons]

/-- The places of a formula are the names it mentions. -/
theorem Formula.mem_places {f : Formula} {p : String} : p ∈ f.places ↔ p ∈ f.mentions :=
  Names.mem_ofList

mutual

/-- Each side of a comparison mentions names that the formula mentions. -/
theorem Formula.atoms_mentions {K : String → Prop} : ∀ {f : Formula}, (∀ p ∈ f.mentions, K p) →
    f.Atoms fun l _ r => (∀ p ∈ l.mentions, K p) ∧ ∀ p ∈ r.mentions, K p
  | .tt, _ => trivial
  | .ff, _ => trivial
  | .not f, h => Formula.atoms_mentions (f := f) h
  | .junction _ fs, h => Formula.allAtoms_mentions (show ∀ p ∈ allMentions fs, K p from h)
  | .atom _ _ _, h => List.forall_mem_append.mp h

theorem Formula.allAtoms_mentions {K : String → Prop} :
    ∀ {fs : List Formula}, (∀ p ∈ allMentions fs, K p) →
      AllAtoms (fun l _ r => (∀ p ∈ l.mentions, K p) ∧ ∀ p ∈ r.mentions, K p) fs
  | [], _ => trivial
  | _ :: _, h =>
    have h := List.forall_mem_append.mp h
    ⟨Formula.atoms_mentions h.1, Formula.allAtoms_mentions h.2⟩

end

end PetriReach
