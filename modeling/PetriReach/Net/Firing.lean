import PetriReach.Net.Basic

/-!
# Firing

Markings of a net, the firing rule, and the markings that firings lead to. A path is a sequence of
firings; a marking is reachable if a path leads to it from the marking at the beginning.

* `Net.Path.append`: paths can be joined.
* `Net.Reachable.step`: reachability is closed under firing.
-/

namespace PetriReach

/-- The number of tokens in each place. -/
abbrev Marking := String → Nat

namespace Transition

/-- Every input place holds the tokens that a firing takes. -/
def Enabled (t : Transition) (m : Marking) : Prop :=
  ∀ p, t.pre.weight p ≤ m p

/-- The marking after a firing. -/
def fire (t : Transition) (m : Marking) : Marking :=
  fun p => m p - t.pre.weight p + t.post.weight p

/-- An enabled firing adds `delta` to every place. -/
theorem fire_eq_add_delta {t : Transition} {m : Marking} (h : t.Enabled m) (p : String) :
    (t.fire m p : Int) = m p + t.delta p := by
  have hp := h p
  simp only [fire, delta]
  omega

end Transition

namespace Net

/-- The marking at the beginning. -/
def initial (n : Net) : Marking :=
  fun p => ((n.places.find? (·.id = p)).map (·.tokens.toNat)).getD 0

/-- One transition of the net fires. -/
def Step (n : Net) (m m' : Marking) : Prop :=
  ∃ t ∈ n.transitions, t.Enabled m ∧ m' = t.fire m

/-- The transitions `ts` fire one after another. -/
inductive Path (n : Net) : Marking → List Transition → Marking → Prop where
  | nil (m : Marking) : Path n m [] m
  | cons {m m' : Marking} {t : Transition} {ts : List Transition} :
      t ∈ n.transitions → t.Enabled m → Path n (t.fire m) ts m' → Path n m (t :: ts) m'

/-- Some path leads to the marking. -/
def Reachable (n : Net) (m : Marking) : Prop :=
  ∃ ts, n.Path n.initial ts m

variable {n : Net} {m m' m'' : Marking}

theorem Path.append {ts us : List Transition} (h : n.Path m ts m') (h' : n.Path m' us m'') :
    n.Path m (ts ++ us) m'' := by
  induction h with
  | nil => exact h'
  | cons ht he _ ih => exact .cons ht he (ih h')

theorem reachable_initial : n.Reachable n.initial :=
  ⟨[], .nil _⟩

theorem Reachable.step (h : n.Reachable m) (hs : n.Step m m') : n.Reachable m' := by
  obtain ⟨ts, hp⟩ := h
  obtain ⟨t, ht, he, rfl⟩ := hs
  exact ⟨ts ++ [t], hp.append (.cons ht he (.nil _))⟩

end Net

end PetriReach
