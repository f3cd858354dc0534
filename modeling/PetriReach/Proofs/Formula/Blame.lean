import PetriReach.Proofs.Formula.Viable

/-!
# The token that is blamed

A syntax error is reported at the first token that cannot continue a sentence. The reader decides at
a parenthesis, by looking ahead, whether it opens a sum or a formula; the outlook leaves this open.
Both stop at the same token.

* `Follows`: what a reader does, told by the outlook.
* `follows_termDue`, `follows_readAtom`, `follows_readOperand`: the readers follow the outlook.
-/

namespace PetriReach

/-- The cause is a number beyond the limit. -/
def SyntaxError.Cause.ofRange : SyntaxError.Cause → Bool
  | integerRange _ => true
  | constantRange => true
  | _ => false

/-- The column of the next token. -/
def columnAhead : List Token → Nat
  | [] => 1
  | t :: _ => t.column

/-- The side as the outlook sees it: on the left, `c` more parentheses that the reader took for
those of sums are undecided. -/
def Side.inner : Side → Nat → Side
  | .left f u, c => .left f (u + c)
  | .right g, _ => .right g

@[simp] theorem Side.inner_zero (σ : Side) : σ.inner 0 = σ := by
  cases σ <;> rfl

namespace Grammar

open Outlook
open Formula (errorAt missing leads addLiteral termDue starDue termDone readSum readRelation
  readAtom closesSum readLinks readChain readOperand)

/-! ## Following the outlook -/

/-- What a reader does with tokens, told by the outlook: what it takes off passes from `q` to `q'`,
and an error stands where the tokens stop, unless it is about the size of a number. -/
def Follows {α : Type} (q q' : Outlook) (R : List Token → Prop) (ts : List Token) :
    Except SyntaxError (α × List Token) → Prop
  | .ok (_, rest) => q.stop ts = q'.stop rest ∧ rest.length ≤ ts.length ∧ R rest
  | .error e => e.cause.ofRange = true ∨ ∃ rest, q.stop ts = some rest ∧ e.column = columnAhead rest

section Follows

variable {α β : Type} {o q q' q'' : Outlook} {R R' : List Token → Prop} {t : Token}
  {ts us : List Token} {r : Except SyntaxError (α × List Token)}

theorem Follows.of_stop_eq (h : Follows o q' R us r) (hstop : q.stop ts = o.stop us)
    (hlen : us.length ≤ ts.length) : Follows q q' R ts r := by
  cases r with
  | error e =>
    rcases h with h | ⟨rest, hrest, hcol⟩
    · exact .inl h
    · exact .inr ⟨rest, hstop.trans hrest, hcol⟩
  | ok x => exact ⟨hstop.trans h.1, h.2.1.trans hlen, h.2.2⟩

/-- A token that may come next is taken off first. -/
theorem Follows.token (h : Follows o q' R ts r) (hq : q.next t.kind = some o) :
    Follows q q' R (t :: ts) r :=
  h.of_stop_eq (stop_cons hq) (by simp)

theorem Follows.bind {g : α × List Token → Except SyntaxError (β × List Token)}
    (h : Follows q q' R ts r)
    (hg : ∀ x rest, rest.length ≤ ts.length → R rest → Follows q' q'' R' rest (g (x, rest))) :
    Follows q q'' R' ts (r >>= g) := by
  cases r with
  | error e => exact h
  | ok x => exact (hg x.1 x.2 h.2.1 h.2.2).of_stop_eq h.1 h.2.1

/-- An error at a token that may not come next. -/
theorem follows_errorAt {ending : SyntaxError.Cause} {other : Token → SyntaxError.Cause}
    (hq : q ≠ .ended) (hnext : q.next (ahead ts) = none) :
    Follows q q' R ts (errorAt (α := α) ts ending other) := by
  cases ts with
  | nil => exact .inr ⟨[], if_neg hq, rfl⟩
  | cons t ts => exact .inr ⟨t :: ts, stop_cons_of_none hnext, rfl⟩

theorem follows_missing {cause : Found → SyntaxError.Cause} (hq : q ≠ .ended)
    (hnext : q.next (ahead ts) = none) : Follows q q' R ts (missing (α := α) cause ts) :=
  follows_errorAt hq hnext

end Follows

/-! ## The look-ahead -/

section LookAhead

variable {t : Token} {ts : List Token} {d : Nat}

theorem closesSum_lparen (ht : t.kind = .lparen) :
    closesSum d (t :: ts) = closesSum (d + 1) ts := by
  rw [closesSum, ht]

theorem closesSum_rparen (ht : t.kind = .rparen) :
    closesSum (d + 1) (t :: ts) = (decide (d = 0) || closesSum d ts) := by
  rw [closesSum, ht]
  simp

theorem closesSum_inside (ht : t.kind = .identifier ∨ t.kind = .integer ∨ t.kind = .plus ∨
    t.kind = .star) : closesSum d (t :: ts) = closesSum d ts := by
  rcases ht with ht | ht | ht | ht <;> rw [closesSum, ht]

/-- What the look-ahead passes over. -/
theorem kind_of_closesSum (h : closesSum d (t :: ts) = true) :
    t.kind = .lparen ∨ t.kind = .rparen ∨ t.kind = .identifier ∨ t.kind = .integer ∨
      t.kind = .plus ∨ t.kind = .star := by
  rw [closesSum] at h
  split at h <;> simp_all

end LookAhead

/-- What the reader found by looking ahead: the `c` parentheses at the head of the left side close
before a token that no sum holds, and the last of the `u` before it does not. -/
def Tracks : Side → Nat → Nat → List Token → Prop
  | .left _ u, c, s, ts =>
    (0 < c → closesSum (c + s) ts = true) ∧ (0 < u → closesSum (c + s + 1) ts = false)
  | .right _, c, _, _ => c = 0

/-- An outlook at which a term is due. At the head of an operand the reader has made sure that a sum
begins. -/
inductive Awaits : Side → Nat → Nat → Outlook → List Token → Prop
  | term {σ : Side} {c s : Nat} {ts : List Token} : Awaits σ c s (.term (σ.inner c) s) ts
  | operand {f u c : Nat} {ts : List Token} (h : 0 < c ∨ ahead ts = .identifier ∨
      ahead ts = .integer ∨ ahead ts = .lparen ∧ closesSum 0 ts = true) :
    Awaits (.left f u) c 0 (.operand f (u + c)) ts

section Sums

variable {q : Outlook} {σ : Side} {c s : Nat} {t : Token} {ts : List Token}

/-- Tokens that the look-ahead passes over make no difference to it. -/
theorem Tracks.tail (h : Tracks σ c s (t :: ts)) (ht : t.kind = .identifier ∨ t.kind = .integer ∨
    t.kind = .plus ∨ t.kind = .star) : Tracks σ c s ts := by
  cases σ with
  | left f u => simpa only [Tracks, closesSum_inside ht] using h
  | right g => exact h

theorem Awaits.ne_ended (h : Awaits σ c s q ts) : q ≠ .ended := by
  cases h <;> exact Outlook.noConfusion

theorem Awaits.next_identifier (h : Awaits σ c s q ts) :
    q.next .identifier = some (.behindTerm (σ.inner c) s) := by
  cases h <;> rfl

theorem Awaits.next_integer (h : Awaits σ c s q ts) :
    q.next .integer = some (.factor (σ.inner c) s) := by
  cases h <;> rfl

/-- An opening parenthesis where a term is due opens a sum; at the head of an operand it is one of
those that the outlook leaves undecided. -/
theorem Awaits.next_lparen (h : Awaits σ c s q (t :: ts)) (htrack : Tracks σ c s (t :: ts))
    (ht : t.kind = .lparen) : ∃ c' s' q', c' + s' = c + s + 1 ∧ q.next t.kind = some q' ∧
      Awaits σ c' s' q' ts ∧ Tracks σ c' s' ts := by
  cases h with
  | term =>
    refine ⟨c, s + 1, .term (σ.inner c) (s + 1), rfl, by rw [ht]; rfl, .term, ?_⟩
    cases σ with
    | left f u =>
      simp only [Tracks, closesSum_lparen ht] at htrack
      exact htrack
    | right g => exact htrack
  | @operand f u _ _ h =>
    refine ⟨c + 1, 0, .operand f (u + (c + 1)), rfl, by rw [ht]; rfl, .operand (.inl (by simp)), ?_⟩
    have hcloses : closesSum (c + 1) ts = true := by
      rw [← closesSum_lparen ht]
      rcases h with h | h | h | h
      · exact htrack.1 h
      · cases ht.symm.trans h
      · cases ht.symm.trans h
      · rcases Nat.eq_zero_or_pos c with rfl | hc
        · exact h.2
        · exact htrack.1 hc
    refine ⟨fun _ => hcloses, fun hu => ?_⟩
    rw [← closesSum_lparen ht]
    exact htrack.2 hu

/-- Any other token has no place where a term is due. -/
theorem Awaits.next_eq_none (h : Awaits σ c s q (t :: ts)) (htrack : Tracks σ c s (t :: ts))
    (hl : t.kind ≠ .lparen) (hi : t.kind ≠ .identifier) (hn : t.kind ≠ .integer) :
    q.next t.kind = none := by
  cases h with
  | term =>
    cases hk : t.kind <;> first | rfl | contradiction
  | operand h =>
    rcases h with h | h | h | h
    · have hkind := kind_of_closesSum (htrack.1 h)
      simp only [hl, hi, hn, false_or] at hkind
      rcases hkind with hk | hk | hk <;> rw [hk] <;> rfl
    · exact absurd h hi
    · exact absurd h hn
    · exact absurd h.1 hl

/-- A closing parenthesis behind a term ends the innermost sum. -/
theorem Tracks.next_rparen {d : Nat} (h : Tracks σ c s (t :: ts)) (ht : t.kind = .rparen)
    (hd : c + s = d + 1) : ∃ c' s', c' + s' = d ∧
      (behindTerm (σ.inner c) s).next t.kind = some (.behindTerm (σ.inner c') s') ∧
      Tracks σ c' s' ts := by
  rw [ht]
  cases σ with
  | left f u =>
    have hinner : 0 < d → 0 < c → closesSum d ts = true := by
      intro hpos hc
      have hcloses := h.1 hc
      rw [hd, closesSum_rparen ht] at hcloses
      simpa [Nat.ne_of_gt hpos] using hcloses
    have houter : 0 < u → closesSum (d + 1) ts = false := by
      intro hu
      have hcloses := h.2 hu
      rw [hd, closesSum_rparen ht] at hcloses
      simpa using hcloses
    cases s with
    | succ s =>
      refine ⟨c, s, by omega, rfl, ?_, ?_⟩
      · intro hc
        rw [show c + s = d by omega]
        exact hinner (by omega) hc
      · rw [show c + s = d by omega]
        exact houter
    | zero =>
      obtain rfl : c = d + 1 := hd
      exact ⟨d, 0, rfl, rfl, fun hpos => hinner hpos (by omega), houter⟩
  | right g =>
    obtain rfl : c = 0 := h
    obtain rfl : s = d + 1 := by omega
    exact ⟨0, d, by omega, rfl, rfl⟩

/-- Inside parentheses, any other token than a plus has no place behind a term. -/
theorem Tracks.next_eq_none (h : Tracks σ c s (t :: ts)) (hd : c + s ≠ 0) (hp : t.kind ≠ .plus)
    (hr : t.kind ≠ .rparen) : (behindTerm (σ.inner c) s).next t.kind = none := by
  cases s with
  | succ s =>
    show Outlook.behind (σ.inner c) (s + 1) t.kind = none
    unfold Outlook.behind
    split <;> simp_all
  | zero =>
    cases σ with
    | left f u =>
      have hkind := kind_of_closesSum (h.1 (by omega))
      simp only [hp, hr, false_or] at hkind
      rcases hkind with hk | hk | hk | hk <;> rw [hk] <;> rfl
    | right g => exact absurd h hd

/-- What follows a sum that was read. -/
def EndsSide (σ : Side) (ts : List Token) : Prop :=
  ahead ts ≠ .plus ∧ Tracks σ 0 0 ts

mutual

/-- **The reader of sums follows the outlook where a term is due.** -/
theorem follows_termDue : ∀ (ts : List Token) {σ : Side} {c s : Nat} {q : Outlook} (a : TokenSum),
    Awaits σ c s q ts → Tracks σ c s ts →
      Follows q (.behindTerm σ 0) (EndsSide σ) ts (termDue (c + s) a ts)
  | [], σ, c, s, q, a, hq, _ => .inr ⟨[], if_neg hq.ne_ended, rfl⟩
  | t :: ts, σ, c, s, q, a, hq, htrack => by
    rw [termDue]
    split
    · next ht =>
      obtain ⟨c', s', q', hdepth, hnext, hq', htrack'⟩ := hq.next_lparen htrack ht
      rw [← hdepth]
      exact (follows_termDue ts a hq' htrack').token hnext
    · next ht =>
      have hnext := hq.next_identifier
      rw [← ht] at hnext
      exact (follows_termDone ts _ (htrack.tail (.inl ht))).token hnext
    · next ht =>
      have hnext := hq.next_integer
      rw [← ht] at hnext
      refine Follows.token ?_ hnext
      split
      · exact .inl rfl
      · next n _ =>
        split
        · next hstar => exact follows_starDue ts a n hstar (htrack.tail (.inr (.inl ht)))
        · next hstar =>
          split
          · next e he =>
            rw [addLiteral] at he
            split at he
            · cases he
            · cases he
              exact .inl rfl
          · next b _ =>
            have hrest : ahead ts ≠ .star := ahead_ne_star (by simpa using hstar)
            exact (follows_termDone ts b (htrack.tail (.inr (.inl ht)))).of_stop_eq
              (stop_factor hrest) (Nat.le_refl _)
    · next ht =>
      refine .inr ⟨t :: ts, stop_cons_of_none ?_, rfl⟩
      apply hq.next_eq_none htrack <;> rw [ht] <;> decide
    · next hl hi hn _ =>
      exact .inr ⟨t :: ts, stop_cons_of_none (hq.next_eq_none htrack hl hi hn), rfl⟩
termination_by ts => ts.length

theorem follows_starDue : ∀ (ts : List Token) {σ : Side} {c s : Nat} (a : TokenSum) (n : Nat),
    leads .star ts = true → Tracks σ c s ts →
      Follows (.factor (σ.inner c) s) (.behindTerm σ 0) (EndsSide σ) ts (starDue (c + s) a n ts)
  | [], _, _, _, _, _, hstar, _ => by cases hstar
  | star :: ts, σ, c, s, a, n, hstar, htrack => by
    have hkind : star.kind = .star := by simpa [leads] using hstar
    have htrack' := htrack.tail (.inr (.inr (.inr hkind)))
    refine Follows.token (o := .place (σ.inner c) s) ?_ (by rw [hkind]; rfl)
    cases ts with
    | nil => exact follows_missing Outlook.noConfusion rfl
    | cons p ts =>
      rw [starDue]
      split
      · next hp =>
        exact (follows_termDone ts _ (htrack'.tail (.inl hp))).token (by rw [hp]; rfl)
      · next hp =>
        refine follows_missing Outlook.noConfusion ?_
        show (place (σ.inner c) s).next p.kind = none
        cases hk : p.kind <;> first | rfl | contradiction
termination_by ts => ts.length

/-- **The reader of sums follows the outlook behind a term.** -/
theorem follows_termDone : ∀ (ts : List Token) {σ : Side} {c s : Nat} (a : TokenSum),
    Tracks σ c s ts →
      Follows (.behindTerm (σ.inner c) s) (.behindTerm σ 0) (EndsSide σ) ts (termDone (c + s) a ts)
  | [], σ, c, s, a, htrack => by
    rw [termDone]
    split
    · next hdepth =>
      obtain ⟨rfl, rfl⟩ : c = 0 ∧ s = 0 := by omega
      rw [σ.inner_zero]
      exact ⟨rfl, Nat.le_refl _, by decide, htrack⟩
    · exact .inr ⟨[], if_neg Outlook.noConfusion, rfl⟩
  | t :: ts, σ, c, s, a, htrack => by
    rw [termDone]
    split
    · next ht =>
      have htrack' := htrack.tail (.inr (.inr (.inl ht)))
      exact (follows_termDue ts a .term htrack').token (by rw [ht]; rfl)
    · next hplus =>
      split
      · next hdepth =>
        obtain ⟨rfl, rfl⟩ : c = 0 ∧ s = 0 := by omega
        rw [σ.inner_zero]
        exact ⟨rfl, Nat.le_refl _, hplus, htrack⟩
      · next hdepth =>
        split
        · next ht =>
          obtain ⟨d, hd⟩ := Nat.exists_eq_succ_of_ne_zero hdepth
          obtain ⟨c', s', hdepth', hnext, htrack'⟩ := htrack.next_rparen ht hd
          rw [hd, Nat.succ_sub_one, ← hdepth']
          exact (follows_termDone ts a htrack').token hnext
        · next ht =>
          exact follows_missing Outlook.noConfusion (htrack.next_eq_none hdepth hplus ht)
termination_by ts => ts.length

end

end Sums

/-! ## Atoms and operands -/

theorem follows_readRelation {f u : Nat} {ts : List Token} (h : EndsSide (.left f u) ts) :
    Follows (.behindTerm (.left f u) 0) (.term (.right (f + u)) 0) (fun _ => True) ts
      (readRelation ts) := by
  cases ts with
  | nil => exact .inr ⟨[], rfl, rfl⟩
  | cons t ts =>
    rw [readRelation]
    split
    · next op hop =>
      refine ⟨stop_cons ?_, by simp, trivial⟩
      rw [kind_of_relation? hop, next_relation]
    · next hop =>
      refine follows_missing Outlook.noConfusion ?_
      show Outlook.behind (.left f u) 0 t.kind = none
      unfold Outlook.behind
      split
      · next ht => exact absurd ht h.1
      · next hs _ => cases hs
      · next u hσ _ ht =>
        -- the parenthesis before the side would close around a sum
        cases hσ
        have hcloses := h.2.2 (by omega)
        rw [closesSum_rparen ht] at hcloses
        cases hcloses
      · rw [hop]
        rfl
      · next hσ _ _ => cases hσ
      · rfl

theorem follows_readAtom {f u : Nat} {ts : List Token} (hts : ahead ts = .identifier ∨
    ahead ts = .integer ∨ ahead ts = .lparen ∧ closesSum 0 ts = true)
    (hu : 0 < u → closesSum 1 ts = false) :
    Follows (.operand f u) (.behindOperand (f + u)) (fun _ => True) ts (readAtom ts) := by
  have hlhs : Tracks (.left f u) 0 0 ts := ⟨fun h => absurd h (by decide), hu⟩
  refine (follows_termDue ts {} (.operand (.inr hts)) hlhs).bind fun lhs ts₁ _ h₁ => ?_
  refine (follows_readRelation h₁).bind fun op ts₂ _ _ => ?_
  refine (follows_termDue ts₂ {} (σ := .right (f + u)) .term rfl).bind fun rhs rest _ h₃ => ?_
  exact ⟨stop_right h₃.1, Nat.le_refl _, trivial⟩

/-- A reader of operands follows the outlook, on up to `n` tokens. -/
def FollowsOperands (n : Nat) (operand : Formula.Reader Formula) : Prop :=
  ∀ ⦃ts : List Token⦄ ⦃f u : Nat⦄, ts.length ≤ n → (0 < u → closesSum 1 ts = false) →
    Follows (.operand f u) (.behindOperand (f + u)) (fun _ => True) ts (operand ts)

/-- No connective comes next. -/
def EndsLinks (ts : List Token) : Prop :=
  Formula.connective? (ahead ts) = none

theorem EndsLinks.leave {g : Nat} {ts : List Token} (h : EndsLinks ts)
    (hr : g ≠ 0 → ahead ts ≠ .rparen) (he : g = 0 → ahead ts ≠ .eof) :
    Outlook.leave g (ahead ts) = none := by
  unfold Outlook.leave
  split <;> simp_all [EndsLinks, Formula.connective?]

theorem follows_readLinks {operand : Formula.Reader Formula} {n m g : Nat}
    (ho : FollowsOperands n operand) {ts : List Token} (hn : ts.length ≤ n) (hm : ts.length ≤ m) :
    Follows (.behindOperand g) (.behindOperand g) EndsLinks ts (readLinks operand m ts) := by
  induction m generalizing ts with
  | zero =>
    obtain rfl : ts = [] := List.eq_nil_of_length_eq_zero (by omega)
    exact ⟨rfl, Nat.le_refl _, rfl⟩
  | succ m ih =>
    unfold readLinks
    split
    · exact ⟨rfl, Nat.le_refl _, rfl⟩
    · next t ts =>
      rw [List.length_cons] at hn hm
      split
      · next hc => exact ⟨rfl, Nat.le_refl _, hc⟩
      · next c hc =>
        have hnext : (behindOperand g).next t.kind = some (.operand g 0) := by
          rw [kind_of_connective? hc, next_connective]
        refine Follows.token ?_ hnext
        refine (ho (by omega) (fun h => absurd h (by decide))).bind fun x ts₁ hlen _ => ?_
        have hlinks := ih (show ts₁.length ≤ n by omega) (show ts₁.length ≤ m by omega)
        refine hlinks.bind fun links rest _ hrest => ?_
        exact ⟨rfl, Nat.le_refl _, hrest⟩

theorem follows_readChain {operand : Formula.Reader Formula} {n : Nat}
    (ho : FollowsOperands n operand) {ts : List Token} {f u : Nat} (hn : ts.length ≤ n)
    (hu : 0 < u → closesSum 1 ts = false) :
    Follows (.operand f u) (.behindOperand (f + u)) EndsLinks ts (readChain operand ts) := by
  refine (ho hn hu).bind fun x ts₁ hlen _ => ?_
  refine (follows_readLinks ho (hlen.trans hn) (Nat.le_refl _)).bind fun links rest _ hrest => ?_
  exact ⟨rfl, Nat.le_refl _, hrest⟩

/-- Behind a formula in parentheses a closing one is due. -/
theorem follows_closing {g : Nat} {ts : List Token} (x : Formula) (h : EndsLinks ts) :
    Follows (.behindOperand (g + 1)) (.behindOperand g) (fun _ => True) ts
      (if leads .rparen ts then .ok (x, ts.tail) else missing .unclosedGroup ts) := by
  split
  · next hr =>
    cases ts with
    | nil => cases hr
    | cons t ts =>
      have ht : t.kind = .rparen := of_decide_eq_true hr
      exact ⟨stop_cons (by rw [ht]; rfl), by simp, trivial⟩
  · next hr =>
    refine follows_missing Outlook.noConfusion (h.leave (fun _ => ?_) (fun h => absurd h (by simp)))
    cases ts with
    | nil => decide
    | cons t ts => exact fun ht => hr (decide_eq_true ht)

/-- **The reader of operands follows the outlook.** A parenthesis that it takes for that of a
formula stays undecided, but no sum closes it. -/
theorem follows_readOperand (n : Nat) : FollowsOperands n (readOperand n) := by
  induction n with
  | zero =>
    intro ts f u hn _
    obtain rfl : ts = [] := List.eq_nil_of_length_eq_zero (by omega)
    exact follows_errorAt Outlook.noConfusion rfl
  | succ n ih =>
    intro ts f u hn hu
    unfold readOperand
    split
    · exact follows_errorAt Outlook.noConfusion rfl
    · next t ts =>
      have hlen : ts.length ≤ n := Nat.le_of_succ_le_succ hn
      split
      · next ht =>
        refine Follows.token (o := .operand (f + u) 0) ?_ (by rw [ht]; rfl)
        refine (ih hlen (fun h => absurd h (by decide))).bind fun x rest _ _ => ?_
        exact ⟨rfl, Nat.le_refl _, trivial⟩
      · next ht => exact ⟨stop_cons (by rw [ht]; rfl), by simp, trivial⟩
      · next ht => exact ⟨stop_cons (by rw [ht]; rfl), by simp, trivial⟩
      · next ht => exact follows_readAtom (.inl ht) hu
      · next ht => exact follows_readAtom (.inr (.inl ht)) hu
      · next ht =>
        split
        · next hcloses =>
          exact follows_readAtom (.inr (.inr ⟨ht, by rwa [closesSum_lparen ht]⟩)) hu
        · next hcloses =>
          refine Follows.token (o := .operand f (u + 1)) ?_ (by rw [ht]; rfl)
          refine (follows_readChain ih hlen fun _ => by simpa using hcloses).bind
            fun x rest _ hrest => ?_
          exact follows_closing x hrest
      · next hm htt hff hi hint hl =>
        refine follows_errorAt Outlook.noConfusion ?_
        show (operand f u).next t.kind = none
        cases hk : t.kind <;> first | rfl | contradiction

/-! ## Whole texts -/

/-- Where the reader of whole texts fails, the tokens stop. -/
theorem stop_of_ofTokens {ts : List Token} {e : SyntaxError} (h : Formula.ofTokens ts = .error e)
    (hrange : e.cause.ofRange = false) :
    ∃ rest, (operand 0 0).stop ts = some rest ∧ e.column = columnAhead rest := by
  have hfollows : Follows (operand 0 0) (behindOperand 0) EndsLinks ts (Formula.readFormula ts) :=
    follows_readChain (follows_readOperand ts.length) (Nat.le_refl _) fun h => absurd h (by decide)
  unfold Formula.ofTokens at h
  cases hread : Formula.readFormula ts with
  | error e' =>
    rw [hread] at h hfollows
    cases h
    rcases hfollows with hfollows | hfollows
    · rw [hrange] at hfollows
      cases hfollows
    · exact hfollows
  | ok x =>
    obtain ⟨f, rest⟩ := x
    rw [hread] at h hfollows
    obtain ⟨hstop, -, hends⟩ := hfollows
    rw [hstop]
    cases rest with
    | nil => cases h
    | cons t rest =>
      have hcolumn : e.column = t.column ∧ t.kind ≠ .eof := by
        simp only [bind, Except.bind] at h
        split at h
        · cases h
        · next ht =>
          cases h
          exact ⟨rfl, by rw [ht]; decide⟩
        · next ht _ =>
          cases h
          exact ⟨rfl, ht⟩
      have hnext : (behindOperand 0).next t.kind = none :=
        hends.leave (fun h => absurd rfl h) fun _ => hcolumn.2
      exact ⟨t :: rest, stop_cons_of_none hnext, hcolumn.1⟩

theorem eq_ended_of_next_eof {q q' : Outlook} (h : q.next .eof = some q') : q' = .ended := by
  have hleave : ∀ {g : Nat}, Outlook.leave g .eof = some q' → q' = .ended := by
    intro g hg
    cases g <;> cases hg
    rfl
  have hbehind : ∀ {σ : Side} {s : Nat}, Outlook.behind σ s .eof = some q' → q' = .ended := by
    intro σ s hs
    cases s with
    | succ s => cases σ <;> cases hs
    | zero =>
      cases σ with
      | left f u => cases u <;> cases hs
      | right g => exact hleave hs
  cases q <;> first | exact hleave h | exact hbehind h | cases h

/-- A stream does not stop behind its end token. -/
theorem stop_ne_nil_of_stream {ts : List Token} (hts : Token.Stream ts) (q : Outlook) :
    q.stop ts ≠ some [] := by
  obtain ⟨us, e, rfl, he, -⟩ := hts
  induction us generalizing q with
  | nil =>
    intro h
    cases hq : q.next e.kind with
    | none =>
      rw [List.nil_append, stop_cons_of_none hq] at h
      cases h
    | some q' =>
      rw [List.nil_append, stop_cons hq] at h
      rw [he] at hq
      rw [eq_ended_of_next_eof hq] at h
      cases h
  | cons t us ih =>
    intro h
    cases hq : q.next t.kind with
    | none =>
      rw [List.cons_append, stop_cons_of_none hq] at h
      cases h
    | some q' =>
      rw [List.cons_append, stop_cons hq] at h
      exact ih q' h

/-- **A syntax error is reported at the first impossible token.** If the tokens of a text are not
read, and not for the size of a number, then the column is that of the token behind the longest
beginning of a sentence: the tokens before it can be completed to a sentence with its end token, and
with it they cannot. -/
theorem column_of_parse_error {s : String} {ts : List Token} {e : SyntaxError}
    (hscan : Token.scan s = .ok ts) (herror : Formula.parse s = .error e)
    (hrange : e.cause.ofRange = false) :
    ∃ (pre : List Token) (t : Token) (post : List Token), ts = pre ++ t :: post ∧
      e.column = t.column ∧ ∀ us, us <+: ts → (Viable us ↔ us <+: pre) := by
  have hread : Formula.ofTokens ts = .error e := by
    simpa only [Formula.parse, hscan, bind, Except.bind] using herror
  obtain ⟨rest, hstop, hcolumn⟩ := stop_of_ofTokens hread hrange
  cases rest with
  | nil => exact absurd hstop (stop_ne_nil_of_stream (Token.stream_of_scan hscan) _)
  | cons t post =>
    obtain ⟨pre, hts, hviable⟩ := viable_iff_of_stop hstop
    exact ⟨pre, t, post, hts, hcolumn, hviable⟩

/-- The tokens of a sum, behind a parenthesis, that a connective breaks off. -/
def brokenTokens : List Token :=
  [⟨.minus, "-", 1⟩, ⟨.lparen, "(", 2⟩, ⟨.identifier, "q", 3⟩, ⟨.plus, "+", 5⟩, ⟨.lparen, "(", 7⟩,
    ⟨.integer, "3", 8⟩, ⟨.or, "\\/", 10⟩, ⟨.tt, "T", 13⟩, ⟨.rparen, ")", 14⟩, ⟨.eof, "", 15⟩]

/-- The outer parenthesis is taken for that of a formula and the inner one for that of a sum. The
connective is blamed. -/
theorem brokenTokens_column : Token.scan "-(q + (3 \\/ T)" = .ok brokenTokens ∧
    Formula.parse "-(q + (3 \\/ T)" = .error ⟨.unclosedSum (.word "\\/"), 10⟩ ∧
    Viable (brokenTokens.take 6) ∧ ¬ Viable (brokenTokens.take 7) := by
  have hscan : Token.scan "-(q + (3 \\/ T)" = .ok brokenTokens := by decide +kernel
  have herror : Formula.parse "-(q + (3 \\/ T)" = .error ⟨.unclosedSum (.word "\\/"), 10⟩ := by
    rw [Formula.parse, hscan]
    rfl
  obtain ⟨pre, t, post, hts, hcolumn, hviable⟩ := column_of_parse_error hscan herror rfl
  have hlen : pre.length = 6 := by
    have ht : brokenTokens[pre.length]? = some t := by rw [hts]; simp
    have hlt : pre.length < 10 := by
      have hlength := congrArg List.length hts
      simp only [brokenTokens, List.length_append, List.length_cons, List.length_nil] at hlength
      omega
    have honly : ∀ i < 10, brokenTokens[i]?.map Token.column = some 10 → i = 6 := by decide
    exact honly pre.length hlt (by rw [ht, Option.map_some, ← hcolumn])
  have hpre : pre = brokenTokens.take 6 := by rw [hts, ← hlen, List.take_left]
  refine ⟨hscan, herror, (hviable _ (List.take_prefix 6 _)).mpr (hpre ▸ List.prefix_rfl),
    fun h => ?_⟩
  have hlong := ((hviable _ (List.take_prefix 7 _)).mp h).length_le
  rw [hpre] at hlong
  exact absurd hlong (by decide)

end Grammar

end PetriReach
