import Mathlib.Logic.Function.Basic
import Mathlib.Order.Nat

/-!
# Repeating a step a bounded number of times

A step either finds something to change or does not, and is repeated until it does not, but only so
often.  What it finds may depend on a choice that it makes anew each time.

## Main definitions

* `Chain` — steps in a row that each change something.
* `seek` — the bounded repetition.
* `Converges` — the bound never stops the repetition early.

## Main results

* `Chain.le_measure` — steps that lower a measure come to an end.
* `forall_seek_iff` — what the repetition ends in has nothing left to change exactly when it
  converges.
* `quiet_of_seek_eq` — a repetition that ends where it began has nothing to change there.
-/

namespace Iteration

variable {α γ : Type} {next : γ → α → Option α}

/-- `n` steps in a row that each change something. -/
inductive Chain (next : γ → α → Option α) : ℕ → α → α → Prop
  | refl (a : α) : Chain next 0 a a
  | step {n : ℕ} {c : γ} {a b d : α} (h : next c a = some b) (hrest : Chain next n b d) :
    Chain next (n + 1) a d

namespace Chain

variable {n : ℕ} {a b d : α}

/-- A step more at the end. -/
theorem snoc (h : Chain next n a b) {c : γ} (hstep : next c b = some d) :
    Chain next (n + 1) a d := by
  induction h with
  | refl a => exact .step hstep (.refl d)
  | step h _ ih => exact .step h (ih hstep)

/-- The last step. -/
theorem last (h : Chain next (n + 1) a d) : ∃ b c, Chain next n a b ∧ next c b = some d := by
  induction n generalizing a with
  | zero =>
    obtain - | ⟨hstep, hrest⟩ := h
    cases hrest
    exact ⟨a, _, .refl a, hstep⟩
  | succ n ih =>
    obtain - | ⟨hstep, hrest⟩ := h
    obtain ⟨b, c, hb, hlast⟩ := ih hrest
    exact ⟨b, c, .step hstep hb, hlast⟩

/-- Steps that lower a measure come to an end. -/
theorem le_measure {μ : α → ℕ} (hμ : ∀ c a b, next c a = some b → μ b < μ a)
    (h : Chain next n a b) : n + μ b ≤ μ a := by
  induction h with
  | refl a => omega
  | step h _ ih =>
    have hlt := hμ _ _ _ h
    omega

end Chain

/-- Repeats the step until it changes nothing, at most `n` times; `choice i` is the choice of the
step that has `i` more to come. -/
def seek (next : γ → α → Option α) (choice : ℕ → γ) : ℕ → α → α
  | 0, a => a
  | n + 1, a =>
    match next (choice n) a with
    | none => a
    | some b => seek next choice n b

/-- The repetition takes all its steps, or ends before a step that changes nothing. -/
theorem chain_seek (choice : ℕ → γ) (n : ℕ) (a : α) :
    Chain next n a (seek next choice n a) ∨
      ∃ k < n, Chain next k a (seek next choice n a) ∧
        ∃ c, next c (seek next choice n a) = none := by
  induction n generalizing a with
  | zero => exact Or.inl (.refl a)
  | succ n ih =>
    unfold seek
    cases hstep : next (choice n) a with
    | none => exact Or.inr ⟨0, Nat.succ_pos n, .refl a, choice n, hstep⟩
    | some b =>
      rcases ih b with hall | ⟨k, hk, hchain, hquiet⟩
      · exact Or.inl (.step hstep hall)
      · exact Or.inr ⟨k + 1, Nat.succ_lt_succ hk, .step hstep hchain, hquiet⟩

/-- Only the choices that are still to come count. -/
theorem seek_congr {choice choice' : ℕ → γ} {n : ℕ} (h : ∀ i < n, choice i = choice' i) (a : α) :
    seek next choice n a = seek next choice' n a := by
  induction n generalizing a with
  | zero => rfl
  | succ n ih =>
    unfold seek
    rw [h n (Nat.lt_succ_self n)]
    cases next (choice' n) a with
    | none => rfl
    | some b => exact ih (fun i hi => h i (Nat.lt_succ_of_lt hi)) b

/-- Some choices take the repetition along a given chain, if that is as long as the repetition or
ends before a step that changes nothing. -/
theorem exists_seek [Inhabited γ] {k n : ℕ} {a b : α} (h : Chain next k a b)
    (hn : k = n ∨ (k < n ∧ ∃ c, next c b = none)) : ∃ choice, seek next choice n a = b := by
  induction h generalizing n with
  | refl a =>
    rcases hn with rfl | ⟨hlt, c, hquiet⟩
    · exact ⟨fun _ => default, rfl⟩
    · obtain ⟨n, rfl⟩ := Nat.exists_eq_succ_of_ne_zero (Nat.ne_of_gt hlt)
      refine ⟨fun _ => c, ?_⟩
      unfold seek
      rw [hquiet]
  | @step k c a b d h _ ih =>
    obtain ⟨n, rfl⟩ : ∃ m, n = m + 1 := Nat.exists_eq_succ_of_ne_zero (by omega)
    obtain ⟨choice, hchoice⟩ := @ih n (by
      rcases hn with heq | ⟨hlt, hquiet⟩
      · exact Or.inl (Nat.succ.inj heq)
      · exact Or.inr ⟨Nat.lt_of_succ_lt_succ hlt, hquiet⟩)
    -- the choice of this step, and after it those of the rest of the chain
    refine ⟨Function.update choice n c, ?_⟩
    unfold seek
    rw [Function.update_self, h]
    refine (seek_congr (fun i hi => ?_) b).trans hchoice
    exact Function.update_of_ne (Nat.ne_of_lt hi) c choice

/-- No chain is longer than the bound, and where a shorter one ends with one choice it ends with
any. -/
structure Converges (next : γ → α → Option α) (n : ℕ) (a : α) : Prop where
  within : ∀ b, ¬Chain next (n + 1) a b
  settled : ∀ k < n, ∀ b, Chain next k a b → ∀ c c', next c b = none → next c' b = none

/-- **What the repetition ends in has nothing left to change exactly when it converges.** -/
theorem forall_seek_iff [Inhabited γ] {n : ℕ} {a : α} :
    (∀ choice c, next c (seek next choice n a) = none) ↔ Converges next n a := by
  constructor
  · intro h
    constructor
    · intro b hchain
      obtain ⟨d, c, hd, hlast⟩ := hchain.last
      obtain ⟨choice, rfl⟩ := exists_seek hd (Or.inl rfl)
      rw [h choice c] at hlast
      cases hlast
    · intro k hk b hchain c c' hquiet
      obtain ⟨choice, rfl⟩ := exists_seek hchain (Or.inr ⟨hk, c, hquiet⟩)
      exact h choice c'
  · intro h choice c
    rcases chain_seek choice n a with hall | ⟨k, hk, hchain, c', hquiet⟩
    · -- a step that changes something makes the chain too long
      cases hlast : next c (seek next choice n a) with
      | none => rfl
      | some b => exact absurd (hall.snoc hlast) (h.within b)
    · exact h.settled k hk _ hchain c' c hquiet

/-- A measure that every step lowers is no greater in the end. -/
theorem measure_seek_le {μ : α → ℕ} (hμ : ∀ c a b, next c a = some b → μ b < μ a) (choice : ℕ → γ)
    (n : ℕ) (a : α) : μ (seek next choice n a) ≤ μ a := by
  rcases chain_seek choice n a with h | ⟨k, -, h, -⟩
  · have hle := h.le_measure hμ
    omega
  · have hle := h.le_measure hμ
    omega

/-- A repetition that ends where it began has nothing to change there. -/
theorem quiet_of_seek_eq {μ : α → ℕ} (hμ : ∀ c a b, next c a = some b → μ b < μ a) {choice : ℕ → γ}
    {n : ℕ} {a : α} (h : seek next choice (n + 1) a = a) : next (choice n) a = none := by
  unfold seek at h
  cases hstep : next (choice n) a with
  | none => rfl
  | some b =>
    rw [hstep] at h
    dsimp only at h
    have hle := measure_seek_le hμ choice n b
    have hlt := hμ _ _ _ hstep
    rw [h] at hle
    omega

end Iteration
