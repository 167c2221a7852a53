import Mathlib.Order.Nat

/-!
# Runs that end, and simulation

A system moves from state to state until it halts.  A move may be free or cost something, and the
price of a run is what its moves cost together.  One system simulates another when it matches each
move with moves that cost no more, and halts when the other does.

## Main definitions

* `System` — states, moves with their cost, and where a run ends.
* `Reaches`, `Halts` — runs, and runs that end, with their price.
* `Simulates` — every move is matched, and so is the end.

## Main results

* `Simulates.halts` — a run that ends is matched by one that ends and costs no more.
* `Halts.invariant` — what every move keeps holds at the end.
-/

namespace Simulation

/-- A system: its moves, with their cost, and where a run ends. -/
structure System (σ : Type*) where
  move : σ → ℕ → σ → Prop
  final : σ → Prop

namespace System

variable {σ τ : Type*} (M : System σ) (N : System τ)

/-- A run from a state to another, through states that are not final. -/
inductive Reaches : σ → ℕ → σ → Prop
  | refl (s : σ) : Reaches s 0 s
  | step {s s' s'' : σ} {c n : ℕ} (hrun : ¬M.final s) (hmove : M.move s c s')
      (hrest : Reaches s' n s'') : Reaches s (c + n) s''

/-- A run that ends. -/
def Halts (s : σ) (n : ℕ) (s' : σ) : Prop := M.Reaches s n s' ∧ M.final s'

variable {M N}

namespace Reaches

variable {s s' s'' : σ} {m n c : ℕ}

theorem single (hrun : ¬M.final s) (hmove : M.move s c s') : M.Reaches s c s' :=
  .step hrun hmove (.refl s')

theorem trans (h : M.Reaches s m s') (h' : M.Reaches s' n s'') : M.Reaches s (m + n) s'' := by
  induction h with
  | refl s =>
    rw [Nat.zero_add]
    exact h'
  | step hrun hmove _ ih =>
    rw [Nat.add_assoc]
    exact .step hrun hmove (ih h')

/-- What every move keeps holds at the end. -/
theorem invariant {I : σ → Prop}
    (hkeep : ∀ s c s', I s → ¬M.final s → M.move s c s' → I s') (h : M.Reaches s n s') (hs : I s) :
    I s' := by
  induction h with
  | refl s => exact hs
  | step hrun hmove _ ih => exact ih (hkeep _ _ _ hs hrun hmove)

end Reaches

theorem Halts.of_reaches {s s' s'' : σ} {m n : ℕ} (h : M.Reaches s m s') (h' : M.Halts s' n s'') :
    M.Halts s (m + n) s'' := ⟨h.trans h'.1, h'.2⟩

/-- The second system matches every move of the first with moves that cost no more, and its end. -/
structure Simulates (M : System σ) (N : System τ) (R : σ → τ → Prop) : Prop where
  move : ∀ s t c s', R s t → ¬M.final s → M.move s c s' → ∃ d ≤ c, ∃ t', N.Reaches t d t' ∧ R s' t'
  final : ∀ s t, R s t → M.final s → N.final t

namespace Simulates

variable {R : σ → τ → Prop}

theorem reaches (h : Simulates M N R) {s s' : σ} {t : τ} {n : ℕ} (hrun : M.Reaches s n s')
    (hst : R s t) : ∃ m ≤ n, ∃ t', N.Reaches t m t' ∧ R s' t' := by
  induction hrun generalizing t with
  | refl s => exact ⟨0, le_rfl, t, .refl t, hst⟩
  | step hrun hmove _ ih =>
    obtain ⟨d, hd, u, hu, hrel⟩ := h.move _ _ _ _ hst hrun hmove
    obtain ⟨m, hm, t', ht', hlast⟩ := ih hrel
    exact ⟨d + m, Nat.add_le_add hd hm, t', hu.trans ht', hlast⟩

/-- **A run that ends is matched by one that ends and costs no more.** -/
theorem halts (h : Simulates M N R) {s s' : σ} {t : τ} {n : ℕ} (hrun : M.Halts s n s')
    (hst : R s t) : ∃ m ≤ n, ∃ t', N.Halts t m t' ∧ R s' t' := by
  obtain ⟨m, hm, t', ht', hlast⟩ := h.reaches hrun.1 hst
  exact ⟨m, hm, t', ⟨ht', h.final _ _ hlast hrun.2⟩, hlast⟩

end Simulates

end System
end Simulation
