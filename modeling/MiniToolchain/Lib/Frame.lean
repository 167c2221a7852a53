import MiniToolchain.Lib.Checked

/-!
# Updates of separate parts

A loop each of whose turns updates one part of a state and leaves every part that is separate from
it as it is.  When the parts of the turns are separate from each other, every turn finds its part as
it was before the loop, and leaves it as it is after the loop.

## Main definitions

* `Framed` — the turns update their own parts only.

## Main results

* `Framed.read_foldlM` — what is separate from all parts stays.
* `Framed.exists_turn` — the turn that updates a part.
* `Framed.foldlM_ne_error` — a loop fails only as a turn fails on its part before the loop.
-/

namespace Frame

open Checked

variable {σ υ φ β ε : Type}

/-- The turns keep an invariant and update their own parts only. -/
structure Framed (step : σ → υ → Except ε σ) (part : υ → φ) (read : φ → σ → β)
    (apart : φ → φ → Prop) (inv : σ → Prop) : Prop where
  keeps : ∀ {s u s'}, inv s → step s u = .ok s' → inv s'
  frame : ∀ {s u s' g}, inv s → step s u = .ok s' → apart (part u) g → read g s' = read g s

/-- The parts of the turns are separate from each other. -/
def Separate (part : υ → φ) (apart : φ → φ → Prop) (us : List υ) : Prop :=
  us.Pairwise fun u v => apart (part u) (part v) ∧ apart (part v) (part u)

namespace Framed

variable {step : σ → υ → Except ε σ} {part : υ → φ} {read : φ → σ → β} {apart : φ → φ → Prop}
  {inv : σ → Prop}

/-- What is separate from all parts stays. -/
theorem read_foldlM (h : Framed step part read apart inv) {us : List υ} {g : φ}
    (hg : ∀ u ∈ us, apart (part u) g) {s s' : σ} (hs : inv s) (hfold : us.foldlM step s = .ok s') :
    read g s' = read g s := by
  induction us generalizing s with
  | nil =>
    cases hfold
    rfl
  | cons u us ih =>
    obtain ⟨hu, hus⟩ := List.forall_mem_cons.mp hg
    rw [List.foldlM_cons] at hfold
    obtain ⟨s₁, hstep, hrest⟩ := bind_eq_ok.mp hfold
    rw [ih hus (h.keeps hs hstep) hrest]
    exact h.frame hs hstep hu

/-- The turn that updates a part finds it as it was before the loop. -/
theorem exists_turn (h : Framed step part read apart inv) {us : List υ}
    (hus : Separate part apart us) {s s' : σ} (hs : inv s) (hfold : us.foldlM step s = .ok s')
    {u : υ} (hu : u ∈ us) :
    ∃ s₁ s₂, inv s₁ ∧ step s₁ u = .ok s₂ ∧ read (part u) s₁ = read (part u) s ∧
      read (part u) s' = read (part u) s₂ := by
  induction us generalizing s with
  | nil => cases hu
  | cons v us ih =>
    obtain ⟨hv, hus⟩ := List.pairwise_cons.mp hus
    rw [List.foldlM_cons] at hfold
    obtain ⟨s₁, hstep, hrest⟩ := bind_eq_ok.mp hfold
    have hs₁ := h.keeps hs hstep
    rcases List.mem_cons.mp hu with rfl | hu
    · -- the later turns update other parts
      exact ⟨s, s₁, hs, hstep, rfl, h.read_foldlM (fun w hw => (hv w hw).2) hs₁ hrest⟩
    · obtain ⟨s₂, s₃, hs₂, hturn, hbefore, hafter⟩ := ih hus hs₁ hrest hu
      exact ⟨s₂, s₃, hs₂, hturn, hbefore.trans (h.frame hs hstep (hv u hu).1), hafter⟩

/-- A loop fails only with an error that a turn has on its part as it was before the loop. -/
theorem foldlM_ne_error (h : Framed step part read apart inv) {us : List υ}
    (hus : Separate part apart us) {s : σ} (hs : inv s) {e : ε}
    (hstep : ∀ u ∈ us, ∀ s₁, inv s₁ → read (part u) s₁ = read (part u) s → step s₁ u ≠ .error e) :
    us.foldlM step s ≠ .error e := by
  induction us generalizing s with
  | nil => nofun
  | cons v us ih =>
    obtain ⟨hv, hus⟩ := List.pairwise_cons.mp hus
    obtain ⟨hfirst, hothers⟩ := List.forall_mem_cons.mp hstep
    rw [List.foldlM_cons]
    refine bind_ne_error (hfirst s hs rfl) ?_
    intro s₁ hs₁
    -- the first turn leaves the parts of the others as they were
    refine ih hus (h.keeps hs hs₁) ?_
    intro u hu s₂ hs₂ hread
    exact hothers u hu s₂ hs₂ (hread.trans (h.frame hs hs₁ (hv u hu).1))

end Framed

end Frame
