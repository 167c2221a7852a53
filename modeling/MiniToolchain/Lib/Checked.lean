import Mathlib.Data.List.Basic
import Mathlib.Tactic.SplitIfs

/-!
# Computations that check and fail

Functions that fail with the error of the first check that does not pass.

## Main definitions

* `reject bad error` — the check that fails with `error` when `bad` holds.

## Main results

* `bind_eq_ok`, `forM_eq_ok` — a sequence of checks passes when each of them does.
* `foldlM_induction`, `foldlM_ne_error_of` — the invariant rules of a loop whose turns can fail.
* `foldlM_establishes` — what each turn brings about holds at the end.
* `of_foldl`, `of_foldlM` — what held before a loop because it holds at its end.
-/

namespace Checked

variable {α β ε : Type}

/-- Fails if `bad` holds. -/
def reject (bad : Prop) [Decidable bad] (error : ε) : Except ε Unit :=
  if bad then .error error else .ok ()

@[simp] theorem reject_eq_ok {bad : Prop} [Decidable bad] {error : ε} {u : Unit} :
    reject bad error = .ok u ↔ ¬bad := by
  unfold reject
  split_ifs with h <;> simp [h]

theorem reject_of_not {bad : Prop} [Decidable bad] (h : ¬bad) (error : ε) :
    reject bad error = .ok () := if_neg h

@[simp] theorem ok_bind (a : α) (f : α → Except ε β) : (Except.ok a >>= f) = f a := rfl

@[simp] theorem error_bind (e : ε) (f : α → Except ε β) :
    ((Except.error e : Except ε α) >>= f) = .error e := rfl

@[simp] theorem pure_eq_ok (a : α) : (pure a : Except ε α) = .ok a := rfl

/-- The second computation runs on the result of the first. -/
theorem bind_eq_ok {x : Except ε α} {f : α → Except ε β} {b : β} :
    (x >>= f) = .ok b ↔ ∃ a, x = .ok a ∧ f a = .ok b := by
  cases x with
  | error e => simp
  | ok a => simp

/-- A sequence fails only with an error of one of its parts. -/
theorem bind_ne_error {x : Except ε α} {f : α → Except ε β} {e : ε} (hx : x ≠ .error e)
    (hf : ∀ a, x = .ok a → f a ≠ .error e) : (x >>= f) ≠ .error e := by
  cases x with
  | error e' =>
    intro h
    cases h
    exact hx rfl
  | ok a => exact hf a rfl

theorem bind_eq_error {x : Except ε α} {f : α → Except ε β} {e : ε} :
    (x >>= f) = .error e ↔ x = .error e ∨ ∃ a, x = .ok a ∧ f a = .error e := by
  cases x with
  | error e' => simp
  | ok a => simp

/-- Checking every element. -/
theorem forM_eq_ok {check : α → Except ε Unit} {xs : List α} {u : Unit} :
    xs.forM check = .ok u ↔ ∀ x ∈ xs, check x = .ok () := by
  induction xs with
  | nil => simp [List.forM]
  | cons x xs ih =>
    have hcons : (x :: xs).forM check = (check x >>= fun _ => xs.forM check) := rfl
    rw [hcons, bind_eq_ok, List.forall_mem_cons]
    constructor
    · rintro ⟨_, hx, hxs⟩
      exact ⟨hx, ih.mp hxs⟩
    · rintro ⟨hx, hxs⟩
      exact ⟨(), hx, ih.mpr hxs⟩

/-- A loop fails only with an error of one of its turns. -/
theorem foldlM_ne_error {σ : Type} {step : σ → α → Except ε σ} {e : ε}
    (hstep : ∀ state x, step state x ≠ .error e) (xs : List α) (state : σ) :
    xs.foldlM step state ≠ .error e := by
  induction xs generalizing state with
  | nil => nofun
  | cons x xs ih =>
    rw [List.foldlM_cons]
    cases hx : step state x with
    | error e' =>
      intro h
      cases h
      exact hstep state x hx
    | ok state' => exact ih state'

/-- What every turn of a loop keeps holds at its end. -/
theorem foldlM_induction {σ : Type} {step : σ → α → Except ε σ} {p : σ → Prop} {xs : List α}
    (hstep : ∀ state x state', x ∈ xs → p state → step state x = .ok state' → p state')
    {state state' : σ} (h : p state) (hfold : xs.foldlM step state = .ok state') : p state' := by
  induction xs generalizing state with
  | nil =>
    cases hfold
    exact h
  | cons x xs ih =>
    rw [List.foldlM_cons] at hfold
    obtain ⟨next, hx, hrest⟩ := bind_eq_ok.mp hfold
    exact ih (fun s y s' hy => hstep s y s' (List.mem_cons_of_mem x hy))
      (hstep state x next List.mem_cons_self h hx) hrest

/-- The same for the errors of the turns. -/
theorem foldlM_ne_error_of {σ : Type} {step : σ → α → Except ε σ} {p : σ → Prop} {e : ε}
    {xs : List α}
    (hkeep : ∀ state x state', x ∈ xs → p state → step state x = .ok state' → p state')
    (hstep : ∀ state x, x ∈ xs → p state → step state x ≠ .error e) {state : σ} (h : p state) :
    xs.foldlM step state ≠ .error e := by
  induction xs generalizing state with
  | nil => nofun
  | cons x xs ih =>
    rw [List.foldlM_cons]
    cases hx : step state x with
    | error e' =>
      intro heq
      cases heq
      exact hstep state x List.mem_cons_self h hx
    | ok next =>
      exact ih (fun s y s' hy => hkeep s y s' (List.mem_cons_of_mem x hy))
        (fun s y hy => hstep s y (List.mem_cons_of_mem x hy))
        (hkeep state x next List.mem_cons_self h hx)

/-- What every turn brings about for its element, and no turn undoes, holds at the end for all of
them. -/
theorem foldlM_establishes {σ : Type} {step : σ → α → Except ε σ} {q : α → σ → Prop}
    (hmake : ∀ state x state', step state x = .ok state' → q x state')
    (hkeep : ∀ state y state' x, step state y = .ok state' → q x state → q x state') {xs : List α}
    {state state' : σ} (hfold : xs.foldlM step state = .ok state') : ∀ x ∈ xs, q x state' := by
  induction xs generalizing state with
  | nil => exact fun x hx => absurd hx List.not_mem_nil
  | cons y xs ih =>
    rw [List.foldlM_cons] at hfold
    obtain ⟨next, hy, hrest⟩ := bind_eq_ok.mp hfold
    intro x hx
    rcases List.mem_cons.mp hx with rfl | hx
    · exact foldlM_induction (p := q x) (fun s z s' _ hq hstep => hkeep s z s' x hstep hq)
        (hmake state x next hy) hrest
    · exact ih hrest x hx

/-- A loop in a loop is one loop over all elements. -/
theorem foldlM_flatMap {γ σ : Type} (xs : List α) (f : α → List γ) (step : σ → γ → Except ε σ)
    (state : σ) : (xs.flatMap f).foldlM step state =
      xs.foldlM (fun state x => (f x).foldlM step state) state := by
  induction xs generalizing state with
  | nil => rfl
  | cons x xs ih =>
    rw [List.flatMap_cons, List.foldlM_append, List.foldlM_cons]
    congr 1
    funext next
    exact ih next

/-- What a turn cannot bring about held before the loop. -/
theorem of_foldl {σ : Type} {step : σ → α → σ} {p : σ → Prop}
    (hstep : ∀ state x, p (step state x) → p state) {xs : List α} {state : σ}
    (h : p (xs.foldl step state)) : p state := by
  induction xs generalizing state with
  | nil => exact h
  | cons x xs ih => exact hstep state x (ih h)

/-- The same for a loop whose turns can fail. -/
theorem of_foldlM {σ : Type} {step : σ → α → Except ε σ} {p : σ → Prop}
    (hstep : ∀ state x state', step state x = .ok state' → p state' → p state) {xs : List α}
    {state state' : σ} (hfold : xs.foldlM step state = .ok state') (h : p state') : p state := by
  induction xs generalizing state with
  | nil =>
    cases hfold
    exact h
  | cons x xs ih =>
    rw [List.foldlM_cons] at hfold
    obtain ⟨next, hx, hrest⟩ := bind_eq_ok.mp hfold
    exact hstep state x next hx (ih hrest)

end Checked
