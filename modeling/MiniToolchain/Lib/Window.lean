import Mathlib.Data.List.Basic
import Mathlib.Data.Nat.Notation
import Mathlib.Tactic.SplitIfs

/-!
# Windows of a store

A store is a function from offsets to values; a window is the values at some consecutive offsets.

## Main definitions

* `window f start count` — the values at `count` offsets from `start` on.
* `overwrite f start xs` — the store with `xs` written from `start` on.

## Main results

* `overwrite_of_outside` — what is not written stays.
* `overwrite_append` — two writes side by side are one.
-/

namespace Window

variable {α : Type}

/-- The values at `count` offsets from `start` on. -/
def window (f : ℕ → α) (start count : ℕ) : List α := (List.range count).map fun i => f (start + i)

/-- The store with `xs` written from `start` on. -/
def overwrite (f : ℕ → α) (start : ℕ) (xs : List α) : ℕ → α := fun i =>
  if h : start ≤ i ∧ i - start < xs.length then xs.get ⟨i - start, h.2⟩ else f i

@[simp] theorem length_window (f : ℕ → α) (start count : ℕ) :
    (window f start count).length = count := by simp [window]

@[simp] theorem getElem_window (f : ℕ → α) (start count i : ℕ)
    (h : i < (window f start count).length) : (window f start count)[i] = f (start + i) := by
  simp [window]

@[simp] theorem overwrite_nil (f : ℕ → α) (start : ℕ) : overwrite f start [] = f := by
  funext i
  simp [overwrite]

theorem overwrite_of_outside (f : ℕ → α) {start i : ℕ} {xs : List α}
    (h : i < start ∨ start + xs.length ≤ i) : overwrite f start xs i = f i := by
  unfold overwrite
  rw [dif_neg]
  omega

/-- Two writes side by side are one. -/
theorem overwrite_append (f : ℕ → α) (start : ℕ) (xs ys : List α) :
    overwrite (overwrite f start xs) (start + xs.length) ys = overwrite f start (xs ++ ys) := by
  funext i
  unfold overwrite
  simp only [List.length_append, List.get_eq_getElem]
  by_cases hlater : start + xs.length ≤ i ∧ i - (start + xs.length) < ys.length
  · rw [dif_pos hlater, dif_pos (by omega), List.getElem_append_right (by omega)]
    congr 1
    omega
  · rw [dif_neg hlater]
    by_cases hfirst : start ≤ i ∧ i - start < xs.length
    · rw [dif_pos hfirst, dif_pos (by omega), List.getElem_append_left hfirst.2]
    · rw [dif_neg hfirst, dif_neg (by omega)]

/-- What is written at the start is found there. -/
theorem window_overwrite (f : ℕ → α) {xs : List α} {start count : ℕ}
    (h : start + count ≤ xs.length) :
    window (overwrite f 0 xs) start count = (xs.drop start).take count := by
  apply List.ext_getElem
  · rw [length_window, List.length_take, List.length_drop]
    omega
  · intro i hi _
    rw [length_window] at hi
    rw [getElem_window, List.getElem_take, List.getElem_drop, overwrite, dif_pos (by omega)]
    rfl

end Window
