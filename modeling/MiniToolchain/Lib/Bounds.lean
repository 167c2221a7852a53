import Mathlib.Data.List.Basic
import Mathlib.Data.Nat.Notation
import Mathlib.Tactic.SplitIfs

/-!
# Parts of a list

Taking a run of elements out of a list, which has no meaning when the run does not lie in the list,
and writing one back.

## Main definitions

* `subspan` — a run of elements, if it lies in the list.
* `replaceAt` — the list with a run of elements replaced.

## Main results

* `subspan_eq_some` — which runs lie in a list.
* `subspan_replaceAt`, `subspan_replaceAt_of_disjoint` — what is written is read back, and nothing
  else changes.
-/

namespace Bounds

variable {α : Type}

/-- `count` elements from `offset` on. -/
def subspan (xs : List α) (offset count : ℕ) : Option (List α) :=
  if offset + count ≤ xs.length then some ((xs.drop offset).take count) else none

/-- The elements of `ys` in the place of those from `offset` on. -/
def replaceAt (xs : List α) (offset : ℕ) (ys : List α) : List α :=
  xs.take offset ++ ys ++ xs.drop (offset + ys.length)

theorem subspan_eq_some {xs ys : List α} {offset count : ℕ} :
    subspan xs offset count = some ys ↔
      offset + count ≤ xs.length ∧ ys = (xs.drop offset).take count := by
  unfold subspan
  split_ifs with h
  · rw [Option.some.injEq]
    exact ⟨fun heq => ⟨h, heq.symm⟩, fun heq => heq.2.symm⟩
  · exact ⟨nofun, fun heq => absurd heq.1 h⟩

theorem subspan_of_le {xs : List α} {offset count : ℕ} (h : offset + count ≤ xs.length) :
    subspan xs offset count = some ((xs.drop offset).take count) := if_pos h

theorem length_of_subspan {xs ys : List α} {offset count : ℕ}
    (h : subspan xs offset count = some ys) : ys.length = count := by
  obtain ⟨hle, rfl⟩ := subspan_eq_some.mp h
  rw [List.length_take, List.length_drop]
  omega

/-- A run of a run. -/
theorem subspan_of_subspan {xs ys : List α} {offset count : ℕ}
    (h : subspan xs offset count = some ys) {offset' count' : ℕ} (hle : offset' + count' ≤ count) :
    subspan xs (offset + offset') count' = subspan ys offset' count' := by
  have hlength := length_of_subspan h
  obtain ⟨hin, rfl⟩ := subspan_eq_some.mp h
  rw [subspan_of_le (by omega), subspan_of_le (by omega), List.drop_take, List.take_take,
    List.drop_drop, Nat.min_eq_left (by omega)]

theorem length_replaceAt {xs ys : List α} {offset : ℕ} (h : offset + ys.length ≤ xs.length) :
    (replaceAt xs offset ys).length = xs.length := by
  unfold replaceAt
  rw [List.length_append, List.length_append, List.length_take, List.length_drop]
  omega

/-- What is written is read back. -/
theorem subspan_replaceAt {xs ys : List α} {offset : ℕ} (h : offset + ys.length ≤ xs.length) :
    subspan (replaceAt xs offset ys) offset ys.length = some ys := by
  rw [subspan_of_le (by rw [length_replaceAt h]; exact h), Option.some.injEq]
  unfold replaceAt
  have hlength : (xs.take offset).length = offset := by
    rw [List.length_take]
    omega
  rw [List.append_assoc, List.drop_left' hlength, List.take_left]

theorem getElem?_replaceAt {xs ys : List α} {offset : ℕ} (h : offset + ys.length ≤ xs.length)
    {i : ℕ} (hi : i < offset ∨ offset + ys.length ≤ i) : (replaceAt xs offset ys)[i]? = xs[i]? := by
  unfold replaceAt
  have hlength : (xs.take offset).length = offset := by
    rw [List.length_take]
    omega
  rcases hi with hi | hi
  · rw [List.append_assoc, List.getElem?_append_left (by omega), List.getElem?_take_of_lt hi]
  · rw [List.getElem?_append_right (by rw [List.length_append]; omega), List.length_append, hlength,
      List.getElem?_drop]
    congr 1
    omega

/-- Nothing else changes. -/
theorem subspan_replaceAt_of_disjoint {xs ys : List α} {offset offset' count : ℕ}
    (h : offset + ys.length ≤ xs.length)
    (hdisjoint : offset' + count ≤ offset ∨ offset + ys.length ≤ offset') :
    subspan (replaceAt xs offset ys) offset' count = subspan xs offset' count := by
  unfold subspan
  rw [length_replaceAt h]
  split_ifs with hle
  · congr 1
    apply List.ext_getElem?
    intro i
    rw [List.getElem?_take, List.getElem?_take]
    split_ifs with hi
    · rw [List.getElem?_drop, List.getElem?_drop]
      exact getElem?_replaceAt h (by omega)
    · rfl
  · rfl

/-- The element after a prefix is changed. -/
theorem modify_append_cons (before : List α) (x : α) (after : List α) (f : α → α) :
    (before ++ x :: after).modify before.length f = before ++ f x :: after := by
  induction before with
  | nil => rfl
  | cons y before ih =>
    show y :: (before ++ x :: after).modify before.length f = _
    rw [ih]
    rfl

theorem getElem?_append_cons (before : List α) (x : α) (after : List α) :
    (before ++ x :: after)[before.length]? = some x := by
  rw [List.getElem?_append_right (Nat.le_refl _), Nat.sub_self]
  rfl

end Bounds
