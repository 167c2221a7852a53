import Mathlib.Data.List.Basic
import MiniToolchain.Lib.Bounds

/-!
# Items laid out one after another

A sequence of items is laid out from a start: every item gets the offset at which the one before it
ends, and where it ends may depend on its own offset, as padding does.  Emitting writes what each
item contributes at its offset.

## Main definitions

* `endOf` — where the items end.
* `placed` — the items with their offsets.
* `image` — what the items contribute, one after another.

## Main results

* `pairwise_placed` — an item ends before a later one starts.
* `length_image`, `subspan_image` — the contribution of an item stands at its offset.
-/

namespace Emission

open Bounds

variable {ι α : Type} (advance : ℕ → ι → ℕ)

/-- Where items laid out from `start` end. -/
def endOf (start : ℕ) (items : List ι) : ℕ := items.foldl advance start

/-- The items with their offsets. -/
def placed : ℕ → List ι → List (ℕ × ι)
  | _, [] => []
  | offset, item :: items => (offset, item) :: placed (advance offset item) items

/-- What the items contribute. -/
def image (contribution : ℕ → ι → List α) (start : ℕ) (items : List ι) : List α :=
  (placed advance start items).flatMap fun p => contribution p.1 p.2

variable {advance}

@[simp] theorem endOf_cons (start : ℕ) (item : ι) (items : List ι) :
    endOf advance start (item :: items) = endOf advance (advance start item) items := rfl

theorem endOf_append (start : ℕ) (xs ys : List ι) :
    endOf advance start (xs ++ ys) = endOf advance (endOf advance start xs) ys := List.foldl_append

@[simp] theorem placed_cons (start : ℕ) (item : ι) (items : List ι) :
    placed advance start (item :: items) =
      (start, item) :: placed advance (advance start item) items := rfl

theorem placed_append (start : ℕ) (xs ys : List ι) : placed advance start (xs ++ ys) =
    placed advance start xs ++ placed advance (endOf advance start xs) ys := by
  induction xs generalizing start with
  | nil => rfl
  | cons x xs ih =>
    rw [List.cons_append, placed_cons, placed_cons, ih, endOf_cons, List.cons_append]

@[simp] theorem map_snd_placed (start : ℕ) (items : List ι) :
    (placed advance start items).map Prod.snd = items := by
  induction items generalizing start with
  | nil => rfl
  | cons item items ih => rw [placed_cons, List.map_cons, ih]

theorem mem_of_mem_placed {start : ℕ} {items : List ι} {p : ℕ × ι}
    (h : p ∈ placed advance start items) : p.2 ∈ items := by
  have := List.mem_map_of_mem (f := Prod.snd) h
  rwa [map_snd_placed] at this

/-- Where the item with a number is. -/
theorem getElem?_placed {items : List ι} {p : ℕ} {item : ι} (h : items[p]? = some item)
    (start : ℕ) : (placed advance start items)[p]? =
      some (endOf advance start (items.take p), item) := by
  induction items generalizing start p with
  | nil => cases h
  | cons first items ih =>
    rw [placed_cons]
    cases p with
    | zero =>
      cases h
      rfl
    | succ p =>
      rw [List.getElem?_cons_succ] at h ⊢
      rw [List.take_succ_cons, endOf_cons]
      exact ih h (advance start first)

/-- An item, with what comes before it. -/
theorem exists_of_mem_placed {start : ℕ} {items : List ι} {p : ℕ × ι}
    (h : p ∈ placed advance start items) :
    ∃ before after, items = before ++ p.2 :: after ∧ p.1 = endOf advance start before := by
  induction items generalizing start with
  | nil => cases h
  | cons item items ih =>
    rw [placed_cons, List.mem_cons] at h
    rcases h with rfl | h
    · exact ⟨[], items, rfl, rfl⟩
    · obtain ⟨before, after, rfl, hoffset⟩ := ih h
      exact ⟨item :: before, after, rfl, hoffset⟩

section

variable (hle : ∀ offset item, offset ≤ advance offset item)
include hle

theorem le_endOf (start : ℕ) (items : List ι) : start ≤ endOf advance start items := by
  induction items generalizing start with
  | nil => exact Nat.le_refl _
  | cons item items ih => exact Nat.le_trans (hle start item) (ih _)

theorem le_of_mem_placed {start : ℕ} {items : List ι} {p : ℕ × ι}
    (h : p ∈ placed advance start items) : start ≤ p.1 := by
  obtain ⟨before, after, -, hoffset⟩ := exists_of_mem_placed h
  rw [hoffset]
  exact le_endOf hle start before

theorem advance_le_of_mem_placed {start : ℕ} {items : List ι} {p : ℕ × ι}
    (h : p ∈ placed advance start items) : advance p.1 p.2 ≤ endOf advance start items := by
  obtain ⟨before, after, rfl, hoffset⟩ := exists_of_mem_placed h
  rw [endOf_append, endOf_cons, ← hoffset]
  exact le_endOf hle _ after

/-- An item ends before a later one starts. -/
theorem pairwise_placed (start : ℕ) (items : List ι) :
    (placed advance start items).Pairwise fun a b => advance a.1 a.2 ≤ b.1 := by
  induction items generalizing start with
  | nil => exact .nil
  | cons item items ih =>
    rw [placed_cons, List.pairwise_cons]
    exact ⟨fun b hb => le_of_mem_placed hle hb, ih _⟩

end

section

variable {contribution : ℕ → ι → List α} {start : ℕ} {items : List ι}

theorem image_cons (item : ι) : image advance contribution start (item :: items) =
    contribution start item ++ image advance contribution (advance start item) items := by
  rw [image, placed_cons, List.flatMap_cons]
  rfl

theorem image_append (xs ys : List ι) : image advance contribution start (xs ++ ys) =
    image advance contribution start xs ++
      image advance contribution (endOf advance start xs) ys := by
  rw [image, placed_append, List.flatMap_append]
  rfl

/-- Every item contributes as much as it takes up. -/
theorem length_image (h : ∀ p ∈ placed advance start items,
      p.1 + (contribution p.1 p.2).length = advance p.1 p.2) :
    start + (image advance contribution start items).length = endOf advance start items := by
  induction items generalizing start with
  | nil => rfl
  | cons item items ih =>
    rw [placed_cons, List.forall_mem_cons] at h
    have hfirst : start + (contribution start item).length = advance start item := h.1
    rw [image_cons, List.length_append, endOf_cons, ← ih h.2]
    omega

/-- What an item contributes stands at its offset. -/
theorem subspan_image (h : ∀ p ∈ placed advance 0 items,
      p.1 + (contribution p.1 p.2).length = advance p.1 p.2) {p : ℕ × ι}
    (hp : p ∈ placed advance 0 items) :
    subspan (image advance contribution 0 items) p.1 (contribution p.1 p.2).length =
      some (contribution p.1 p.2) := by
  obtain ⟨before, after, rfl, hoffset⟩ := exists_of_mem_placed hp
  have hbefore : ∀ q ∈ placed advance 0 before,
      q.1 + (contribution q.1 q.2).length = advance q.1 q.2 := by
    intro q hq
    rw [placed_append] at h
    exact h q (List.mem_append_left _ hq)
  have hlength := length_image hbefore
  rw [Nat.zero_add, ← hoffset] at hlength
  rw [image_append, image_cons, ← hoffset]
  have hle : p.1 + (contribution p.1 p.2).length ≤
      (image advance contribution 0 before ++ (contribution p.1 p.2 ++
        image advance contribution (advance p.1 p.2) after)).length := by
    rw [List.length_append, List.length_append, hlength]
    omega
  rw [subspan_of_le hle, List.drop_left' hlength, List.take_left]

/-- An index lies in what some item takes up, so bytes that spell out every item are the image. -/
theorem eq_image {bytes : List α} (hlength : bytes.length = endOf advance start items)
    (hle : ∀ offset item, offset ≤ advance offset item)
    (h : ∀ p ∈ placed advance start items,
      p.1 + (contribution p.1 p.2).length = advance p.1 p.2 ∧
        subspan bytes p.1 (contribution p.1 p.2).length = some (contribution p.1 p.2)) :
    bytes.drop start = image advance contribution start items := by
  induction items generalizing start with
  | nil => exact List.drop_of_length_le (Nat.le_of_eq hlength)
  | cons item items ih =>
    rw [placed_cons, List.forall_mem_cons] at h
    obtain ⟨⟨hadvance, hspan⟩, hrest⟩ := h
    dsimp only at hadvance hspan
    rw [endOf_cons] at hlength
    have hfits : start + (contribution start item).length ≤ bytes.length := by
      rw [hadvance, hlength]
      exact le_endOf hle _ items
    rw [subspan_of_le hfits] at hspan
    rw [image_cons, ← ih hlength hrest, ← hadvance, ← List.drop_drop]
    conv_lhs => rw [← List.take_append_drop (contribution start item).length (bytes.drop start)]
    rw [Option.some.inj hspan]

end

end Emission
