import Mathlib.Data.List.Basic
import Mathlib.Data.List.Forall2
import Mathlib.Tactic.Ring

/-!
# Tables of fixed-size records

A table is `count` records of `w` items each, one after another.  A record is decoded by a function
of the items that start at it, which may look at any of them.

## Main definitions

* `RecordTable.records w f count items` — the decoded records of a table.

## Main results

* `records_flatMap` — decoding undoes encoding, record by record.
* `records_congr` — tables whose records decode alike have the same records.
* `mapM_eq_ok_iff`, `foldlM_push` — checking every record of a table.
-/

namespace RecordTable

variable {α β ρ ε : Type}

/-- The first `count` records of a table of records of width `w`. -/
def records (w : ℕ) (f : List α → ρ) : ℕ → List α → List ρ
  | 0, _ => []
  | count + 1, items => f items :: records w f count (items.drop w)

@[simp] theorem length_records (w : ℕ) (f : List α → ρ) (count : ℕ) (items : List α) :
    (records w f count items).length = count := by
  induction count generalizing items with
  | zero => rfl
  | succ count ih => rw [records, List.length_cons, ih]

theorem getElem_records (w : ℕ) (f : List α → ρ) {count : ℕ} {items : List α} {k : ℕ}
    (h : k < (records w f count items).length) :
    (records w f count items)[k] = f (items.drop (k * w)) := by
  induction count generalizing items k with
  | zero => cases h
  | succ count ih =>
    cases k with
    | zero => simp [records]
    | succ k =>
      simp only [records, List.getElem_cons_succ]
      rw [ih, List.drop_drop]
      congr 2
      ring

/-- Decoding undoes encoding, whatever follows the table. -/
theorem records_flatMap {w : ℕ} {f : List α → ρ} {encode : ρ → List α}
    (hlen : ∀ x, (encode x).length = w) (hround : ∀ x rest, f (encode x ++ rest) = x)
    (xs : List ρ) (rest : List α) :
    records w f xs.length (xs.flatMap encode ++ rest) = xs := by
  induction xs with
  | nil => rfl
  | cons x xs ih =>
    rw [List.flatMap_cons, List.append_assoc, List.length_cons, records, hround,
      List.drop_left' (hlen x), ih]

theorem length_flatMap {w : ℕ} {encode : ρ → List α} (hlen : ∀ x, (encode x).length = w)
    (xs : List ρ) : (xs.flatMap encode).length = xs.length * w := by
  induction xs with
  | nil => simp
  | cons x xs ih =>
    rw [List.flatMap_cons, List.length_append, hlen, ih, List.length_cons]
    ring

/-- Tables whose records decode alike have the same records. -/
theorem records_congr {w : ℕ} {f : List α → ρ} {count : ℕ} {as bs : List α}
    (h : ∀ k < count, f (as.drop (k * w)) = f (bs.drop (k * w))) :
    records w f count as = records w f count bs := by
  apply List.ext_getElem (by simp)
  intro k hk _
  rw [getElem_records, getElem_records]
  exact h k (by simpa using hk)

/-- The same, of tables that start at `start`. -/
theorem records_drop_congr {w : ℕ} {f : List α → ρ} {count start : ℕ} {as bs : List α}
    (h : ∀ k < count, f (as.drop (start + k * w)) = f (bs.drop (start + k * w))) :
    records w f count (as.drop start) = records w f count (bs.drop start) := by
  refine records_congr fun k hk => ?_
  rw [List.drop_drop, List.drop_drop]
  exact h k hk

/-! ### Checking every record -/

/-- Every record passes its check, and the results are in order. -/
theorem mapM_eq_ok_iff {check : ρ → Except ε β} {xs : List ρ} {ys : List β} :
    xs.mapM check = .ok ys ↔ List.Forall₂ (fun x y => check x = .ok y) xs ys := by
  induction xs generalizing ys with
  | nil =>
    rw [List.mapM_nil, List.forall₂_nil_left_iff]
    constructor
    · rintro ⟨⟩
      rfl
    · rintro rfl
      rfl
  | cons x xs ih =>
    rw [List.mapM_cons, List.forall₂_cons_left_iff]
    cases hx : check x with
    | error e =>
      constructor
      · rintro ⟨⟩
      · rintro ⟨y, _, h, _⟩
        cases h
    | ok y =>
      cases hxs : xs.mapM check with
      | error e =>
        constructor
        · intro h
          cases h
        · rintro ⟨_, tail, _, htail, _⟩
          rw [ih.mpr htail] at hxs
          cases hxs
      | ok tail =>
        constructor
        · intro h
          cases h
          exact ⟨y, tail, rfl, ih.mp hxs, rfl⟩
        · rintro ⟨_, tail', h, htail, rfl⟩
          cases h
          rw [ih.mpr htail] at hxs
          cases hxs
          rfl

/-- What a check establishes holds of every result. -/
theorem forall_of_mapM {check : ρ → Except ε β} {p : β → Prop} {xs : List ρ} {ys : List β}
    (h : xs.mapM check = .ok ys) (hcheck : ∀ x y, check x = .ok y → p y) : ∀ y ∈ ys, p y := by
  have hall := mapM_eq_ok_iff.mp h
  induction hall with
  | nil => exact fun y hy => absurd hy List.not_mem_nil
  | cons hfirst hrest ih =>
    rw [List.forall_mem_cons]
    exact ⟨hcheck _ _ hfirst, ih (mapM_eq_ok_iff.mpr hrest)⟩

/-- Appending the results one at a time. -/
theorem foldlM_push (check : ρ → Except ε β) (xs : List ρ) (done : List β) :
    xs.foldlM (fun done x => do let y ← check x; return done ++ [y]) done
      = (xs.mapM check).map (done ++ ·) := by
  induction xs generalizing done with
  | nil =>
    rw [List.foldlM_nil, List.mapM_nil]
    exact congrArg Except.ok (List.append_nil done).symm
  | cons x xs ih =>
    rw [List.foldlM_cons, List.mapM_cons]
    cases hx : check x with
    | error e => rfl
    | ok y =>
      show xs.foldlM _ (done ++ [y]) = _
      rw [ih]
      cases xs.mapM check with
      | error e => rfl
      | ok ys => simp [Except.map, pure, Except.pure, bind, Except.bind]

end RecordTable
