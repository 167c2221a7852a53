import MiniToolchain.Lib.Frame
import MiniToolchain.Linker.Patch

/-!
# Relocations as updates of fields

Applying relocations is one loop over the relocations of all objects, and each of them updates the
one field it was recorded for.  Sections are placed apart from each other, so fields of different
sections are, too.

## Main definitions

* `Field` — some bytes of a region.
* `turns`, `fieldOf` — the relocations of all objects, and their fields.

## Main results

* `framed_turn` — a relocation updates its own field only.
* `apart_of_mergeSections` — sections are placed apart from each other.
-/

namespace MiniTool
namespace Linker

open Object Bounds

/-- Some bytes of a region. -/
structure Field where
  region : ℕ
  offset : ℕ
  width : ℕ

namespace Field

/-- The fields have no byte in common. -/
def Apart (f g : Field) : Prop :=
  f.region = g.region → f.offset + f.width ≤ g.offset ∨ g.offset + g.width ≤ f.offset

theorem Apart.symm {f g : Field} (h : f.Apart g) : g.Apart f := fun heq => (h heq.symm).symm

/-- The bytes of a field. -/
def read (f : Field) (layout : Layout) : Option (List UInt8) :=
  (layout.regions[f.region]?).bind fun region => subspan region.data f.offset f.width

end Field

/-- Where a section of an object was placed. -/
def Layout.placementAt (layout : Layout) (i k : ℕ) : Option Placement :=
  ((layout.placements[i]?).bind fun placed => placed[k]?).join

theorem placementAt_eq_some {layout : Layout} {i k : ℕ} {placement : Placement} :
    layout.placementAt i k = some placement ↔
      ∃ placed, layout.placements[i]? = some placed ∧ placed[k]? = some (some placement) := by
  unfold Layout.placementAt
  rw [Option.join_eq_some_iff, Option.bind_eq_some_iff]

/-! ### The loop over the relocations -/

/-- The relocations of all objects, each with its object. -/
def turns (objects : List ObjectFile) : List ((ObjectFile × ℕ) × Relocation) :=
  objects.zipIdx.flatMap fun entry => entry.1.relocations.map fun relocation => (entry, relocation)

/-- One relocation. -/
def turn (symbols : Symbols) (layout : Layout) (t : (ObjectFile × ℕ) × Relocation) :
    Except LinkError Layout := relocate symbols t.1.2 t.1.1 layout t.2

theorem applyRelocations_eq (symbols : Symbols) (objects : List ObjectFile) (layout : Layout) :
    applyRelocations symbols objects layout = (turns objects).foldlM (turn symbols) layout := by
  unfold turns
  rw [Checked.foldlM_flatMap]
  simp only [List.foldlM_map]
  rfl

/-- The field of a relocation. -/
def fieldOf (start : Layout) (t : (ObjectFile × ℕ) × Relocation) : Field :=
  match start.placementAt t.1.2 t.2.sectionId.toNat with
  | some placement =>
    { region := placement.region, offset := (placement.offset + t.2.offset).toNat
      width := relocationWidth t.2.type }
  | none => { region := 0, offset := 0, width := 0 }

/-- **A relocation updates its own field only.** -/
theorem framed_turn (symbols : Symbols) (start : Layout) :
    Frame.Framed (turn symbols) (fieldOf start) Field.read Field.Apart start.Patched where
  keeps := fun hs hstep => hs.relocate hstep
  frame := by
    intro layout t layout' g hs hstep hapart
    obtain ⟨placed, placement, region, symbol, address, data, hplaced, hplacement, hregion, hzero,
      hsymbol, haddress, hdata, rfl⟩ := relocate_cases hstep
    rw [hs.placements] at hplaced
    have hat : start.placementAt t.1.2 t.2.sectionId.toNat = some placement :=
      placementAt_eq_some.mpr ⟨placed, hplaced, hplacement⟩
    have hfield : fieldOf start t =
        { region := placement.region, offset := (placement.offset + t.2.offset).toNat
          width := relocationWidth t.2.type } := by
      unfold fieldOf
      rw [hat]
    rw [hfield] at hapart
    unfold Field.read
    by_cases hsame : placement.region = g.region
    · obtain ⟨field, patched, hfield, -, hlength, rfl⟩ := applyRelocation_eq_ok hdata
      have hlt := (List.getElem?_eq_some_iff.mp hregion).1
      have hfits := (subspan_eq_some.mp hfield).1
      rw [← hsame, hregion, List.getElem?_set_self hlt]
      refine subspan_replaceAt_of_disjoint (by rw [hlength]; exact hfits) ?_
      rw [hlength]
      exact (hapart hsame).symm
    · rw [List.getElem?_set_ne hsame]

/-! ### Sections are apart -/

/-- The sections of each object with their placements. -/
def rows (objects : List ObjectFile) (layout : Layout) : List (List (Section × Option Placement)) :=
  List.zipWith (fun object placed => object.sections.zip placed) objects layout.placements

theorem flatten_zipWith_zip {α β : Type} {xss : List (List α)} :
    ∀ {yss : List (List β)}, yss.map List.length = xss.map List.length →
      (List.zipWith List.zip xss yss).flatten = xss.flatten.zip yss.flatten := by
  induction xss with
  | nil =>
    intro yss h
    rw [List.map_eq_nil_iff.mp h]
    rfl
  | cons xs xss ih =>
    intro yss h
    cases yss with
    | nil => cases h
    | cons ys yss =>
      rw [List.map_cons, List.map_cons, List.cons.injEq] at h
      rw [List.zipWith_cons_cons, List.flatten_cons, List.flatten_cons, List.flatten_cons,
        List.zip_append h.1.symm, ih h.2]

theorem flatten_rows {options : LinkOptions} {objects : List ObjectFile} {layout : Layout}
    (h : mergeSections options objects = .ok layout) :
    (rows objects layout).flatten = (allSections objects).zip layout.placements.flatten := by
  have hlengths := lengths_of_mergeSections h
  have hmap : rows objects layout =
      List.zipWith List.zip (objects.map ObjectFile.sections) layout.placements := by
    unfold rows
    rw [List.zipWith_map_left]
  rw [hmap, flatten_zipWith_zip (by rw [List.map_map]; exact hlengths)]
  rfl

/-- A section of an object with its placement. -/
structure InRow (objects : List ObjectFile) (layout : Layout) (i k : ℕ) (s : Section)
    (placement : Placement) : Prop where
  object : ∃ object, objects[i]? = some object ∧ object.sections[k]? = some s
  placed : layout.placementAt i k = some placement

theorem InRow.getElem?_rows {objects : List ObjectFile} {layout : Layout} {i k : ℕ} {s : Section}
    {placement : Placement} (h : InRow objects layout i k s placement) :
    ∃ row, (rows objects layout)[i]? = some row ∧ row[k]? = some (s, some placement) := by
  obtain ⟨object, hobject, hs⟩ := h.object
  obtain ⟨placed, hplaced, hplacement⟩ := placementAt_eq_some.mp h.placed
  refine ⟨object.sections.zip placed, ?_, ?_⟩
  · unfold rows
    rw [List.getElem?_zipWith, hobject, hplaced]
  · rw [List.zip, List.getElem?_zipWith, hs, hplacement]

/-- The section with the smaller indices is placed before the other. -/
theorem InRow.before {options : LinkOptions} {objects : List ObjectFile} {layout : Layout}
    (hmerge : mergeSections options objects = .ok layout) {i k j l : ℕ} {s t : Section}
    {p q : Placement} (hs : InRow objects layout i k s p) (ht : InRow objects layout j l t q)
    (hlt : i < j ∨ i = j ∧ k < l) (hregion : p.region = q.region) :
    p.offset.toNat + s.size.toNat ≤ q.offset.toNat := by
  have hbefore := (merged_of_mergeSections hmerge).before
  rw [← flatten_rows hmerge, List.pairwise_flatten] at hbefore
  obtain ⟨hwithin, hacross⟩ := hbefore
  obtain ⟨row, hrow, hk⟩ := hs.getElem?_rows
  obtain ⟨row', hrow', hl⟩ := ht.getElem?_rows
  obtain ⟨hi, hrowEq⟩ := List.getElem?_eq_some_iff.mp hrow
  obtain ⟨hj, hrowEq'⟩ := List.getElem?_eq_some_iff.mp hrow'
  rcases hlt with hlt | ⟨rfl, hlt⟩
  · have hone := List.pairwise_iff_getElem.mp hacross i j hi hj hlt
    rw [hrowEq, hrowEq'] at hone
    exact hone _ (List.mem_of_getElem? hk) _ (List.mem_of_getElem? hl) p q rfl rfl hregion
  · rw [hrow] at hrow'
    cases hrow'
    obtain ⟨hk', hkEq⟩ := List.getElem?_eq_some_iff.mp hk
    obtain ⟨hl', hlEq⟩ := List.getElem?_eq_some_iff.mp hl
    have hone := List.pairwise_iff_getElem.mp (hwithin row (List.mem_of_getElem? hrow))
      k l hk' hl' hlt
    rw [hkEq, hlEq] at hone
    exact hone p q rfl rfl hregion

/-- **Sections are placed apart from each other.** -/
theorem apart_of_mergeSections {options : LinkOptions} {objects : List ObjectFile} {layout : Layout}
    (hmerge : mergeSections options objects = .ok layout) {i k j l : ℕ} {s t : Section}
    {p q : Placement} (hs : InRow objects layout i k s p) (ht : InRow objects layout j l t q)
    (hne : ¬(i = j ∧ k = l)) (hregion : p.region = q.region) :
    p.offset.toNat + s.size.toNat ≤ q.offset.toNat ∨
      q.offset.toNat + t.size.toNat ≤ p.offset.toNat := by
  have hcases : (i < j ∨ i = j ∧ k < l) ∨ (j < i ∨ j = i ∧ l < k) := by omega
  rcases hcases with hlt | hlt
  · exact Or.inl (hs.before hmerge ht hlt hregion)
  · exact Or.inr (ht.before hmerge hs hlt hregion.symm)

end Linker
end MiniTool
