import MiniToolchain.Linker.Resolve
import MiniToolchain.Object.InPlace

/-!
# The relocated fields of an image

Each relocation finds the bytes its object holds, and what it leaves in their place stays until the
end, since the fields of the relocations have no byte in common.

## Main definitions

* `FieldsApart` — two relocations of an object have no byte in common.

## Main results

* `separate_turns` — nor have two relocations of a link.
* `relocated_of_link` — the image holds the value of each relocation.
-/

namespace MiniTool
namespace Linker

open Object Bounds

/-- Two relocations of an object have no byte in common. -/
def FieldsApart (r r' : Relocation) : Prop :=
  r.sectionId.toNat = r'.sectionId.toNat →
    r.offset.toNat + relocationWidth r.type ≤ r'.offset.toNat ∨
      r'.offset.toNat + relocationWidth r'.type ≤ r.offset.toNat

section

variable {options : LinkOptions} {objects : List ObjectFile} {executable : Executable} {i k : ℕ}
  {object : ObjectFile} {s : Section} {address : UInt64}

theorem mem_turns {t : (ObjectFile × ℕ) × Relocation} :
    t ∈ turns objects ↔ objects[t.1.2]? = some t.1.1 ∧ t.2 ∈ t.1.1.relocations := by
  unfold turns
  rw [List.mem_flatMap]
  constructor
  · rintro ⟨entry, hentry, hmem⟩
    obtain ⟨relocation, hrelocation, rfl⟩ := List.mem_map.mp hmem
    exact ⟨List.mem_zipIdx_iff_getElem?.mp hentry, hrelocation⟩
  · rintro ⟨hobject, hrelocation⟩
    exact ⟨t.1, List.mem_zipIdx_iff_getElem?.mpr hobject, List.mem_map_of_mem hrelocation⟩

/-- The fields of two relocations are apart when the relocations of one object are. -/
theorem apart_of_turns {layout : Layout} (hmerge : mergeSections options objects = .ok layout)
    (hwf : ∀ o ∈ objects, o.WellFormed) {t u : (ObjectFile × ℕ) × Relocation}
    (ht : t ∈ turns objects) (hu : u ∈ turns objects)
    (hfree : t.1.2 = u.1.2 → FieldsApart t.2 u.2) :
    (fieldOf layout t).Apart (fieldOf layout u) := by
  obtain ⟨hobject, hrelocation⟩ := mem_turns.mp hu
  have hobjectWf := hwf _ (List.mem_of_getElem? hobject)
  obtain ⟨-, section_, hsection, hin⟩ := hobjectWf.relocations _ hrelocation
  have hmemory := hobjectWf.memory section_ (List.mem_of_getElem? hsection)
  cases hat : layout.placementAt u.1.2 u.2.sectionId.toNat with
  | none =>
    have hnone : fieldOf layout u = { region := 0, offset := 0, width := 0 } := by
      unfold fieldOf
      rw [hat]
    intro _
    rw [hnone]
    exact Or.inr (Nat.zero_le _)
  | some placement =>
    have hapart := @apart_fieldOf options objects u.1.2 u.2.sectionId.toNat u.1.1 section_ layout
      hmerge hwf hobject hsection placement hat u.2.offset.toNat (relocationWidth u.2.type)
      (by omega) t ht hfree
    obtain ⟨-, region, hget, -, hle, -⟩ := placedAt_of_placement hmerge hobject hsection hat
    have hcap : kRegionSize.toNat = 0xF0000 := rfl
    have hsize :=
      ((merged_of_mergeSections hmerge).sound region (List.mem_of_getElem? hget)).size_le
    have hsum : (placement.offset + u.2.offset).toNat =
        placement.offset.toNat + u.2.offset.toNat := by
      rw [UInt64.toNat_add, Nat.mod_eq_of_lt (by omega)]
    have hfield : fieldOf layout u =
        { region := placement.region, offset := placement.offset.toNat + u.2.offset.toNat
          width := relocationWidth u.2.type } := by
      unfold fieldOf
      rw [hat]
      dsimp only
      rw [hsum]
    rw [hfield]
    exact hapart

/-- **No two relocations of a link have a byte in common.** -/
theorem separate_turns {layout : Layout} (hmerge : mergeSections options objects = .ok layout)
    (hwf : ∀ o ∈ objects, o.WellFormed)
    (hfree : ∀ o ∈ objects, o.relocations.Pairwise FieldsApart) :
    Frame.Separate (fieldOf layout) Field.Apart (turns objects) := by
  have hboth : ∀ t ∈ turns objects, ∀ u ∈ turns objects, (t.1.2 = u.1.2 → FieldsApart t.2 u.2) →
      (fieldOf layout t).Apart (fieldOf layout u) ∧
      (fieldOf layout u).Apart (fieldOf layout t) := by
    intro t ht u hu hapart
    have hone := apart_of_turns hmerge hwf ht hu hapart
    exact ⟨hone, hone.symm⟩
  have hpairs : (turns objects).Pairwise fun t u => t.1.2 = u.1.2 → FieldsApart t.2 u.2 := by
    unfold turns
    rw [List.pairwise_flatMap]
    constructor
    · intro entry hentry
      rw [List.pairwise_map]
      have hobject := List.mem_of_getElem? (List.mem_zipIdx_iff_getElem?.mp hentry)
      refine (hfree _ hobject).imp ?_
      intro r r' hone _
      exact hone
    · -- different objects have different numbers
      rw [List.pairwise_iff_getElem]
      intro a b ha hb hlt t ht u hu heq
      obtain ⟨_, -, rfl⟩ := List.mem_map.mp ht
      obtain ⟨_, -, rfl⟩ := List.mem_map.mp hu
      simp only [List.getElem_zipIdx] at heq
      omega
  exact hpairs.imp_of_mem fun ht hu => hboth _ ht _ hu

/-- **The image holds the value of each relocation.** -/
theorem relocated_of_link (hwf : ∀ o ∈ objects, o.WellFormed) (hplain : PlainBindings objects)
    (hfree : ∀ o ∈ objects, o.relocations.Pairwise FieldsApart)
    (hlink : link objects options = .ok executable) (hobject : objects[i]? = some object)
    (hs : object.sections[k]? = some s)
    (haddress : sectionAddress options objects i k = some address) {r : Relocation}
    (hr : r ∈ object.relocations) (hk : r.sectionId.toNat = k) :
    ∃ symbol target field field', object.symbols.symbols[r.symbol]? = some symbol ∧
      finalAddress options objects (objects.map fun o => o.symbols.find) i symbol.name =
        some target ∧
      subspan (resize s.data s.size.toNat) r.offset.toNat (relocationWidth r.type) = some field ∧
      executable.bytesAt (address + r.offset) (relocationWidth r.type) = some field' ∧
      Holds r.type field field' (target + r.addend.toUInt64) (address + r.offset) := by
  obtain ⟨-, layout, symbols, patched, hmerge, hresolve, hpatch, hbuild⟩ := link_cases hlink
  obtain ⟨placement, region, hplacement, hregion, rfl⟩ :=
    placement_of_sectionAddress hmerge haddress
  obtain ⟨-, _, hget, htype, hin, hdata⟩ := placedAt_of_placement hmerge hobject hs hplacement
  rw [hregion] at hget
  cases hget
  have hpatched := patched_of_applyRelocations hpatch
  -- the field lies in the section
  have hobjectWf := hwf object (List.mem_of_getElem? hobject)
  obtain ⟨-, _, hsection, hfits⟩ := hobjectWf.relocations r hr
  rw [hk, hs] at hsection
  cases hsection
  have hmemory := hobjectWf.memory s (List.mem_of_getElem? hs)
  have hcap : kRegionSize.toNat = 0xF0000 := rfl
  have hsize := ((merged_of_mergeSections hmerge).sound region
    (List.mem_of_getElem? hregion)).size_le
  have hsum : (placement.offset + r.offset).toNat = placement.offset.toNat + r.offset.toNat := by
    rw [UInt64.toNat_add, Nat.mod_eq_of_lt (by omega)]
  -- the turn of the relocation
  have ht : ((object, i), r) ∈ turns objects := mem_turns.mpr ⟨hobject, hr⟩
  rw [applyRelocations_eq] at hpatch
  obtain ⟨before, after, hbefore, hturn, hfound, hleft⟩ := (framed_turn symbols layout).exists_turn
    (separate_turns hmerge hwf hfree) (.refl layout) hpatch ht
  obtain ⟨placed, placement', old, symbol, target, data, hplaced, hplacement', hold, hzero, hsymbol,
    htarget, happly, rfl⟩ := relocate_cases hturn
  have hat : layout.placementAt i k = some placement' := by
    rw [hbefore.placements] at hplaced
    exact placementAt_eq_some.mpr ⟨placed, hplaced, hk ▸ hplacement'⟩
  rw [hplacement] at hat
  cases hat
  have hfield : fieldOf layout ((object, i), r) =
      { region := placement.region, offset := (placement.offset + r.offset).toNat
        width := relocationWidth r.type } := by
    unfold fieldOf
    dsimp only
    rw [hk, hplacement]
  obtain ⟨-, -, field, field', hsub, hsub', hholds⟩ := relocated_of_applyRelocation happly
  obtain ⟨region', hregion', hone⟩ := hbefore.getElem? hold
  rw [hregion] at hregion'
  cases hregion'
  obtain ⟨last, hlast, htwo⟩ := hpatched.getElem?_left hregion
  have hlt := (List.getElem?_eq_some_iff.mp hold).1
  -- what it found, and what it left
  rw [hfield] at hfound hleft
  unfold Field.read at hfound hleft
  dsimp only at hfound hleft
  rw [hold, hregion, Option.bind_some, Option.bind_some] at hfound
  rw [hlast, List.getElem?_set_self hlt, Option.bind_some, Option.bind_some] at hleft
  have hsymbolFind : object.symbols.find symbol.name = some symbol :=
    SymbolTable.find_of_mem (List.mem_of_getElem? hsymbol)
  have hlastZero : last.zeroFilled = false := by
    rw [htwo.same.zeroFilled, ← hone.same.zeroFilled, hzero]
  have hplace : region.base + placement.offset + r.offset =
      last.base + UInt64.ofNat (placement.offset + r.offset).toNat := by
    rw [htwo.same.base, UInt64.add_assoc, UInt64.ofNat_toNat]
  refine ⟨symbol, target, field, field', hsymbol,
    finalAddress_of_targetOf hmerge hbefore hplain hresolve hobject hsymbolFind htarget, ?_, ?_, ?_⟩
  · rw [← subspan_of_subspan (hdata (by rw [← hone.same.zeroFilled, hzero])) (by omega), ← hsum,
      ← hfound]
    exact hsub
  · have hwidth : 0 < relocationWidth r.type := by
      cases r.type <;> decide
    rw [hplace, bytesAt_of_region hbuild (List.mem_of_getElem? hlast) hlastZero hwidth
      (by rw [htwo.size, hsum]; omega), hleft]
    exact hsub'
  · rw [UInt64.add_assoc, ← hone.same.base]
    exact hholds

end

end Linker
end MiniTool
