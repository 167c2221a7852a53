import MiniToolchain.Linker.Merge

/-!
# What applying relocations gives

Every relocation replaces one field of one stored region, so the layout stays as merging left it.

## Main definitions

* `Layout.Patched` — the same layout with other bytes in the regions.

## Main results

* `relocate_cases` — what one relocation does.
* `patched_of_applyRelocations` — all of them.
-/

namespace MiniTool
namespace Linker

open Object Bounds

/-- The same region with other bytes. -/
structure Region.Patched (a b : Region) : Prop where
  same : a.Same b
  size : b.size = a.size
  length : b.data.length = a.data.length

theorem Region.Patched.refl (region : Region) : region.Patched region := ⟨.refl region, rfl, rfl⟩

theorem Region.Patched.trans {a b c : Region} (h : a.Patched b) (h' : b.Patched c) : a.Patched c :=
  ⟨h.same.trans h'.same, h'.size.trans h.size, h'.length.trans h.length⟩

/-- The same layout with other bytes in the regions. -/
structure Layout.Patched (a b : Layout) : Prop where
  placements : b.placements = a.placements
  regions : List.Forall₂ Region.Patched a.regions b.regions

theorem Layout.Patched.refl (layout : Layout) : layout.Patched layout :=
  ⟨rfl, List.forall₂_same.mpr fun region _ => .refl region⟩

/-- A region of a patched layout, and what it was. -/
theorem Layout.Patched.getElem? {a b : Layout} (h : a.Patched b) {i : ℕ} {region : Region}
    (hregion : b.regions[i]? = some region) :
    ∃ before, a.regions[i]? = some before ∧ before.Patched region := by
  obtain ⟨hlt, heq⟩ := List.getElem?_eq_some_iff.mp hregion
  have hlength := h.regions.length_eq
  refine ⟨a.regions[i], List.getElem?_eq_getElem (by omega), ?_⟩
  have := h.regions.get (by omega) hlt
  simpa [← heq] using this

theorem Layout.Patched.getElem?_left {a b : Layout} (h : a.Patched b) {i : ℕ} {region : Region}
    (hregion : a.regions[i]? = some region) :
    ∃ after, b.regions[i]? = some after ∧ region.Patched after := by
  obtain ⟨hlt, heq⟩ := List.getElem?_eq_some_iff.mp hregion
  have hlength := h.regions.length_eq
  refine ⟨b.regions[i], List.getElem?_eq_getElem (by omega), ?_⟩
  have := h.regions.get hlt (by omega)
  simpa [← heq] using this

/-- An element that was found. -/
theorem getElem?_of_elementAt {α : Type} {xs : List α} {i : ℕ} {x : α}
    (h : elementAt xs i = .ok x) : xs[i]? = some x := by
  unfold elementAt at h
  split at h
  · next hget =>
    cases h
    exact hget
  · cases h

/-- What one relocation does. -/
theorem relocate_cases {symbols : Symbols} {objectIndex : ℕ} {object : ObjectFile}
    {layout layout' : Layout} {relocation : Relocation}
    (h : relocate symbols objectIndex object layout relocation = .ok layout') :
    ∃ placed placement region symbol address data,
      layout.placements[objectIndex]? = some placed ∧
      placed[relocation.sectionId.toNat]? = some (some placement) ∧
      layout.regions[placement.region]? = some region ∧ region.zeroFilled = false ∧
      object.symbols.symbols[relocation.symbol]? = some symbol ∧
      targetOf layout symbols objectIndex object symbol = .ok address ∧
      applyRelocation region.data region.base
        { relocation with offset := placement.offset + relocation.offset } address =
          some (.ok data) ∧
      layout' =
        { layout with regions := layout.regions.set placement.region { region with data } } := by
  unfold relocate at h
  split_ifs at h
  · cases h
  obtain ⟨placed, hplaced, h⟩ := Checked.bind_eq_ok.mp h
  obtain ⟨found, hfound, h⟩ := Checked.bind_eq_ok.mp h
  cases found with
  | none => cases h
  | some placement =>
    obtain ⟨region, hregion, h⟩ := Checked.bind_eq_ok.mp h
    split_ifs at h with hzero
    · cases h
    obtain ⟨symbol, hsymbol, h⟩ := Checked.bind_eq_ok.mp h
    obtain ⟨address, haddress, h⟩ := Checked.bind_eq_ok.mp h
    dsimp only at h
    split at h
    · cases h
    · cases h
    · next data hdata =>
      cases h
      exact ⟨placed, placement, region, symbol, address, data, getElem?_of_elementAt hplaced,
        getElem?_of_elementAt hfound, getElem?_of_elementAt hregion,
        Bool.eq_false_iff.mpr hzero, getElem?_of_elementAt hsymbol, haddress, hdata, rfl⟩

theorem Layout.Patched.relocate {symbols : Symbols} {objectIndex : ℕ} {object : ObjectFile}
    {start layout layout' : Layout} {relocation : Relocation} (h : start.Patched layout)
    (hstep : relocate symbols objectIndex object layout relocation = .ok layout') :
    start.Patched layout' := by
  obtain ⟨_, placement, region, _, _, data, -, -, hregion, -, -, -, hdata, rfl⟩ :=
    relocate_cases hstep
  have hone : region.Patched { region with data } :=
    ⟨⟨rfl, rfl, rfl, rfl, rfl, rfl⟩, rfl, length_of_applyRelocation hdata⟩
  refine ⟨h.placements, ?_⟩
  have hset : ∀ {before after : List Region} {i : ℕ}, List.Forall₂ Region.Patched before after →
      after[i]? = some region →
      List.Forall₂ Region.Patched before (after.set i { region with data }) := by
    intro before after i hall
    induction hall generalizing i with
    | nil => exact fun _ => .nil
    | cons hfirst hrest ih =>
      intro hget
      cases i with
      | zero =>
        cases hget
        exact .cons (hfirst.trans hone) hrest
      | succ i => exact .cons hfirst (ih hget)
  exact hset h.regions hregion

/-- Applying all relocations. -/
theorem patched_of_applyRelocations {symbols : Symbols} {objects : List ObjectFile}
    {layout layout' : Layout} (h : applyRelocations symbols objects layout = .ok layout') :
    layout.Patched layout' := by
  refine Checked.foldlM_induction (p := layout.Patched) ?_ (.refl layout) h
  intro state entry state' _ hstate hstep
  exact Checked.foldlM_induction (p := layout.Patched)
    (fun _ _ _ _ hkeep hone => hkeep.relocate hone) hstate hstep

theorem Region.Patched.sound {a b : Region} (h : a.Patched b) (ha : a.Sound) : b.Sound where
  size_le := by
    rw [h.size]
    exact ha.size_le
  data := by
    intro hzero
    rw [h.length, h.size]
    exact ha.data (h.same.zeroFilled ▸ hzero)
  zeros := by
    intro hzero
    have hnil := ha.zeros (h.same.zeroFilled ▸ hzero)
    have hlength := h.length
    rw [hnil] at hlength
    exact List.eq_nil_of_length_eq_zero hlength

/-- The regions of a layout that merging and relocation gave. -/
theorem regions_of_link {options : LinkOptions} {objects : List ObjectFile}
    {layout layout' : Layout} {symbols : Symbols}
    (hmerge : mergeSections options objects = .ok layout)
    (hpatch : applyRelocations symbols objects layout = .ok layout') :
    List.Forall₂ Region.Same (initRegions options) layout'.regions ∧
      ∀ region ∈ layout'.regions, region.Sound := by
  have hmerged := merged_of_mergeSections hmerge
  have hpatched := patched_of_applyRelocations hpatch
  constructor
  · have htrans : ∀ {as bs cs : List Region}, List.Forall₂ Region.Same as bs →
        List.Forall₂ Region.Patched bs cs → List.Forall₂ Region.Same as cs := by
      intro as bs cs hab
      induction hab generalizing cs with
      | nil =>
        intro hbc
        cases hbc
        exact .nil
      | cons hfirst _ ih =>
        intro hbc
        cases hbc with
        | cons hone hrest => exact .cons (hfirst.trans hone.same) (ih hrest)
    exact htrans hmerged.same hpatched.regions
  · intro region hregion
    obtain ⟨i, hi⟩ := List.mem_iff_getElem?.mp hregion
    obtain ⟨before, hbefore, hone⟩ := hpatched.getElem? hi
    exact hone.sound (hmerged.sound before (List.mem_of_getElem? hbefore))

end Linker
end MiniTool
