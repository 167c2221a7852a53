import MiniToolchain.Linker.Image

/-!
# A link of one object

An object that has no two sections of one type is laid out section by section, each at the start of
its region.

## Main definitions

* `filled` — a region with the section of its type.

## Main results

* `regions_of_single` — the regions before relocation.
* `sectionAddress_single` — every section is where its region is.
-/

namespace MiniTool
namespace Linker

open Object Bounds

/-- The region with the section of its type, if there is one. -/
def filled (sections : List Section) (region : Region) : Region :=
  match sections.find? fun s => s.type = region.type with
  | some s => region.append s 0
  | none => region

theorem filled_eq_of_mem {sections : List Section} (hnodup : (sections.map Section.type).Nodup)
    {s : Section} (hs : s ∈ sections) {region : Region} (htype : s.type = region.type) :
    filled sections region = region.append s 0 := by
  have hfind : (sections.find? fun s => s.type = region.type) = some s := by
    induction sections with
    | nil => cases hs
    | cons first rest ih =>
      rw [List.map_cons, List.nodup_cons] at hnodup
      rcases List.mem_cons.mp hs with rfl | hs
      · rw [List.find?_cons_of_pos (by simpa using htype)]
      · have hne : first.type ≠ region.type := by
          intro heq
          refine hnodup.1 ?_
          rw [heq, ← htype]
          exact List.mem_map_of_mem hs
        rw [List.find?_cons_of_neg (by simpa using hne)]
        exact ih hnodup.2 hs
  unfold filled
  rw [hfind]

theorem filled_eq_self {sections : List Section} {region : Region}
    (hnone : ∀ s ∈ sections, s.type ≠ region.type) : filled sections region = region := by
  have hfind : (sections.find? fun s => s.type = region.type) = none := by
    rw [List.find?_eq_none]
    intro s hs
    simpa using hnone s hs
  unfold filled
  rw [hfind]

theorem alignUp_zero (alignment : UInt64) : alignUp 0 alignment = 0 := by
  apply UInt64.toNat_inj.mp
  rw [alignUp_toNat (by decide)]
  simp

/-- Appending to a region does not change its type. -/
theorem types_set {regions : List Region} {index : ℕ} {region : Region}
    (h : regions[index]? = some region) {s : Section} {offset : UInt64} :
    (regions.set index (region.append s offset)).map Region.type = regions.map Region.type := by
  apply List.ext_getElem?
  intro i
  rw [List.getElem?_map, List.getElem?_map, List.getElem?_set]
  split_ifs with hi hlt
  · subst hi
    rw [h]
    rfl
  · rw [List.getElem?_eq_none (by omega)]
  · rfl

/-- Merging the sections of one object, when no two have one type. -/
theorem filled_of_foldlM {sections : List Section} {regions regions' : List Region}
    {placed placed' : List (Option Placement)}
    (h : sections.foldlM mergeSection (regions, placed) = .ok (regions', placed'))
    (hsections : (sections.map Section.type).Nodup) (hregions : (regions.map Region.type).Nodup)
    (hnull : ∀ r ∈ regions, r.type ≠ .null)
    (hempty : ∀ r ∈ regions, ∀ s ∈ sections, s.type = r.type → r.size = 0)
    (hzero : ∀ placement, some placement ∈ placed → placement.offset = 0) :
    regions' = regions.map (filled sections) ∧
      ∀ placement, some placement ∈ placed' → placement.offset = 0 := by
  induction sections generalizing regions placed with
  | nil =>
    cases h
    refine ⟨?_, hzero⟩
    conv_lhs => rw [← List.map_id regions']
    exact List.map_congr_left fun r _ => (filled_eq_self fun s hs => by cases hs).symm
  | cons s sections ih =>
    obtain ⟨⟨regions₁, placed₁⟩, hone, hrest⟩ := Checked.bind_eq_ok.mp h
    obtain ⟨hnot, hsections'⟩ := List.nodup_cons.mp hsections
    rcases mergeSection_cases hone with ⟨htype, rfl, rfl⟩ | ⟨hnotNull, index, region, hregion,
      htype, -, -, rfl, rfl⟩
    · -- a null section has no region
      obtain ⟨rfl, hplaced⟩ := ih hrest hsections' hregions hnull
        (fun r hr t ht => hempty r hr t (List.mem_cons_of_mem _ ht)) (fun placement hmem => by
          rcases List.mem_append.mp hmem with hmem | hmem
          · exact hzero placement hmem
          · cases List.mem_singleton.mp hmem)
      refine ⟨List.map_congr_left fun r hr => ?_, hplaced⟩
      unfold filled
      rw [List.find?_cons_of_neg]
      simpa [htype] using (hnull r hr).symm
    · have hmem := List.mem_of_getElem? hregion
      have hsize : region.size = 0 := hempty region hmem s List.mem_cons_self htype.symm
      rw [hsize, alignUp_zero] at hrest
      have hset : ∀ r ∈ regions.set index (region.append s 0), r = region.append s 0 ∨
          r ∈ regions := by
        intro r hr
        exact (List.mem_or_eq_of_mem_set hr).symm
      have hnew : ∀ t ∈ sections, t.type ≠ region.type := by
        intro t ht heq
        refine hnot ?_
        rw [← htype, ← heq]
        exact List.mem_map_of_mem ht
      obtain ⟨rfl, hplaced⟩ := ih hrest hsections' (by rwa [types_set hregion])
        (fun r hr => by
          rcases hset r hr with rfl | hr
          · exact hnull region hmem
          · exact hnull r hr)
        (fun r hr t ht heq => by
          rcases hset r hr with rfl | hr
          · exact absurd heq (hnew t ht)
          · exact hempty r hr t (List.mem_cons_of_mem _ ht) heq)
        (fun placement hplacement => by
          rcases List.mem_append.mp hplacement with hplacement | hplacement
          · exact hzero placement hplacement
          · rw [Option.some.inj (List.mem_singleton.mp hplacement)])
      refine ⟨?_, hplaced⟩
      apply List.ext_getElem?
      intro i
      rw [List.getElem?_map, List.getElem?_map, List.getElem?_set]
      split_ifs with hi hlt
      · subst hi
        have hself : filled sections (region.append s 0) = region.append s 0 := filled_eq_self hnew
        rw [hregion, Option.map_some, Option.map_some, hself,
          filled_eq_of_mem hsections List.mem_cons_self htype.symm]
      · subst hi
        exact absurd (List.getElem?_eq_some_iff.mp hregion).1 hlt
      · cases hr : regions[i]? with
        | none => rfl
        | some r =>
          -- another region has another type
          have hne : s.type ≠ r.type := by
            intro heq
            obtain ⟨hlt, rfl⟩ := List.getElem?_eq_some_iff.mp hregion
            obtain ⟨hlt', rfl⟩ := List.getElem?_eq_some_iff.mp hr
            rw [← htype] at heq
            have hlt₁ : index < (regions.map Region.type).length := by rwa [List.length_map]
            have hlt₂ : i < (regions.map Region.type).length := by rwa [List.length_map]
            have htypes : (regions.map Region.type)[index] = (regions.map Region.type)[i] := by
              rw [List.getElem_map, List.getElem_map]
              exact heq
            exact hi (hregions.getElem_inj_iff.mp htypes)
          unfold filled
          rw [Option.map_some, Option.map_some, List.find?_cons_of_neg (by simpa using hne)]

section

variable {options : LinkOptions} {o : ObjectFile} {layout : Layout}

/-- **The regions of one object**, before relocation. -/
theorem regions_of_single (h : mergeSections options [o] = .ok layout)
    (hsections : (o.sections.map Section.type).Nodup) :
    layout.regions = (initRegions options).map (filled o.sections) ∧
      ∀ k placement, layout.placementAt 0 k = some placement → placement.offset = 0 := by
  obtain ⟨layout', hone, hrest⟩ := Checked.bind_eq_ok.mp h
  cases hrest
  obtain ⟨⟨regions, placed⟩, hmerge, hlayout⟩ := Checked.bind_eq_ok.mp hone
  cases hlayout
  obtain ⟨hregions, hplaced⟩ := filled_of_foldlM hmerge hsections
    (show [SectionType.text, .rodata, .data, .bss].Nodup by decide)
    (fun r hr => by
      simp only [initRegions, List.mem_cons, List.not_mem_nil, or_false] at hr
      rcases hr with rfl | rfl | rfl | rfl <;> exact SectionType.noConfusion)
    (fun r hr s _ _ => by
      simp only [initRegions, List.mem_cons, List.not_mem_nil, or_false] at hr
      rcases hr with rfl | rfl | rfl | rfl <;> rfl)
    (fun placement hmem => by cases hmem)
  refine ⟨hregions, fun k placement hat => ?_⟩
  obtain ⟨row, hrow, hk⟩ := placementAt_eq_some.mp hat
  cases hrow
  exact hplaced placement (List.mem_of_getElem? hk)

/-- **Every section is where its region is.** -/
theorem sectionAddress_single (h : mergeSections options [o] = .ok layout)
    (hsections : (o.sections.map Section.type).Nodup) {k : ℕ} {address : UInt64}
    (haddress : sectionAddress options [o] 0 k = some address) :
    ∃ i region, layout.regions[i]? = some region ∧ address = region.base ∧
      ∃ placement, layout.placementAt 0 k = some placement ∧ placement.region = i := by
  obtain ⟨placement, region, hplacement, hregion, rfl⟩ := placement_of_sectionAddress h haddress
  refine ⟨placement.region, region, hregion, ?_, placement, hplacement, rfl⟩
  rw [(regions_of_single h hsections).2 k placement hplacement, UInt64.add_zero]

end

/-! ### A link by stages -/

/-- A link, stage by stage. -/
theorem link_of_stages {objects : List ObjectFile} {options : LinkOptions} {layout : Layout}
    {symbols : Symbols} {patched : Layout} {executable : Executable} (hobjects : objects ≠ [])
    (hmerge : mergeSections options objects = .ok layout)
    (hresolve : resolveSymbols layout objects = .ok symbols)
    (hpatch : applyRelocations symbols objects layout = .ok patched)
    (hbuild : buildExecutable options patched symbols objects = .ok executable) :
    link objects options = .ok executable := by
  unfold link
  rw [if_neg hobjects, hmerge, Checked.ok_bind, hresolve, Checked.ok_bind, hpatch, Checked.ok_bind]
  exact hbuild

/-- A line table that is sorted stays as it is. -/
theorem buildDebugInfo_of_sorted {layout : Layout} {objects : List ObjectFile} {info : DebugInfo}
    (h : objects.zipIdx.foldlM (fun info entry =>
      entry.1.debugInfo.foldlM (addDebugEntry layout entry.2 entry.1) info) {} = .ok info)
    (hsorted : info.entries.Pairwise fun a b => decide (a.address ≤ b.address) = true) :
    buildDebugInfo layout objects = .ok info := by
  unfold buildDebugInfo
  rw [h, Checked.ok_bind, List.mergeSort_of_pairwise hsorted]
  rfl

end Linker
end MiniTool
