import MiniToolchain.Linker.Fields
import MiniToolchain.Linker.Load
import MiniToolchain.Object.ObjectIo

/-!
# The image of a link

What the segments of a linked executable hold where a section was placed.

## Main definitions

* `bytesAt` — the bytes an executable holds at an address.
* `sectionAddress` — where a link puts a section.

## Main results

* `bytesAt_of_region` — a segment holds the bytes of its region.
* `bytesAt_of_link` — what no relocation refers to is copied.
-/

namespace MiniTool

open Bounds

namespace Executable

/-- The bytes from an address on, in the segment that holds the address. -/
def bytesAt (executable : Executable) (address : UInt64) (count : ℕ) : Option (List UInt8) :=
  (executable.findSegment address).bind fun segment =>
    subspan segment.data (address - segment.virtualAddress).toNat count

/-- An address is in one segment at most. -/
theorem findSegment_of_apart {executable : Executable}
    (hsegments : ∀ s ∈ executable.segments, s.Valid)
    (hapart : executable.segments.Pairwise fun a b => overlap a b = false) {segment : Segment}
    (hsegment : segment ∈ executable.segments) (offset : UInt64)
    (hin : offset < segment.virtualSize) :
    executable.findSegment (segment.virtualAddress + offset) = some segment := by
  have hnowrap : ∀ s ∈ executable.segments,
      s.virtualAddress.toNat + s.virtualSize.toNat < 2 ^ 64 := by
    intro s hs
    have hs := (hsegments s hs).noWrap
    have hlt := s.virtualSize.toNat_lt
    have hsub : (0xFFFFFFFFFFFFFFFF - s.virtualSize).toNat = 2 ^ 64 - 1 - s.virtualSize.toNat :=
      UInt64.toNat_sub_of_le _ _ (UInt64.le_iff_toNat_le.mpr (Nat.le_of_lt_succ hlt))
    rw [gt_iff_lt, UInt64.lt_iff_toNat_lt] at hs
    omega
  have hadd : (segment.virtualAddress + offset).toNat =
      segment.virtualAddress.toNat + offset.toNat := by
    have hthis := hnowrap segment hsegment
    rw [UInt64.lt_iff_toNat_lt] at hin
    rw [UInt64.toNat_add, Nat.mod_eq_of_lt (by omega)]
  rw [UInt64.lt_iff_toNat_lt] at hin
  -- the search ends somewhere, and two segments with an address in common overlap
  have hmatch : ∀ s : Segment, (segment.virtualAddress + offset ≥ s.virtualAddress &&
      segment.virtualAddress + offset - s.virtualAddress < s.virtualSize) = true ↔
      s.virtualAddress.toNat ≤ segment.virtualAddress.toNat + offset.toNat ∧
        segment.virtualAddress.toNat + offset.toNat <
          s.virtualAddress.toNat + s.virtualSize.toNat := by
    intro s
    rw [Bool.and_eq_true, decide_eq_true_iff, decide_eq_true_iff, ge_iff_le,
      UInt64.le_iff_toNat_le, hadd]
    constructor
    · rintro ⟨hle, hlt⟩
      rw [UInt64.lt_iff_toNat_lt, UInt64.toNat_sub_of_le _ _
        (UInt64.le_iff_toNat_le.mpr (by rw [hadd]; exact hle)), hadd] at hlt
      exact ⟨hle, by omega⟩
    · rintro ⟨hle, hlt⟩
      rw [UInt64.lt_iff_toNat_lt, UInt64.toNat_sub_of_le _ _
        (UInt64.le_iff_toNat_le.mpr (by rw [hadd]; exact hle)), hadd]
      exact ⟨hle, by omega⟩
  cases hfind : executable.findSegment (segment.virtualAddress + offset) with
  | none =>
    exact absurd ((hmatch segment).mpr ⟨by omega, by omega⟩)
      (List.find?_eq_none.mp hfind segment hsegment)
  | some other =>
    have hother := List.mem_of_find?_eq_some hfind
    have hin := List.find?_some hfind
    obtain ⟨hle, hlt⟩ := (hmatch other).mp hin
    by_contra hne
    have hsymm : Std.Symm fun a b : Segment => overlap a b = false := by
      constructor
      intro a b hab
      unfold overlap at hab ⊢
      rw [Bool.and_comm]
      exact hab
    have hclear := hapart.forall hother hsegment (by
      intro heq
      exact hne (congrArg some heq))
    have hfirst := hnowrap segment hsegment
    have hsecond := hnowrap other hother
    unfold overlap at hclear
    rw [Bool.and_eq_false_iff, decide_eq_false_iff_not, decide_eq_false_iff_not,
      UInt64.lt_iff_toNat_lt, UInt64.lt_iff_toNat_lt, UInt64.toNat_add, UInt64.toNat_add,
      Nat.mod_eq_of_lt hfirst, Nat.mod_eq_of_lt hsecond] at hclear
    omega

end Executable

namespace Linker

open Object Executable

/-! ### Regions -/

/-- Only the region of `.bss` stores no bytes. -/
theorem zeroFilled_of_same {options : LinkOptions} {regions : List Region}
    (hsame : List.Forall₂ Region.Same (initRegions options) regions) {region : Region}
    (hregion : region ∈ regions) : region.zeroFilled = decide (region.type = .bss) := by
  obtain ⟨i, hi, rfl⟩ := List.mem_iff_getElem.mp hregion
  have hlength := hsame.length_eq
  have hone := hsame.get (by omega) hi
  have hstart : ∀ start ∈ initRegions options, start.zeroFilled = decide (start.type = .bss) := by
    intro start hmem
    simp only [initRegions, List.mem_cons, List.not_mem_nil, or_false] at hmem
    rcases hmem with rfl | rfl | rfl | rfl <;> rfl
  have hthis := hstart _ (List.get_mem _ ⟨i, by omega⟩)
  rw [← hone.zeroFilled, ← hone.type] at hthis
  exact hthis

/-- Where a section is put: the address of its first byte. -/
def sectionAddress (options : LinkOptions) (objects : List ObjectFile) (i k : ℕ) : Option UInt64 :=
  match mergeSections options objects with
  | .error _ => none
  | .ok layout => (layout.placementAt i k).bind fun placement =>
      (layout.regions[placement.region]?).map fun region => region.base + placement.offset

/-- A segment holds the bytes of its region. -/
theorem bytesAt_of_region {options : LinkOptions} {layout : Layout} {symbols : Symbols}
    {objects : List ObjectFile} {executable : Executable}
    (hbuild : buildExecutable options layout symbols objects = .ok executable) {region : Region}
    (hregion : region ∈ layout.regions) (hzero : region.zeroFilled = false)
    {offset count : ℕ} (hcount : 0 < count) (hfits : offset + count ≤ region.size.toNat) :
    executable.bytesAt (region.base + UInt64.ofNat offset) count =
      subspan region.data offset count := by
  obtain ⟨_, _, -, -, rfl, hvalidate⟩ := buildExecutable_cases hbuild
  have hvalid := validate_eq_ok.mp hvalidate
  have hsize := region.size.toNat_lt
  have hoffset : (UInt64.ofNat offset).toNat = offset :=
    UInt64.toNat_ofNat_of_lt' (by simp only [UInt64.size]; omega)
  have hmem : segmentOf region ∈
      (layout.regions.filter fun region => region.size ≠ 0).map segmentOf := by
    apply List.mem_map_of_mem
    rw [List.mem_filter]
    refine ⟨hregion, decide_eq_true ?_⟩
    intro hnone
    rw [hnone] at hfits
    have hnothing : (0 : UInt64).toNat = 0 := rfl
    omega
  have hfind := findSegment_of_apart hvalid.segments hvalid.apart hmem (UInt64.ofNat offset) (by
    show UInt64.ofNat offset < region.size
    rw [UInt64.lt_iff_toNat_lt, hoffset]
    omega)
  have hbase : (segmentOf region).virtualAddress = region.base := rfl
  rw [hbase] at hfind
  unfold bytesAt
  rw [hfind, Option.bind_some, hbase, UInt64.add_comm region.base, UInt64.add_sub_cancel, hoffset]
  unfold segmentOf
  dsimp only
  rw [if_neg (by rw [hzero]; decide)]

/-! ### Sections -/

section

variable {options : LinkOptions} {objects : List ObjectFile} {executable : Executable} {i k : ℕ}
  {object : ObjectFile} {s : Section} {address : UInt64}

/-- What the address of a section says about the layout. -/
theorem placement_of_sectionAddress {layout : Layout}
    (hmerge : mergeSections options objects = .ok layout)
    (haddress : sectionAddress options objects i k = some address) :
    ∃ placement region, layout.placementAt i k = some placement ∧
      layout.regions[placement.region]? = some region ∧ address = region.base +
        placement.offset := by
  unfold sectionAddress at haddress
  rw [hmerge] at haddress
  obtain ⟨placement, hplacement, hmap⟩ := Option.bind_eq_some_iff.mp haddress
  obtain ⟨region, hregion, rfl⟩ := Option.map_eq_some_iff.mp hmap
  exact ⟨placement, region, hplacement, hregion, rfl⟩

/-- What holds of every section and its placement. -/
theorem of_placement {layout : Layout} {r : Section → Option Placement → Prop}
    (hrows : List.Forall₂ (fun object => List.Forall₂ r object.sections) objects layout.placements)
    (hobject : objects[i]? = some object) (hs : object.sections[k]? = some s)
    {placement : Placement} (hplacement : layout.placementAt i k = some placement) :
    r s (some placement) := by
  obtain ⟨placed, hplaced, hk⟩ := placementAt_eq_some.mp hplacement
  obtain ⟨hi, rfl⟩ := List.getElem?_eq_some_iff.mp hobject
  obtain ⟨hi', rfl⟩ := List.getElem?_eq_some_iff.mp hplaced
  obtain ⟨hlt, rfl⟩ := List.getElem?_eq_some_iff.mp hs
  obtain ⟨hlt', heq⟩ := List.getElem?_eq_some_iff.mp hk
  have hone := (hrows.get hi hi').get hlt hlt'
  have hplaced : (layout.placements.get ⟨i, hi'⟩).get ⟨k, hlt'⟩ = some placement := heq
  rw [hplaced] at hone
  exact hone

/-- A section that is placed is in its region, with its bytes. -/
theorem placedAt_of_placement {layout : Layout}
    (hmerge : mergeSections options objects = .ok layout) (hobject : objects[i]? = some object)
    (hs : object.sections[k]? = some s) {placement : Placement}
    (hplacement : layout.placementAt i k = some placement) :
    PlacedAt layout.regions s (some placement) :=
  of_placement (placedAt_of_mergeSections hmerge) hobject hs hplacement

/-- The field of a relocation is apart from what its section holds elsewhere, and from the other
sections. -/
theorem apart_fieldOf {layout : Layout} (hmerge : mergeSections options objects = .ok layout)
    (hwf : ∀ o ∈ objects, o.WellFormed) (hobject : objects[i]? = some object)
    (hs : object.sections[k]? = some s) {placement : Placement}
    (hplacement : layout.placementAt i k = some placement) {offset count : ℕ}
    (hfits : offset + count ≤ s.size.toNat) {t : (ObjectFile × ℕ) × Relocation}
    (ht : t ∈ turns objects)
    (hfree : t.1.2 = i → t.2.sectionId.toNat = k →
      t.2.offset.toNat + relocationWidth t.2.type ≤ offset ∨ offset + count ≤ t.2.offset.toNat) :
    (fieldOf layout t).Apart
      { region := placement.region, offset := placement.offset.toNat + offset,
        width := count } := by
  obtain ⟨⟨other, j⟩, relocation⟩ := t
  obtain ⟨entry, hentry, hmem⟩ := List.mem_flatMap.mp ht
  obtain ⟨_, hrelocation, heq⟩ := List.mem_map.mp hmem
  cases heq
  have hother : objects[j]? = some other := List.mk_mem_zipIdx_iff_getElem?.mp hentry
  have hotherWf := hwf other (List.mem_of_getElem? hother)
  obtain ⟨-, section_, hsection, hin⟩ := hotherWf.relocations relocation hrelocation
  intro hregion
  unfold fieldOf at hregion ⊢
  dsimp only at hregion hfree ⊢
  cases hat : layout.placementAt j relocation.sectionId.toNat with
  | none =>
    -- a relocation without a placement updates nothing
    exact Or.inl (Nat.zero_le _)
  | some placed =>
    rw [hat] at hregion
    dsimp only at hregion ⊢
    have hmemory := hotherWf.memory section_ (List.mem_of_getElem? hsection)
    obtain ⟨-, region, hget, -, hle, -⟩ := placedAt_of_placement hmerge hother hsection hat
    have hcap : kRegionSize.toNat = 0xF0000 := rfl
    have hsize :=
      ((merged_of_mergeSections hmerge).sound region (List.mem_of_getElem? hget)).size_le
    have hsum : (placed.offset + relocation.offset).toNat =
        placed.offset.toNat + relocation.offset.toNat := by
      rw [UInt64.toNat_add, Nat.mod_eq_of_lt (by omega)]
    rw [hsum]
    by_cases hsame : j = i ∧ relocation.sectionId.toNat = k
    · obtain ⟨rfl, rfl⟩ := hsame
      rw [hat] at hplacement
      cases hplacement
      rcases hfree rfl rfl with hfree | hfree
      · left
        omega
      · right
        omega
    · have hapart := apart_of_mergeSections hmerge ⟨⟨other, hother, hsection⟩, hat⟩
        ⟨⟨object, hobject, hs⟩, hplacement⟩ hsame hregion
      omega

/-- **What no relocation refers to is copied into the image.** -/
theorem bytesAt_of_link (hwf : ∀ o ∈ objects, o.WellFormed)
    (hlink : link objects options = .ok executable) (hobject : objects[i]? = some object)
    (hs : object.sections[k]? = some s) (hbss : s.type ≠ .bss)
    (haddress : sectionAddress options objects i k = some address) {offset count : ℕ}
    (hcount : 0 < count) (hfits : offset + count ≤ s.size.toNat)
    (hfree : ∀ r ∈ object.relocations, r.sectionId.toNat = k →
      r.offset.toNat + relocationWidth r.type ≤ offset ∨ offset + count ≤ r.offset.toNat) :
    executable.bytesAt (address + UInt64.ofNat offset) count =
      subspan (resize s.data s.size.toNat) offset count := by
  obtain ⟨-, layout, symbols, patched, hmerge, -, hpatch, hbuild⟩ := link_cases hlink
  obtain ⟨placement, region, hplacement, hregion, rfl⟩ :=
    placement_of_sectionAddress hmerge haddress
  obtain ⟨-, _, hget, htype, hin, hdata⟩ := placedAt_of_placement hmerge hobject hs hplacement
  rw [hregion] at hget
  cases hget
  have hpatched := patched_of_applyRelocations hpatch
  obtain ⟨after, hafter, hone⟩ := hpatched.getElem?_left hregion
  have hsame := (regions_of_link hmerge hpatch).1
  have hmem := List.mem_of_getElem? hafter
  have hzero : after.zeroFilled = false := by
    rw [zeroFilled_of_same hsame hmem, hone.same.type, htype]
    exact decide_eq_false hbss
  -- the relocations leave the bytes alone
  let field : Field :=
    { region := placement.region, offset := placement.offset.toNat + offset, width := count }
  have hread : field.read patched = field.read layout := by
    rw [applyRelocations_eq] at hpatch
    refine (framed_turn symbols layout).read_foldlM ?_ (.refl layout) hpatch
    intro t ht
    refine apart_fieldOf hmerge hwf hobject hs hplacement hfits ht ?_
    rintro rfl hk
    obtain ⟨entry, hentry, hmap⟩ := List.mem_flatMap.mp ht
    obtain ⟨relocation, hrelocation, rfl⟩ := List.mem_map.mp hmap
    have hobject' : objects[entry.2]? = some entry.1 := List.mem_zipIdx_iff_getElem?.mp hentry
    rw [hobject] at hobject'
    cases hobject'
    exact hfree relocation hrelocation hk
  unfold Field.read at hread
  dsimp only [field] at hread
  rw [hafter, hregion, Option.bind_some, Option.bind_some] at hread
  have hsum : region.base + placement.offset + UInt64.ofNat offset =
      after.base + UInt64.ofNat (placement.offset.toNat + offset) := by
    rw [hone.same.base, UInt64.add_assoc, UInt64.ofNat_add, UInt64.ofNat_toNat]
  rw [hsum, bytesAt_of_region hbuild hmem hzero hcount (by rw [hone.size]; omega),
    hread, subspan_of_subspan (hdata (hone.same.zeroFilled ▸ hzero)) hfits]

end

end Linker
end MiniTool
