import MiniToolchain.Assembler.Alignment
import MiniToolchain.Linker.Lines

/-!
# Source mapping

Every instruction of every file has one entry in the line table of the executable, at its final
address, and there are no other entries: instructions do not overlap, so no two of them have one
address.

## Main definitions

* `Site` — an instruction of some files, and where it is in its section.
* `sites` — the instructions of all files, in order.
* `MappedTo` — an entry of the line table is for an instruction.

## Main results

* `lines_of_sites` — the debug entries of the objects are those of the instructions.
* `nodup_addresses` — no two instructions have one address.
* `source_mapping` — entries and instructions correspond.
-/

namespace MiniTool
namespace Assembler

open Object Linker Bounds AssemblyContext

/-- An instruction of some files: the file, the section and the offset. -/
structure Site where
  file : ℕ
  sectionIndex : ℕ
  offset : ℕ
  instruction : Ir.Instruction

/-- The instruction, if the item is one. -/
def siteOf (i k : ℕ) (p : ℕ × Ir.Item) : Option Site :=
  match p.2 with
  | .instruction instruction => some ⟨i, k, p.1, instruction⟩
  | _ => none

/-- The instructions of a file. -/
def moduleSites (i : ℕ) (m : Ir.Module) : List Site :=
  (orderedSections m).zipIdx.flatMap fun entry =>
    (placed entry.1.items).filterMap (siteOf i entry.2)

/-- The instructions of all files, in order. -/
def sites (modules : List Ir.Module) : List Site :=
  modules.zipIdx.flatMap fun entry => moduleSites entry.2 entry.1

/-- Where a link puts an instruction, and where it comes from. -/
def siteLine (options : LinkOptions) (objects : List ObjectFile) (modules : List Ir.Module)
    (site : Site) : Line where
  address := (sectionAddress options objects site.file site.sectionIndex).getD 0 +
    UInt64.ofNat site.offset
  file := ((modules[site.file]?).map Ir.Module.sourceName).getD []
  line := site.instruction.location.line
  column := site.instruction.location.column

/-- The entry is for the instruction at a position of `.text` of a file. -/
def MappedTo (options : LinkOptions) (objects : List ObjectFile) (modules : List Ir.Module)
    (executable : Executable) (place : ℕ × ℕ) (entry : Executable.DebugEntry) : Prop :=
  ∃ m source instruction, modules[place.1]? = some m ∧ m.findSection .text = some source ∧
    source.items[place.2]? = some (.instruction instruction) ∧
    ItemAt options objects place.1 m .text place.2 entry.address ∧
    executable.sourceFiles[entry.file.toNat]? = some m.sourceName ∧
    entry.line = instruction.location.line ∧ entry.column = instruction.location.column

/-! ### Sites -/

theorem siteOf_eq_some {i k : ℕ} {p : ℕ × Ir.Item} {site : Site} (h : siteOf i k p = some site) :
    p = (site.offset, .instruction site.instruction) ∧ site.file = i ∧ site.sectionIndex = k := by
  obtain ⟨offset, item⟩ := p
  unfold siteOf at h
  cases item with
  | instruction instruction =>
    cases h
    exact ⟨rfl, rfl, rfl⟩
  | _ => cases h

/-- Where an instruction comes from. -/
theorem mem_moduleSites {i : ℕ} {m : Ir.Module} {site : Site} :
    site ∈ moduleSites i m ↔ site.file = i ∧ ∃ source,
      (orderedSections m)[site.sectionIndex]? = some source ∧
        (site.offset, .instruction site.instruction) ∈ placed source.items := by
  constructor
  · intro h
    obtain ⟨entry, hentry, hsite⟩ := List.mem_flatMap.mp h
    obtain ⟨p, hp, hof⟩ := List.mem_filterMap.mp hsite
    obtain ⟨rfl, hfile, hindex⟩ := siteOf_eq_some hof
    refine ⟨hfile, entry.1, ?_, hp⟩
    rw [hindex]
    exact List.mem_zipIdx_iff_getElem?.mp hentry
  · rintro ⟨rfl, source, hsource, hp⟩
    exact List.mem_flatMap.mpr ⟨(source, site.sectionIndex),
      List.mem_zipIdx_iff_getElem?.mpr hsource, List.mem_filterMap.mpr ⟨_, hp, rfl⟩⟩

theorem mem_sites {modules : List Ir.Module} {site : Site} :
    site ∈ sites modules ↔ ∃ m source, modules[site.file]? = some m ∧
      (orderedSections m)[site.sectionIndex]? = some source ∧
        (site.offset, .instruction site.instruction) ∈ placed source.items := by
  constructor
  · intro h
    obtain ⟨entry, hentry, hsite⟩ := List.mem_flatMap.mp h
    obtain ⟨hfile, source, hsource, hp⟩ := mem_moduleSites.mp hsite
    refine ⟨entry.1, source, ?_, hsource, hp⟩
    rw [hfile]
    exact List.mem_zipIdx_iff_getElem?.mp hentry
  · rintro ⟨m, source, hm, hsource, hp⟩
    exact List.mem_flatMap.mpr ⟨(m, site.file), List.mem_zipIdx_iff_getElem?.mpr hm,
      mem_moduleSites.mpr ⟨rfl, source, hsource, hp⟩⟩

/-- They are in different files or sections, or do not overlap. -/
def Apart (a b : Site) : Prop :=
  ¬(a.file = b.file ∧ a.sectionIndex = b.sectionIndex) ∨ a.offset + 8 ≤ b.offset

theorem apart_moduleSites (i : ℕ) (m : Ir.Module) : (moduleSites i m).Pairwise Apart := by
  unfold moduleSites
  rw [List.pairwise_flatMap]
  constructor
  · intro entry hentry
    rw [List.pairwise_filterMap]
    refine (Emission.pairwise_placed Ir.Item.le_advance 0 entry.1.items).imp ?_
    intro p q hbefore a ha b hb
    obtain ⟨rfl, -, -⟩ := siteOf_eq_some ha
    obtain ⟨rfl, -, -⟩ := siteOf_eq_some hb
    exact Or.inr hbefore
  · -- different sections have different numbers
    rw [List.pairwise_iff_getElem]
    intro x y hx hy hlt a ha b hb
    left
    rintro ⟨-, hsame⟩
    obtain ⟨p, -, hpa⟩ := List.mem_filterMap.mp ha
    obtain ⟨q, -, hqb⟩ := List.mem_filterMap.mp hb
    rw [(siteOf_eq_some hpa).2.2, (siteOf_eq_some hqb).2.2] at hsame
    simp only [List.getElem_zipIdx] at hsame
    omega

theorem apart_sites (modules : List Ir.Module) : (sites modules).Pairwise Apart := by
  unfold sites
  rw [List.pairwise_flatMap]
  constructor
  · exact fun entry _ => apart_moduleSites entry.2 entry.1
  · -- different files have different numbers
    rw [List.pairwise_iff_getElem]
    intro x y hx hy hlt a ha b hb
    left
    rintro ⟨hsame, -⟩
    rw [(mem_moduleSites.mp ha).1, (mem_moduleSites.mp hb).1] at hsame
    simp only [List.getElem_zipIdx] at hsame
    omega

/-! ### Lines -/

section

variable {modules : List Ir.Module} {objects : List ObjectFile} {options : LinkOptions}
  {executable : Executable}

/-- The line of an instruction. -/
theorem lineOf_site (hlink : link objects options = .ok executable) {i : ℕ} {o : ObjectFile}
    {m : Ir.Module} (hobject : objects[i]? = some o) (hm : modules[i]? = some m) (h : Assembled m o)
    {entry : Ir.Section × ℕ}
    (hentry : entry ∈ (orderedSections m).zipIdx) (p : ℕ × Ir.Item) :
    (debugEntryOf entry.2 p.1 p.2).bind (lineOf options objects i o) =
      (siteOf i entry.2 p).map (siteLine options objects modules) := by
  obtain ⟨offset, item⟩ := p
  cases item with
  | instruction instruction =>
    obtain ⟨base, hbase⟩ := exists_sectionAddress hlink hobject h hentry
    have hindex := toNat_index hentry
    have hlt : (UInt32.ofNat entry.2).toNat < o.sections.length := by
      rw [hindex]
      exact (List.getElem?_eq_some_iff.mp (h.getElem?_sections hentry)).1
    show lineOf options objects i o _ = some _
    unfold lineOf siteLine
    dsimp only
    rw [if_neg (by
      rw [h.sourceFiles]
      rintro (hge | hge)
      · omega
      · exact absurd hge (by simp)), hindex, hbase, h.sourceFiles, hm]
    rfl
  | _ => rfl

/-- The lines of one file. -/
theorem lines_of_moduleSites (hlink : link objects options = .ok executable) {i : ℕ}
    {o : ObjectFile} {m : Ir.Module} (hobject : objects[i]? = some o) (hm : modules[i]? = some m)
    (h : Assembled m o) :
    o.debugInfo.filterMap (lineOf options objects i o) =
      (moduleSites i m).map (siteLine options objects modules) := by
  rw [h.debugInfo]
  unfold sectionDebugEntries moduleSites
  rw [List.filterMap_flatMap, List.map_flatMap]
  apply List.flatMap_congr
  intro entry hentry
  unfold debugEntriesOf
  rw [List.filterMap_filterMap, List.map_filterMap]
  exact List.filterMap_congr fun p _ => lineOf_site hlink hobject hm h hentry p

/-- **The debug entries of the objects are those of the instructions.** -/
theorem lines_of_sites (hassembled : List.Forall₂ Assembled modules objects)
    (hlink : link objects options = .ok executable) :
    linesOf options objects = (sites modules).map (siteLine options objects modules) := by
  have hlength := hassembled.length_eq
  unfold linesOf sites
  rw [List.map_flatMap, List.flatMap_def, List.flatMap_def]
  apply congrArg List.flatten
  apply List.ext_getElem
  · rw [List.length_map, List.length_map, List.length_zipIdx, List.length_zipIdx]
    exact hlength.symm
  · intro i hi hi'
    simp only [List.length_map, List.length_zipIdx] at hi hi'
    rw [List.getElem_map, List.getElem_map, List.getElem_zipIdx, List.getElem_zipIdx]
    simp only [Nat.zero_add]
    exact lines_of_moduleSites hlink (List.getElem?_eq_getElem hi) (List.getElem?_eq_getElem hi')
      (hassembled.get hi' hi)

/-! ### Addresses -/

/-- There is one region for `.text`. -/
theorem index_of_text {regions : List Region}
    (hsame : List.Forall₂ Region.Same (initRegions options) regions) {k : ℕ} {region : Region}
    (hregion : regions[k]? = some region) (htype : region.type = .text) : k = 0 := by
  obtain ⟨hk, rfl⟩ := List.getElem?_eq_some_iff.mp hregion
  have hlength : 4 = regions.length := hsame.length_eq
  have hone := (hsame.get (show k < (initRegions options).length by
    show k < 4
    omega) hk).type
  have hcases : k = 0 ∨ k = 1 ∨ k = 2 ∨ k = 3 := by omega
  rcases hcases with rfl | rfl | rfl | rfl
  · rfl
  all_goals
    have hstart := hone.symm.trans htype
    cases hstart

/-- The offset of an instruction in the region of `.text`. -/
def regionOffset (layout : Layout) (site : Site) : ℕ :=
  ((layout.placementAt site.file site.sectionIndex).map fun placement =>
    placement.offset.toNat).getD 0 + site.offset

/-- Where an instruction is. -/
theorem placed_of_site (hmodules : ∀ m ∈ modules, Produced m)
    (hassembled : List.Forall₂ Assembled modules objects)
    (hlink : link objects options = .ok executable) {layout : Layout}
    (hmerge : mergeSections options objects = .ok layout) {site : Site}
    (hsite : site ∈ sites modules) :
    ∃ placement region s, layout.regions[0]? = some region ∧
      InRow objects layout site.file site.sectionIndex s placement ∧ placement.region = 0 ∧
      site.offset + 8 ≤ s.size.toNat ∧
      placement.offset.toNat + s.size.toNat ≤ kRegionSize.toNat ∧
      regionOffset layout site = placement.offset.toNat + site.offset ∧
      (siteLine options objects modules site).address =
        region.base + UInt64.ofNat (regionOffset layout site) := by
  obtain ⟨m, source, hm, hk, hplaced⟩ := mem_sites.mp hsite
  have hproduced := hmodules m (List.mem_of_getElem? hm)
  obtain ⟨hi, rfl⟩ := List.getElem?_eq_some_iff.mp hm
  have hlength := hassembled.length_eq
  have hobject : objects[site.file]? = some objects[site.file] :=
    List.getElem?_eq_getElem (by omega)
  have hone : Assembled modules[site.file] objects[site.file] := hassembled.get hi (by omega)
  have hentry : (source, site.sectionIndex) ∈ (orderedSections modules[site.file]).zipIdx :=
    List.mem_zipIdx_iff_getElem?.mpr hk
  have hget := hone.getElem?_sections hentry
  obtain ⟨base, hbase⟩ := exists_sectionAddress hlink hobject hone hentry
  obtain ⟨placement, region, hplacement, hregion, rfl⟩ := placement_of_sectionAddress hmerge hbase
  obtain ⟨-, _, hregion', htype, hfits, -⟩ := placedAt_of_placement hmerge hobject hget hplacement
  cases hregion.symm.trans hregion'
  have hmerged := merged_of_mergeSections hmerge
  -- instructions are in `.text`
  have htext : source.kind = .text := (hproduced.wellFormed.items _
    (mem_of_mem_orderedSections (List.mem_of_getElem? hk)) _ (Emission.mem_of_mem_placed hplaced)).1
  have hzero : placement.region = 0 := by
    refine index_of_text hmerged.same hregion ?_
    rw [htype, emitted_eq]
    exact sectionTypeOf_eq_text.mpr htext
  have hsize := size_emitted (hone.endOf_le hentry)
  have hadvance : site.offset + 8 ≤ endOf source.items :=
    Emission.advance_le_of_mem_placed Ir.Item.le_advance hplaced
  have hcap := (hmerged.sound region (List.mem_of_getElem? hregion)).size_le
  have hoffset : regionOffset layout site = placement.offset.toNat + site.offset := by
    unfold regionOffset
    rw [hplacement]
    rfl
  refine ⟨placement, region, emitted (source, site.sectionIndex), by rw [← hzero]; exact hregion,
    ⟨⟨_, hobject, hget⟩, hplacement⟩, hzero, ?_, hfits.trans hcap, hoffset, ?_⟩
  · rw [hsize]
    exact hadvance
  · unfold siteLine
    dsimp only
    rw [hbase, hoffset, UInt64.ofNat_add, UInt64.ofNat_toNat, ← UInt64.add_assoc]
    rfl

/-- Instructions that are apart have different offsets. -/
theorem regionOffset_ne (hmodules : ∀ m ∈ modules, Produced m)
    (hassembled : List.Forall₂ Assembled modules objects)
    (hlink : link objects options = .ok executable) {layout : Layout}
    (hmerge : mergeSections options objects = .ok layout) {a b : Site} (ha : a ∈ sites modules)
    (hb : b ∈ sites modules) (hapart : Apart a b) :
    regionOffset layout a ≠ regionOffset layout b := by
  obtain ⟨p, -, s, -, hrow, hp, hsize, -, hoffset, -⟩ :=
    placed_of_site hmodules hassembled hlink hmerge ha
  obtain ⟨q, -, t, -, hrow', hq, hsize', -, hoffset', -⟩ :=
    placed_of_site hmodules hassembled hlink hmerge hb
  by_cases hsame : a.file = b.file ∧ a.sectionIndex = b.sectionIndex
  · have hbefore := hapart.resolve_left (not_not.mpr hsame)
    have hplaced := hrow.placed
    rw [hsame.1, hsame.2, hrow'.placed] at hplaced
    cases hplaced
    omega
  · have hdisjoint := apart_of_mergeSections hmerge hrow hrow' hsame (hp.trans hq.symm)
    omega

/-- **No two instructions have one address**, so there are fewer of them than bytes in a region. -/
theorem nodup_addresses (hmodules : ∀ m ∈ modules, Produced m)
    (hassembled : List.Forall₂ Assembled modules objects)
    (hlink : link objects options = .ok executable) :
    ((sites modules).map fun site => (siteLine options objects modules site).address).Nodup ∧
      (sites modules).length ≤ kRegionSize.toNat := by
  obtain ⟨-, layout, -, -, hmerge, -⟩ := link_cases hlink
  have hpairs : (sites modules).Pairwise fun a b => regionOffset layout a ≠ regionOffset layout b :=
    (apart_sites modules).imp_of_mem fun ha hb hapart =>
      regionOffset_ne hmodules hassembled hlink hmerge ha hb hapart
  have hsmall : ∀ site ∈ sites modules, regionOffset layout site < kRegionSize.toNat := by
    intro site hsite
    obtain ⟨_, _, _, -, -, -, hsize, hcap, hoffset, -⟩ :=
      placed_of_site hmodules hassembled hlink hmerge hsite
    omega
  constructor
  · unfold List.Nodup
    rw [List.pairwise_map]
    refine hpairs.imp_of_mem ?_
    intro a b ha hb hne heq
    obtain ⟨_, region, _, hregion, -, -, -, -, -, haddress⟩ :=
      placed_of_site hmodules hassembled hlink hmerge ha
    obtain ⟨_, region', _, hregion', -, -, -, -, -, haddress'⟩ :=
      placed_of_site hmodules hassembled hlink hmerge hb
    cases hregion.symm.trans hregion'
    rw [haddress, haddress'] at heq
    have hoffsets := congrArg UInt64.toNat ((UInt64.add_right_inj region.base).mp heq)
    have hcap : kRegionSize.toNat < UInt64.size := by decide
    rw [UInt64.toNat_ofNat_of_lt' ((hsmall a ha).trans hcap),
      UInt64.toNat_ofNat_of_lt' ((hsmall b hb).trans hcap)] at hoffsets
    exact hne hoffsets
  · have hnodup : ((sites modules).map (regionOffset layout)).Nodup := by
      unfold List.Nodup
      rw [List.pairwise_map]
      exact hpairs
    have hsubset : (sites modules).map (regionOffset layout) ⊆ List.range kRegionSize.toNat := by
      intro offset hoffset
      obtain ⟨site, hsite, rfl⟩ := List.mem_map.mp hoffset
      exact List.mem_range.mpr (hsmall site hsite)
    have hlength := (hnodup.subperm hsubset).length_le
    rwa [List.length_map, List.length_range] at hlength

/-! ### Sites and items -/

/-- An instruction of a module is a site. -/
theorem exists_site (hmodules : ∀ m ∈ modules, Produced m) {i : ℕ} {m : Ir.Module}
    (hm : modules[i]? = some m) {source : Ir.Section} (hsource : source ∈ m.sections) {p : ℕ}
    {instruction : Ir.Instruction} (hitem : source.items[p]? = some (.instruction instruction)) :
    ∃ k, (orderedSections m)[k]? = some source ∧
      ⟨i, k, endOf (source.items.take p), instruction⟩ ∈ sites modules := by
  have hproduced := hmodules m (List.mem_of_getElem? hm)
  obtain ⟨k, hk⟩ := List.mem_iff_getElem?.mp
    (mem_orderedSections hproduced.wellFormed hsource
      (List.ne_nil_of_mem (List.mem_of_getElem? hitem)))
  exact ⟨k, hk, mem_sites.mpr ⟨m, source, hm, hk,
    List.mem_of_getElem? (getElem?_placed hitem)⟩⟩

/-- The address of the line of a site is that of its instruction. -/
theorem itemAt_site (hassembled : List.Forall₂ Assembled modules objects)
    (hlink : link objects options = .ok executable) {i k : ℕ} {m : Ir.Module}
    (hm : modules[i]? = some m) {source : Ir.Section} (hk : (orderedSections m)[k]? = some source)
    {p : ℕ} {instruction : Ir.Instruction}
    (hitem : source.items[p]? = some (.instruction instruction)) :
    ItemAt options objects i m source.kind p
      (siteLine options objects modules
        ⟨i, k, endOf (source.items.take p), instruction⟩).address := by
  have hentry : (source, k) ∈ (orderedSections m).zipIdx := List.mem_zipIdx_iff_getElem?.mpr hk
  obtain ⟨hi, rfl⟩ := List.getElem?_eq_some_iff.mp hm
  have hlength := hassembled.length_eq
  obtain ⟨base, hbase⟩ := exists_sectionAddress hlink (List.getElem?_eq_getElem (by omega))
    (hassembled.get hi (by omega)) hentry
  refine ⟨k, source, base, _, hk, rfl, hbase, getElem?_placed hitem, ?_⟩
  unfold siteLine
  dsimp only
  rw [hbase]
  rfl

/-- An instruction starts before the items behind it. -/
theorem endOf_take_lt {items : List Ir.Item} {p q : ℕ} {a b : Ir.Item} (ha : items[p]? = some a)
    {instruction : Ir.Instruction} (hinstruction : a = .instruction instruction)
    (hb : items[q]? = some b) (hlt : p < q) : endOf (items.take p) < endOf (items.take q) := by
  have hbefore := advance_endOf_take_le ha hb hlt
  rw [hinstruction] at hbefore
  exact Nat.lt_of_lt_of_le (Nat.lt_add_of_pos_right (by decide : 0 < 8)) hbefore

/-- An address belongs to one instruction. -/
theorem place_unique (hmodules : ∀ m ∈ modules, Produced m)
    (hassembled : List.Forall₂ Assembled modules objects)
    (hlink : link objects options = .ok executable) {place place' : ℕ × ℕ}
    {entry : Executable.DebugEntry} (h : MappedTo options objects modules executable place entry)
    (h' : MappedTo options objects modules executable place' entry) : place = place' := by
  obtain ⟨i, p⟩ := place
  obtain ⟨j, q⟩ := place'
  obtain ⟨m, source, a, hm, hfind, ha, ⟨k, s, base, placed, hk, hkind, hbase, hplaced, haddress⟩,
      -⟩ :=
    h
  obtain ⟨n, source', b, hn, hfind', hb,
    ⟨k', s', base', placed', hk', hkind', hbase', hplaced', haddress'⟩, -⟩ := h'
  have hsections : ∀ {m : Ir.Module} {source s : Ir.Section} {k : ℕ}, Produced m →
      m.findSection .text = some source → (orderedSections m)[k]? = some s → s.kind = .text →
      source = s := by
    intro m source s k hproduced hfind hk hkind
    have hsame := findSection_of_mem hproduced.wellFormed
      (mem_of_mem_orderedSections (List.mem_of_getElem? hk))
    rw [hkind, hfind] at hsame
    exact Option.some.inj hsame
  cases hsections (hmodules m (List.mem_of_getElem? hm)) hfind hk hkind
  cases hsections (hmodules n (List.mem_of_getElem? hn)) hfind' hk' hkind'
  cases hplaced.symm.trans (getElem?_placed ha)
  cases hplaced'.symm.trans (getElem?_placed hb)
  -- two sites with one address are one site
  have hsite : Site.mk i k (endOf (source.items.take p)) a ∈ sites modules :=
    mem_sites.mpr ⟨m, source, hm, hk, List.mem_of_getElem? hplaced⟩
  have hsite' : Site.mk j k' (endOf (source'.items.take q)) b ∈ sites modules :=
    mem_sites.mpr ⟨n, source', hn, hk', List.mem_of_getElem? hplaced'⟩
  have hone := List.inj_on_of_nodup_map (nodup_addresses hmodules hassembled hlink).1
      hsite hsite' (by
    unfold siteLine
    dsimp only
    rw [hbase, hbase']
    exact haddress.symm.trans haddress')
  obtain ⟨rfl, rfl, hoffset, rfl⟩ := Site.mk.inj hone
  cases hm.symm.trans hn
  cases hk.symm.trans hk'
  rcases Nat.lt_trichotomy p q with hlt | rfl | hlt
  · exact absurd hoffset (endOf_take_lt ha rfl hb hlt).ne
  · rfl
  · exact absurd hoffset (endOf_take_lt hb rfl ha hlt).ne'

/-- The entries, in another order, show the lines of the instructions. -/
theorem exists_shown (hmodules : ∀ m ∈ modules, Produced m)
    (hassembled : List.Forall₂ Assembled modules objects)
    (hlink : link objects options = .ok executable) :
    ∃ entries, executable.debugInfo.Perm entries ∧ List.Forall₂ (fun entry site =>
      Shows executable.sourceFiles entry (siteLine options objects modules site)) entries
        (sites modules) := by
  obtain ⟨-, hfew⟩ := nodup_addresses hmodules hassembled hlink
  obtain ⟨-, layout, symbols, patched, hmerge, -, hpatch, hbuild⟩ := link_cases hlink
  obtain ⟨start, info, -, hinfo, hexecutable, -⟩ := buildExecutable_cases hbuild
  have hentries : executable.debugInfo = info.entries := by rw [hexecutable]
  have hfiles : executable.sourceFiles = info.sourceFiles := by rw [hexecutable]
  have hlines := lines_of_sites hassembled hlink
  have hcount : (linesOf options objects).length < 2 ^ 32 := by
    rw [hlines, List.length_map]
    exact Nat.lt_of_le_of_lt hfew (by decide)
  obtain ⟨entries, hperm, hshows⟩ :=
    lines_of_buildDebugInfo hmerge (patched_of_applyRelocations hpatch) hcount hinfo
  rw [hlines, List.forall₂_map_right_iff, ← hfiles] at hshows
  rw [← hentries] at hperm
  exact ⟨entries, hperm, hshows⟩

/-- No two entries have one address. -/
theorem nodup_debugInfo (hmodules : ∀ m ∈ modules, Produced m)
    (hassembled : List.Forall₂ Assembled modules objects)
    (hlink : link objects options = .ok executable) :
    (executable.debugInfo.map Executable.DebugEntry.address).Nodup := by
  obtain ⟨entries, hperm, hshows⟩ := exists_shown hmodules hassembled hlink
  refine (hperm.map Executable.DebugEntry.address).nodup_iff.mpr ?_
  -- the addresses of the entries are those of the sites, in another order
  have hsame : entries.map Executable.DebugEntry.address =
      (sites modules).map fun site => (siteLine options objects modules site).address := by
    rw [← List.forall₂_eq_eq_eq, List.forall₂_map_left_iff, List.forall₂_map_right_iff]
    exact hshows.imp fun _ _ hone => hone.address
  rw [hsame]
  exact (nodup_addresses hmodules hassembled hlink).1

theorem file_of_shows {entry : Executable.DebugEntry} {site : Site} {m : Ir.Module}
    (h : Shows executable.sourceFiles entry (siteLine options objects modules site))
    (hm : modules[site.file]? = some m) :
    executable.sourceFiles[entry.file.toNat]? = some m.sourceName := by
  rw [h.file]
  unfold siteLine
  dsimp only
  rw [hm]
  rfl

/-- The instruction that an entry is for. -/
theorem exists_mappedTo (hmodules : ∀ m ∈ modules, Produced m)
    (hassembled : List.Forall₂ Assembled modules objects)
    (hlink : link objects options = .ok executable) {entry : Executable.DebugEntry} {site : Site}
    (hsite : site ∈ sites modules)
    (h : Shows executable.sourceFiles entry (siteLine options objects modules site)) :
    ∃ place, MappedTo options objects modules executable place entry := by
  obtain ⟨m, source, hm, hk, hplaced⟩ := mem_sites.mp hsite
  have hproduced := hmodules m (List.mem_of_getElem? hm)
  have hsource := mem_of_mem_orderedSections (List.mem_of_getElem? hk)
  have htext := (hproduced.wellFormed.items _ hsource _ (Emission.mem_of_mem_placed hplaced)).1
  -- the position of the item is the number of the items before it
  obtain ⟨before, after, hitems, hoffset⟩ := Emission.exists_of_mem_placed hplaced
  dsimp only at hitems hoffset
  have hitem : source.items[before.length]? = some (.instruction site.instruction) := by
    rw [hitems, List.getElem?_append_right le_rfl, Nat.sub_self, List.getElem?_cons_zero]
  have htake : endOf (source.items.take before.length) = site.offset := by
    rw [hitems, List.take_left, hoffset]
    rfl
  have hat := itemAt_site hassembled hlink hm hk hitem
  rw [htake, htext] at hat
  have hfind := findSection_of_mem hproduced.wellFormed hsource
  rw [htext] at hfind
  refine ⟨(site.file, before.length), m, source, site.instruction, hm, hfind, hitem, ?_,
    file_of_shows h hm, h.line, h.column⟩
  rw [h.address]
  exact hat

/-- **Source mapping is exact.**  The entry for the address of an instruction has its file and its
location, every entry is for one instruction, and the optimizer leaves the locations of what it
keeps as they are. -/
theorem source_mapping (hmodules : ∀ m ∈ modules, Produced m)
    (hassemble : List.Forall₂ AssemblesTo modules objects)
    (hlink : link objects options = .ok executable) :
    (∀ i m source p instruction, modules[i]? = some m → source ∈ m.sections →
      source.items[p]? = some (.instruction instruction) →
      ∃ address entry, ItemAt options objects i m source.kind p address ∧
        executable.debugEntryFor address = some entry ∧
        executable.sourceFiles[entry.file.toNat]? = some m.sourceName ∧
        entry.line = instruction.location.line ∧ entry.column = instruction.location.column) ∧
    (∀ entry ∈ executable.debugInfo,
      ∃! place, MappedTo options objects modules executable place entry) ∧
    (executable.debugInfo.map Executable.DebugEntry.address).Nodup ∧
    ∀ m ∈ modules, ∃ source, Ir.FrontEnd source ∧ m.sourceName = source.sourceName ∧
      List.Forall₂ Optimizer.SectionKept source.sections m.sections := by
  have hassembled := assembled_of_assembles hassemble
  have haddresses := nodup_debugInfo hmodules hassembled hlink
  obtain ⟨entries, hperm, hshows⟩ := exists_shown hmodules hassembled hlink
  have hlength := hshows.length_eq
  refine ⟨?_, ?_, haddresses, ?_⟩
  · intro i m source p instruction hm hsource hitem
    obtain ⟨k, hk, hsite⟩ := exists_site hmodules hm hsource hitem
    obtain ⟨x, hx, hget⟩ := List.mem_iff_getElem.mp hsite
    have hone := hshows.get (show x < entries.length by omega) hx
    simp only [List.get_eq_getElem, hget] at hone
    have hmem : entries[x] ∈ executable.debugInfo := hperm.mem_iff.mpr (List.getElem_mem _)
    refine ⟨entries[x].address, entries[x], ?_, find?_address haddresses hmem,
      file_of_shows hone hm, hone.line, hone.column⟩
    rw [hone.address]
    exact itemAt_site hassembled hlink hm hk hitem
  · intro entry hentry
    obtain ⟨x, hx, rfl⟩ := List.mem_iff_getElem.mp (hperm.mem_iff.mp hentry)
    have hone := hshows.get hx (show x < (sites modules).length by omega)
    simp only [List.get_eq_getElem] at hone
    obtain ⟨place, hmapped⟩ := exists_mappedTo hmodules hassembled hlink (List.getElem_mem _) hone
    exact ⟨place, hmapped, fun _ hother => place_unique hmodules hassembled hlink hother hmapped⟩
  · intro m hm
    obtain ⟨source, oob, level, hfront, rfl⟩ := hmodules m hm
    refine ⟨source, hfront, ?_, (Optimizer.run_accounted oob level source).2.2.2.1⟩
    cases level with
    | O0 => rfl
    | O1 => rfl

end

/-- `LOAD` on line 2 of `table.asm`, and every other entry of the two files. -/
theorem source_mapping_table :
    (∃ address entry, ItemAt {} pairObjects 1 tableModule .text 1 address ∧
      (imageOf pairObjects).debugEntryFor address = some entry ∧
      (imageOf pairObjects).sourceFiles[entry.file.toNat]? = some (str "table.asm") ∧
      entry.line = 2 ∧ entry.column = 9) ∧
    (imageOf pairObjects).debugInfo.length = 6 ∧
    ∀ entry ∈ (imageOf pairObjects).debugInfo,
      ∃! place, MappedTo {} pairObjects [mainModule, tableModule]
        (imageOf pairObjects) place entry := by
  have hassembles : List.Forall₂ AssemblesTo [mainModule, tableModule] pairObjects :=
    assemblesTo_map_objectOf (by decide)
  have h := source_mapping produced_pair hassembles link_pair
  exact ⟨h.1 1 tableModule _ 1 _ rfl (List.Mem.head _) rfl, by decide, h.2.1⟩

end Assembler
end MiniTool
