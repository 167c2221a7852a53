import MiniToolchain.Assembler.Alignment
import MiniToolchain.Linker.Single

/-!
# A module linked alone

Nothing in the image of a module that is linked alone depends on other files: every section is where
its region starts, a name has the address of its label, and the data are what the items spell out.

## Main definitions

* `LaidOut` — a module and its object, whose sections have been given their regions.
* `Standalone` — a module, its object, and the image of the object.
* `addressIn` — the address of a name.
* `spelled` — the bytes of an item, once the addresses are known.

## Main results

* `LaidOut.addressIn_of_label` — a name has the address of its label.
* `Standalone.exists_regions` — what the segments hold.
-/

namespace MiniTool
namespace Assembler

open Object Linker Bounds AssemblyContext ByteOrder

/-- A module of the form that lowering gives, with its object, whose sections fit into their
regions. -/
structure LaidOut (m : Ir.Module) (o : ObjectFile) : Prop where
  wellFormed : m.WellFormed
  assembled : Assembled m o
  merged : ∃ layout, mergeSections {} [o] = .ok layout

/-- A module of the form that lowering gives, with its object and the image of it. -/
structure Standalone (m : Ir.Module) (o : ObjectFile) (executable : Executable) : Prop
    extends LaidOut m o where
  linked : link [o] {} = .ok executable

theorem standalone_of_link {m : Ir.Module} {o : ObjectFile} {executable : Executable}
    (hwell : m.WellFormed) (h : Assembled m o) (hlink : link [o] {} = .ok executable) :
    Standalone m o executable := by
  obtain ⟨-, layout, _, _, hmerge, -⟩ := link_cases hlink
  exact ⟨⟨hwell, h, layout, hmerge⟩, hlink⟩

/-- Where the region of a section kind starts. -/
def regionBase (kind : Ir.SectionKind) : UInt64 := ({} : LinkOptions).baseFor kind

/-- The address of a name in the image, 0 if it is not defined. -/
def addressIn (m : Ir.Module) (o : ObjectFile) (name : Str) : UInt64 :=
  (finalAddress {} [o] [symbolOf m] 0 name).getD 0

/-- What an item becomes when names have addresses; an instruction may have a symbol and is left
out. -/
def spelled (address : Str → UInt64) (offset : ℕ) : Ir.Item → List UInt8
  | .symbolValue v => littleEndian v.width.toNat (address v.symbol.name + v.symbol.addend.toUInt64)
  | item => itemBytes offset item

theorem length_spelled (address : Str → UInt64) (offset : ℕ) (item : Ir.Item) :
    (spelled address offset item).length = (itemBytes offset item).length := by
  cases item with
  | symbolValue v =>
    have hadvance := length_itemBytes offset (.symbolValue v)
    have hwidth : Ir.Item.advance offset (.symbolValue v) = offset + v.width.toNat := rfl
    show (littleEndian _ _).length = _
    rw [length_littleEndian]
    omega
  | _ => rfl

/-- What the image has of a section kind: nothing, or the section. -/
def RegionOf (m : Ir.Module) (o : ObjectFile) (kind : Ir.SectionKind) (region : Region) : Prop :=
  ((∀ source ∈ orderedSections m, source.kind ≠ kind) ∧ region.size = 0) ∨
    ∃ source ∈ orderedSections m, source.kind = kind ∧ region.size.toNat = endOf source.items ∧
      (kind ≠ .text → kind ≠ .bss →
        region.data = Emission.image Ir.Item.advance (spelled (addressIn m o)) 0 source.items)

/-- No two sections of the object of a module are of one type. -/
theorem types_of_assembled {m : Ir.Module} {o : ObjectFile} (h : Assembled m o) :
    (o.sections.map Section.type).Nodup := by
  have hkinds : ((orderedSections m).map Ir.Section.kind).Nodup := by
    refine List.Nodup.map_on ?_ (nodup_orderedSections m)
    intro a ha b hb heq
    have hfirst := findSection_of_ordered ha
    rw [heq, findSection_of_ordered hb] at hfirst
    exact (Option.some.inj hfirst).symm
  have hsections : o.sections.map Section.type =
      ((orderedSections m).map Ir.Section.kind).map sectionTypeOf := by
    rw [h.sections, List.map_map, List.map_map]
    have hfst : (orderedSections m).map (sectionTypeOf ∘ Ir.Section.kind) =
        (orderedSections m).zipIdx.map fun entry => sectionTypeOf entry.1.kind := by
      conv_lhs => rw [← List.zipIdx_map_fst 0 (orderedSections m)]
      rw [List.map_map]
      rfl
    rw [hfst]
    refine List.map_congr_left fun entry _ => ?_
    show (emitted entry).type = _
    rw [emitted_eq]
    rfl
  rw [hsections]
  refine hkinds.map ?_
  intro a b hab
  cases a <;> cases b <;> first | rfl | cases hab

namespace LaidOut

variable {m : Ir.Module} {o : ObjectFile} {source : Ir.Section} {k : ℕ}

/-- A section is at the start of its region. -/
theorem sectionAddress_eq (h : LaidOut m o)
    (hk : (source, k) ∈ (orderedSections m).zipIdx) :
    sectionAddress {} [o] 0 k = some (regionBase source.kind) := by
  obtain ⟨layout, hmerge⟩ := h.merged
  obtain ⟨base, hbase⟩ := exists_sectionAddress_of_merge hmerge (i := 0) rfl h.assembled hk
  obtain ⟨i, region, hregion, rfl, placement, hplacement, rfl⟩ :=
    sectionAddress_single hmerge (types_of_assembled h.assembled) hbase
  obtain ⟨-, _, hget, htype, -, -⟩ := placedAt_of_placement hmerge (i := 0) rfl
    (h.assembled.getElem?_sections hk) hplacement
  rw [hregion] at hget
  cases hget
  rw [emitted_eq] at htype
  rw [hbase, base_of_region (merged_of_mergeSections hmerge).same
    (List.mem_of_getElem? hregion) htype]
  rfl

theorem plain (h : LaidOut m o) : PlainBindings [o] := by
  intro o' ho
  rw [List.mem_singleton.mp ho]
  exact h.assembled.plain

theorem map_find (h : LaidOut m o) :
    ([o].map fun o => o.symbols.find) = [symbolOf m] := by
  rw [List.map_singleton]
  congr 1
  funext name
  exact h.assembled.find name

/-! ### Names -/

/-- No two labels of a section have one name. -/
theorem label_unique (h : LaidOut m o)
    (hsource : source ∈ orderedSections m) {i j : ℕ} {l l' : Ir.Label}
    (hi : source.items[i]? = some (.label l)) (hj : source.items[j]? = some (.label l'))
    (hname : l.name = l'.name) : i = j := by
  obtain ⟨k, hk⟩ := List.mem_iff_getElem?.mp hsource
  have hentry : (source, k) ∈ (orderedSections m).zipIdx := List.mem_zipIdx_iff_getElem?.mpr hk
  have hnodup : ((sectionLabels (source, k)).map Symbol.name).Nodup := by
    refine h.assembled.labels.sublist (List.Sublist.map _ ?_)
    unfold labelSymbols
    rw [List.flatMap_def]
    exact List.sublist_flatten_of_mem (List.mem_map_of_mem hentry)
  unfold sectionLabels List.Nodup at hnodup
  rw [List.pairwise_map, List.pairwise_filterMap, List.pairwise_iff_getElem] at hnodup
  have hplaced : ∀ {i : ℕ} {l : Ir.Label}, source.items[i]? = some (.label l) →
      ∃ (hi : i < (placed source.items).length) (offset : ℕ), (placed source.items)[i] =
          (offset, .label l) := by
    intro i l hi
    obtain ⟨hlt, heq⟩ := List.getElem?_eq_some_iff.mp (getElem?_placed hi)
    exact ⟨hlt, _, heq⟩
  obtain ⟨hi, offset, hitem⟩ := hplaced hi
  obtain ⟨hj, offset', hitem'⟩ := hplaced hj
  rcases lt_trichotomy i j with hlt | heq | hlt
  · have hne := hnodup i j hi hj hlt
    rw [hitem, hitem'] at hne
    exact absurd hname (hne _ rfl _ rfl)
  · exact heq
  · have hne := hnodup j i hj hi hlt
    rw [hitem, hitem'] at hne
    exact absurd hname.symm (hne _ rfl _ rfl)

/-- The symbol of a label is where the label is. -/
theorem symbolAddress_of_labelOf (h : LaidOut m o) {name : Str} {s : Symbol}
    (hs : labelOf m name = some s) : ∃ (source : Ir.Section) (p offset : ℕ) (l : Ir.Label),
      source ∈ orderedSections m ∧
      (placed source.items)[p]? = some (offset, .label l) ∧ l.name = name ∧
      symbolAddress {} [o] (0, s) = some (regionBase source.kind + UInt64.ofNat offset) := by
  obtain ⟨k, source, p, q, l, hk, hp, hl, hname, hsection, hvalue⟩ := exists_label hs
  have hentry : (source, k) ∈ (orderedSections m).zipIdx := List.mem_zipIdx_iff_getElem?.mpr hk
  refine ⟨source, p, q.1, l, List.mem_of_getElem? hk, by rw [hp, ← hl], hname, ?_⟩
  unfold symbolAddress
  dsimp only
  rw [hsection, toNat_index hentry, h.sectionAddress_eq hentry, hvalue]
  rfl

/-- A file that is linked alone has its names for itself. -/
theorem finalAddress_eq (m : Ir.Module) (o : ObjectFile) (name : Str) :
    finalAddress {} [o] [symbolOf m] 0 name =
      match labelOf m name with
      | some s => symbolAddress {} [o] (0, s)
      | none => some 0 := by
  have hfind : ([symbolOf m][0]?.bind fun find => find name) = symbolOf m name := rfl
  have hdefiners : definers [symbolOf m] name =
      (((symbolOf m name).filter Offered).map fun s => (0, s)).toList := by
    unfold definers
    rw [show [symbolOf m].zipIdx = [(symbolOf m, 0)] from rfl, List.filterMap_cons,
      List.filterMap_nil]
    dsimp only
    cases (symbolOf m name).filter Offered <;> rfl
  unfold finalAddress definitionOf
  rw [hfind, hdefiners]
  cases hlabel : labelOf m name with
  | none =>
    have hnot : ∀ s, symbolOf m name = some s → s.defined = false := by
      intro s hs
      unfold symbolOf at hs
      rw [hlabel] at hs
      dsimp only at hs
      split_ifs at hs
      cases hs
      rfl
    cases hs : symbolOf m name with
    | none => rfl
    | some s =>
      simp [Option.filter, Offered, hnot s hs, chosen]
  | some s =>
    have hs : symbolOf m name = some (withBinding (bindingOf m name .local) s) := by
      unfold symbolOf
      rw [hlabel]
    have hdefined := (defined_of_mem_labelSymbols (labelOf_eq_some hlabel).1).1
    have hkept : (withBinding (bindingOf m name .local) s).defined = true := hdefined
    have hsame : symbolAddress {} [o] (0, withBinding (bindingOf m name .local) s) =
        symbolAddress {} [o] (0, s) := rfl
    rw [hs]
    by_cases hlocal : (withBinding (bindingOf m name .local) s).binding = .local
    · simp [Option.filter, hkept, hlocal, hsame]
    · have hchosen : ∀ strong : ℕ × Symbol → Bool, ∀ x, chosen strong [x] = some x := by
        intro strong x
        unfold chosen
        cases hstrong : strong x <;> simp [hstrong]
      simp [Option.filter, Offered, hkept, hlocal, hchosen, hsame]

theorem addressIn_of_label (h : LaidOut m o) (hsource : source ∈ orderedSections m)
    {p offset : ℕ} {l : Ir.Label} (hp : (placed source.items)[p]? = some (offset, .label l)) :
    finalAddress {} [o] [symbolOf m] 0 l.name =
      some (regionBase source.kind + UInt64.ofNat offset) := by
  obtain ⟨k, hk⟩ := List.mem_iff_getElem?.mp hsource
  have hentry : (source, k) ∈ (orderedSections m).zipIdx := List.mem_zipIdx_iff_getElem?.mpr hk
  obtain ⟨s, hs, hsection, hvalue⟩ := labelOf_of_placed h.assembled.labels hk hp rfl
  rw [finalAddress_eq, hs]
  unfold symbolAddress
  dsimp only
  rw [hsection, toNat_index hentry, h.sectionAddress_eq hentry, hvalue]
  rfl

end LaidOut

namespace Standalone

variable {m : Ir.Module} {o : ObjectFile} {executable : Executable} {source : Ir.Section} {k : ℕ}

/-- What the theorems about a section of a link need. -/
theorem sectionLinked (h : Standalone m o executable)
    (hk : (source, k) ∈ (orderedSections m).zipIdx) (hstored : source.kind ≠ .bss) :
    SectionLinked [o] {} executable 0 m o (source, k) (regionBase source.kind) where
  wellFormed := by
    intro o' ho
    rw [List.mem_singleton.mp ho]
    exact h.assembled.wellFormed (assemblable_of_wellFormed h.wellFormed)
  plain := h.plain
  fieldsApart := by
    intro o' ho
    rw [List.mem_singleton.mp ho]
    exact h.assembled.fieldsApart (assemblable_of_wellFormed h.wellFormed)
  linked := h.linked
  isObject := rfl
  assembled := h.assembled
  assemblable := assemblable_of_wellFormed h.wellFormed
  isSection := hk
  stored := hstored
  address := h.sectionAddress_eq hk

/-! ### What the segments hold -/

/-- The bytes that the section's region gets for an item. -/
theorem subspan_spelled (h : Standalone m o executable) {layout : Layout} {symbols : Symbols}
    (hbuild : buildExecutable {} layout symbols [o] = .ok executable)
    (hk : (source, k) ∈ (orderedSections m).zipIdx) (hstored : source.kind ≠ .bss)
    (htext : source.kind ≠ .text) {region : Region} (hregion : region ∈ layout.regions)
    (hbase : region.base = regionBase source.kind) (hzero : region.zeroFilled = false)
    (hsize : region.size.toNat = endOf source.items)
    (hlength : region.data.length = endOf source.items) {p : ℕ × Ir.Item}
    (hp : p ∈ placed source.items) :
    subspan region.data p.1 (spelled (addressIn m o) p.1 p.2).length =
      some (spelled (addressIn m o) p.1 p.2) := by
  have hlinked := h.sectionLinked hk hstored
  have hadvance := length_itemBytes p.1 p.2
  have hend : p.2.advance p.1 ≤ endOf source.items :=
    Emission.advance_le_of_mem_placed Ir.Item.le_advance hp
  rw [length_spelled]
  rcases Nat.eq_zero_or_pos (itemBytes p.1 p.2).length with hempty | hpos
  · have hnil : spelled (addressIn m o) p.1 p.2 = [] :=
      List.eq_nil_of_length_eq_zero ((length_spelled _ _ _).trans hempty)
    rw [hempty, hnil, subspan_of_le (by omega)]
    rfl
  -- the image has the bytes of the region
  have hat := @Linker.bytesAt_of_region {} layout symbols [o] executable hbuild region hregion hzero
    p.1 (itemBytes p.1 p.2).length hpos (by omega)
  rw [hbase] at hat
  rw [← hat]
  have hplain : referenceOf k p.1 p.2 = none → (∀ v, p.2 ≠ .symbolValue v) →
      executable.bytesAt (regionBase source.kind + UInt64.ofNat p.1) (itemBytes p.1 p.2).length =
        some (spelled (addressIn m o) p.1 p.2) := by
    intro hnone hvalue
    have hitem := hlinked.bytesAt_item hp hnone hpos (Nat.le_of_eq (Nat.zero_add _))
    rw [Nat.add_zero] at hitem
    have hsame : spelled (addressIn m o) p.1 p.2 = itemBytes p.1 p.2 := by
      cases hitem : p.2 with
      | symbolValue v => exact absurd hitem (hvalue v)
      | _ => rfl
    rw [hitem, hsame, subspan_of_le (by omega), List.drop_zero, List.take_length]
  obtain ⟨offset, item⟩ := p
  cases item with
  | instruction i =>
    have hsource := mem_of_mem_orderedSections
      (List.mem_of_getElem? (List.mem_zipIdx_iff_getElem?.mp hk))
    exact absurd (h.wellFormed.items _ hsource _ (Emission.mem_of_mem_placed hp)).1 htext
  | symbolValue v =>
    obtain ⟨field, address, hfield, haddress, hload⟩ := hlinked.symbolValue_item hp
    have hwidth : (itemBytes offset (.symbolValue v)).length = v.width.toNat := by
      have hthis : Ir.Item.advance offset (.symbolValue v) = offset + v.width.toNat := rfl
      dsimp only at hadvance
      omega
    have hvalue : addressIn m o v.symbol.name = address := by
      unfold addressIn
      rw [← h.map_find, haddress]
      rfl
    have hfieldLength : field.length = v.width.toNat := by
      obtain ⟨segment, -, hspan⟩ := Option.bind_eq_some_iff.mp hfield
      exact length_of_subspan hspan
    dsimp only
    rw [hwidth, hfield, spelled, hvalue, ← hload]
    have hle : v.width.toNat ≤ 8 := by
      have hsource := mem_of_mem_orderedSections
        (List.mem_of_getElem? (List.mem_zipIdx_iff_getElem?.mp hk))
      rcases ((assemblable_of_wellFormed h.wellFormed).items _ hsource _
        (Emission.mem_of_mem_placed hp)).2 with hw | hw <;> rw [hw] <;> decide
    rw [littleEndian_load hle hfieldLength.ge, List.take_of_length_le hfieldLength.le]
  | label l => exact hplain rfl fun v => Ir.Item.noConfusion
  | bytes b => exact hplain rfl fun v => Ir.Item.noConfusion
  | space s => exact hplain rfl fun v => Ir.Item.noConfusion
  | align a => exact hplain rfl fun v => Ir.Item.noConfusion

/-- **What the segments hold.** -/
theorem exists_regions (h : Standalone m o executable) : ∃ (layout : Layout) (symbols : Symbols),
    buildExecutable {} layout symbols [o] = .ok executable ∧
      List.Forall₂ Region.Same (initRegions {}) layout.regions ∧
      (∀ region ∈ layout.regions, region.Sound) ∧
      ∀ region ∈ layout.regions, ∀ kind, region.type = sectionTypeOf kind →
        RegionOf m o kind region := by
  obtain ⟨-, layout, symbols, patched, hmerge, -, hpatch, hbuild⟩ := link_cases h.linked
  obtain ⟨hsame, hsound⟩ := regions_of_link hmerge hpatch
  refine ⟨patched, symbols, hbuild, hsame, hsound, fun region hregion kind htype => ?_⟩
  obtain ⟨i, hi⟩ := List.mem_iff_getElem?.mp hregion
  obtain ⟨before, hbefore, hone⟩ := (patched_of_applyRelocations hpatch).getElem? hi
  rw [(regions_of_single hmerge (types_of_assembled h.assembled)).1, List.getElem?_map] at hbefore
  obtain ⟨start, hstart, rfl⟩ := Option.map_eq_some_iff.mp hbefore
  have hkept : (filled o.sections start).type = start.type := by
    unfold filled
    split <;> rfl
  have hstartType : start.type = sectionTypeOf kind := by
    rw [← htype, hone.same.type, hkept]
  by_cases hexists : ∃ source ∈ orderedSections m, source.kind = kind
  · obtain ⟨source, hsource, hkind⟩ := hexists
    obtain ⟨k, hk⟩ := List.mem_iff_getElem?.mp hsource
    have hentry : (source, k) ∈ (orderedSections m).zipIdx := List.mem_zipIdx_iff_getElem?.mpr hk
    have hemitted : emitted (source, k) ∈ o.sections :=
      List.mem_of_getElem? (h.assembled.getElem?_sections hentry)
    have hemittedType : (emitted (source, k)).type = start.type := by
      rw [emitted_eq, hstartType, ← hkind]
      rfl
    rw [filled_eq_of_mem (types_of_assembled h.assembled) hemitted hemittedType] at hone
    have hsize : region.size.toNat = endOf source.items := by
      rw [hone.size]
      show (0 + (emitted (source, k)).size).toNat = _
      rw [UInt64.zero_add]
      exact size_emitted (h.assembled.endOf_le hentry)
    refine .inr ⟨source, hsource, hkind, hsize, fun htext hbss => ?_⟩
    have hbase : region.base = regionBase source.kind := by
      rw [hkind]
      exact base_of_region hsame hregion htype
    have hzero : region.zeroFilled = false := by
      rw [zeroFilled_of_same hsame hregion, htype]
      cases kind <;> first | rfl | exact absurd rfl hbss
    have hlength : region.data.length = endOf source.items :=
      ((hsound region hregion).data hzero).trans hsize
    refine @Emission.eq_image _ _ Ir.Item.advance (spelled (addressIn m o)) 0
      source.items region.data hlength Ir.Item.le_advance fun p hp => ⟨?_, ?_⟩
    · rw [length_spelled]
      exact length_itemBytes p.1 p.2
    · exact h.subspan_spelled hbuild hentry (by rwa [hkind]) (by rwa [hkind]) hregion
        hbase hzero hsize hlength hp
  · refine .inl ⟨fun source hsource hkind => hexists ⟨source, hsource, hkind⟩, ?_⟩
    rw [hone.size, filled_eq_self]
    · -- no region has anything in it before the sections are merged
      have hmem := List.mem_of_getElem? hstart
      simp only [initRegions, List.mem_cons, List.not_mem_nil, or_false] at hmem
      rcases hmem with rfl | rfl | rfl | rfl <;> rfl
    · intro s hs heq
      rw [h.assembled.sections] at hs
      obtain ⟨entry, hentry, rfl⟩ := List.mem_map.mp hs
      refine hexists ⟨entry.1, List.mem_of_getElem? (List.mem_zipIdx_iff_getElem?.mp hentry), ?_⟩
      rw [emitted_eq, hstartType] at heq
      have heq : sectionTypeOf entry.1.kind = sectionTypeOf kind := heq
      generalize entry.1.kind = other at heq
      cases other <;> cases kind <;> first | rfl | cases heq

end Standalone

/-! ### Two images with the same data -/

/-- The modules have the same data, and the data refer to nothing that has moved. -/
structure SameData (m : Ir.Module) (o : ObjectFile) (m' : Ir.Module) (o' : ObjectFile) : Prop where
  sections : ∀ source : Ir.Section, source.kind ≠ .text →
    (source ∈ orderedSections m ↔ source ∈ orderedSections m')
  names : ∀ source ∈ orderedSections m, source.kind ≠ .text → ∀ v, .symbolValue v ∈ source.items →
    addressIn m o v.symbol.name = addressIn m' o' v.symbol.name

section

variable {m m' : Ir.Module} {o o' : ObjectFile} {executable executable' : Executable}

/-- **A name that is no label of the code keeps its address**, when nothing but the code changes. -/
theorem addressIn_congr (h : LaidOut m o) (h' : LaidOut m' o')
    (hsections : ∀ source : Ir.Section, source.kind ≠ .text →
      (source ∈ orderedSections m ↔ source ∈ orderedSections m')) {name : Str}
    (hname : ∀ source ∈ orderedSections m, source.kind = .text → ∀ l, .label l ∈ source.items →
      l.name ≠ name)
    (hname' : ∀ source ∈ orderedSections m', source.kind = .text → ∀ l, .label l ∈ source.items →
      l.name ≠ name) : addressIn m o name = addressIn m' o' name := by
  -- a label of one module is a label of the other, at the same place
  have hlabel : ∀ {m₁ m₂ : Ir.Module} {o₁ o₂ : ObjectFile}, LaidOut m₁ o₁ → LaidOut m₂ o₂ →
      (∀ source ∈ orderedSections m₁, source.kind ≠ .text → source ∈ orderedSections m₂) →
      (∀ source ∈ orderedSections m₁, source.kind = .text → ∀ l, .label l ∈ source.items →
        l.name ≠ name) → labelOf m₁ name ≠ none → addressIn m₁ o₁ name = addressIn m₂ o₂ name := by
    intro m₁ m₂ o₁ o₂ h₁ h₂ hsub hnot hsome
    obtain ⟨s, hs⟩ := Option.ne_none_iff_exists'.mp hsome
    obtain ⟨source, p, offset, l, hsource, hp, rfl, -⟩ := h₁.symbolAddress_of_labelOf hs
    have hkind : source.kind ≠ .text := by
      intro htext
      exact hnot source hsource htext l (Emission.mem_of_mem_placed (List.mem_of_getElem? hp)) rfl
    unfold addressIn
    rw [h₁.addressIn_of_label hsource hp, h₂.addressIn_of_label (hsub source hsource hkind) hp]
  by_cases hnone : labelOf m name = none
  · by_cases hnone' : labelOf m' name = none
    · unfold addressIn
      rw [LaidOut.finalAddress_eq, LaidOut.finalAddress_eq, hnone, hnone']
    · exact (hlabel h' h (fun source hsource hkind => (hsections source hkind).mpr hsource) hname'
        hnone').symm
  · exact hlabel h h' (fun source hsource hkind => (hsections source hkind).mp hsource) hname hnone

/-- Items whose symbols have the same addresses are spelled out the same way. -/
theorem image_congr {items : List Ir.Item} {address address' : Str → UInt64}
    (h : ∀ v, .symbolValue v ∈ items → address v.symbol.name = address' v.symbol.name) :
    Emission.image Ir.Item.advance (spelled address) 0 items =
      Emission.image Ir.Item.advance (spelled address') 0 items := by
  unfold Emission.image
  refine List.flatMap_congr fun p hp => ?_
  have hmem := Emission.mem_of_mem_placed hp
  obtain ⟨offset, item⟩ := p
  cases item with
  | symbolValue v =>
    show littleEndian _ _ = littleEndian _ _
    rw [h v hmem]
  | _ => rfl

/-- A region of data is the same in both images. -/
theorem region_eq (hdata : SameData m o m' o') {kind : Ir.SectionKind} (htext : kind ≠ .text)
    {start region region' : Region} (htype : start.type = sectionTypeOf kind)
    (hstart : start.zeroFilled = decide (start.type = .bss)) (hone : start.Same region)
    (hone' : start.Same region') (hsound : region.Sound) (hsound' : region'.Sound)
    (hregion : RegionOf m o kind region) (hregion' : RegionOf m' o' kind region') :
    region = region' := by
  have hempty : ∀ {r : Region}, r.Sound → r.size = 0 → r.data = [] := by
    intro r hr hzero
    cases hfilled : r.zeroFilled with
    | true => exact hr.zeros hfilled
    | false =>
      have hlength := hr.data hfilled
      rw [hzero] at hlength
      exact List.eq_nil_of_length_eq_zero hlength
  have hboth : region.size = region'.size ∧ region.data = region'.data := by
    rcases hregion with ⟨hnone, hsize⟩ | ⟨source, hsource, hkind, hsize, hspelled⟩
    · rcases hregion' with ⟨-, hsize'⟩ | ⟨source, hsource, hkind, -, -⟩
      · exact ⟨hsize.trans hsize'.symm, (hempty hsound hsize).trans (hempty hsound' hsize').symm⟩
      · exact absurd hkind (hnone source ((hdata.sections source (by rwa [hkind])).mpr hsource))
    · rcases hregion' with ⟨hnone, -⟩ | ⟨source', hsource', hkind', hsize', hspelled'⟩
      · exact absurd hkind (hnone source ((hdata.sections source (by rwa [hkind])).mp hsource))
      · have hsame : source' = source := by
          have hfirst :=
            findSection_of_ordered ((hdata.sections source' (by rwa [hkind'])).mpr hsource')
          rw [hkind', ← hkind, findSection_of_ordered hsource] at hfirst
          exact (Option.some.inj hfirst).symm
        subst hsame
        refine ⟨UInt64.toNat_inj.mp (hsize.trans hsize'.symm), ?_⟩
        by_cases hbss : kind = .bss
        · -- nothing is stored
          have hzero : start.zeroFilled = true := by
            rw [hstart, htype, hbss]
            rfl
          rw [hsound.zeros (hone.zeroFilled.trans hzero),
            hsound'.zeros (hone'.zeroFilled.trans hzero)]
        · rw [hspelled htext hbss, hspelled' htext hbss]
          exact image_congr (hdata.names source' hsource (by rwa [hkind]))
  obtain ⟨htype, hsegment, hflags, hname, hbase, hzero⟩ := hone
  obtain ⟨htype', hsegment', hflags', hname', hbase', hzero'⟩ := hone'
  cases region
  cases region'
  simp_all

/-- An image of a code region and data regions. -/
structure ImageOf (m : Ir.Module) (o : ObjectFile) (executable : Executable) (text : Region)
    (others : List Region) : Prop where
  same : List.Forall₂ Region.Same (initRegions {}) (text :: others)
  sound : ∀ region ∈ text :: others, region.Sound
  code : RegionOf m o .text text
  built : ∃ (layout : Layout) (symbols : Symbols), layout.regions = text :: others ∧
    buildExecutable {} layout symbols [o] = .ok executable

/-- **Two images with the same data** differ in their code at most. -/
theorem exists_imageOf (h : Standalone m o executable) (h' : Standalone m' o' executable')
    (hdata : SameData m o m' o') : ∃ (text text' : Region) (others : List Region),
    ImageOf m o executable text others ∧ ImageOf m' o' executable' text' others := by
  obtain ⟨layout, symbols, hbuild, hsame, hsound, hregions⟩ := h.exists_regions
  obtain ⟨layout', symbols', hbuild', hsame', hsound', hregions'⟩ := h'.exists_regions
  obtain ⟨text, others, hone, hothers, hlist⟩ := List.forall₂_cons_left_iff.mp hsame
  obtain ⟨text', others', hone', hothers', hlist'⟩ := List.forall₂_cons_left_iff.mp hsame'
  have htext : text.type = .text := hone.type
  have htext' : text'.type = .text := hone'.type
  rw [hlist] at hsound hregions hsame
  rw [hlist'] at hsound' hregions' hsame'
  have hrest : others' = others := by
    obtain ⟨r₁, rest₁, h₁, htwo, rfl⟩ := List.forall₂_cons_left_iff.mp hothers
    obtain ⟨r₂, rest₂, h₂, hthree, rfl⟩ := List.forall₂_cons_left_iff.mp htwo
    obtain ⟨r₃, rest₃, h₃, hnone, rfl⟩ := List.forall₂_cons_left_iff.mp hthree
    obtain rfl := List.forall₂_nil_left_iff.mp hnone
    obtain ⟨r₁', rest₁', h₁', htwo', rfl⟩ := List.forall₂_cons_left_iff.mp hothers'
    obtain ⟨r₂', rest₂', h₂', hthree', rfl⟩ := List.forall₂_cons_left_iff.mp htwo'
    obtain ⟨r₃', rest₃', h₃', hnone', rfl⟩ := List.forall₂_cons_left_iff.mp hthree'
    obtain rfl := List.forall₂_nil_left_iff.mp hnone'
    have hfirst : r₁ = r₁' := region_eq hdata (show Ir.SectionKind.rodata ≠ .text by decide)
      rfl rfl h₁ h₁' (hsound _ (by simp)) (hsound' _ (by simp)) (hregions _ (by simp) _ h₁.type)
      (hregions' _ (by simp) _ h₁'.type)
    have hsecond : r₂ = r₂' := region_eq hdata (show Ir.SectionKind.data ≠ .text by decide)
      rfl rfl h₂ h₂' (hsound _ (by simp)) (hsound' _ (by simp)) (hregions _ (by simp) _ h₂.type)
      (hregions' _ (by simp) _ h₂'.type)
    have hthird : r₃ = r₃' :=
      region_eq hdata (show Ir.SectionKind.bss ≠ .text by decide) rfl rfl h₃ h₃'
        (hsound _ (by simp)) (hsound' _ (by simp)) (hregions _ (by simp) _ h₃.type)
      (hregions' _ (by simp) _ h₃'.type)
    rw [hfirst, hsecond, hthird]
  subst hrest
  exact ⟨text, text', others',
    ⟨hsame, hsound, hregions text List.mem_cons_self .text htext, layout, symbols, hlist, hbuild⟩,
    ⟨hsame', hsound', hregions' text' List.mem_cons_self .text htext', layout', symbols',
      hlist', hbuild'⟩⟩

end

end Assembler
end MiniTool
