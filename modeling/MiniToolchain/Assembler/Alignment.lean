import MiniToolchain.Assembler.Agreement

/-!
# Where an alignment directive puts things

The assembler aligns the offset in a section, and the linker the offset of the section in its
region. Nothing aligns the region, so what follows `.align n` is at a multiple of `n` when the
region is.

## Main definitions

* `baseFor` — where the region of a section kind starts.
* `StandsAt` — the image has an item at an address.

## Main results

* `dvd_address_iff` — what follows an alignment directive is as aligned as its region.
* `unaligned_text` — a label behind `.align 131072` that is not at a multiple of 131072.
-/

namespace MiniTool

/-- Where the region of a section kind starts. -/
def Linker.LinkOptions.baseFor (options : LinkOptions) : Ir.SectionKind → UInt64
  | .text => options.textBase
  | .rodata => options.rodataBase
  | .data => options.dataBase
  | .bss => options.bssBase

namespace Assembler

open Object Linker Bounds AssemblyContext

/-- The image has the item at the address, and a label has the address. -/
def StandsAt (executable : Executable) (options : LinkOptions) (objects : List ObjectFile)
    (modules : List Ir.Module) (i : ℕ) (kind : Ir.SectionKind) (address : UInt64) (offset : ℕ) :
    Ir.Item → Prop
  | .label l => ∃ s, (objects[i]?.bind fun o => o.symbols.find l.name) = some s ∧
      symbolAddress options objects (i, s) = some address
  | item => kind ≠ .bss →
      ItemLinked executable (finalAddress options objects (modules.map symbolOf) i) address offset
        item

/-! ### Offsets -/

theorem dvd_ofNat {n k : ℕ} (hn : n ∣ 2 ^ 64) (h : n ∣ k) : n ∣ (UInt64.ofNat k).toNat := by
  rw [UInt64.toNat_ofNat']
  exact (Nat.dvd_mod_iff hn).mpr h

/-- An offset that `n` divides does not change whether `n` divides the address. -/
theorem dvd_add_iff {n : ℕ} {base offset : UInt64} (hn : n ∣ 2 ^ 64) (h : n ∣ offset.toNat) :
    n ∣ (base + offset).toNat ↔ n ∣ base.toNat := by
  rw [UInt64.toNat_add, Nat.dvd_mod_iff hn]
  exact Nat.dvd_add_left h

theorem dvd_irAlignUp (offset alignment : ℕ) (h : alignment ≠ 0) :
    alignment ∣ Ir.alignUp offset alignment := by
  unfold Ir.alignUp
  dsimp only
  split_ifs with hone hzero
  · have heq : alignment = 1 := by omega
    rw [heq]
    exact one_dvd _
  · exact Nat.dvd_of_mod_eq_zero hzero
  · -- the sum is the next multiple
    have hlt := Nat.mod_lt offset (by omega : alignment > 0)
    have hdiv := Nat.div_add_mod offset alignment
    have hsum : offset + (alignment - offset % alignment) =
        alignment * (offset / alignment + 1) := by
      rw [Nat.mul_add, Nat.mul_one]
      omega
    rw [hsum]
    exact Nat.dvd_mul_right _ _

/-- The offset of what follows an alignment directive. -/
theorem dvd_offset {items : List Ir.Item} {p : ℕ} {a : Ir.Align}
    (halign : items[p]? = some (.align a)) (hne : a.alignment.toNat ≠ 0) :
    a.alignment.toNat ∣ endOf (items.take (p + 1)) := by
  obtain ⟨hp, hitem⟩ := List.getElem?_eq_some_iff.mp halign
  unfold endOf
  rw [List.take_succ_eq_append_getElem hp, hitem, Emission.endOf_append]
  exact dvd_irAlignUp _ _ hne

theorem le_max_alignment (x y : UInt64) : x ≤ max x y ∧ y ≤ max x y := by
  show x ≤ (if x ≤ y then y else x) ∧ y ≤ (if x ≤ y then y else x)
  split_ifs with h
  · exact ⟨h, UInt64.le_refl y⟩
  · exact ⟨UInt64.le_refl x, (UInt64.le_total x y).resolve_left h⟩

theorem le_maxAlignment (start : UInt64) (items : List Ir.Item) :
    start ≤ maxAlignment start items := by
  induction items generalizing start with
  | nil => exact UInt64.le_refl start
  | cons item items ih =>
    cases item with
    | align a =>
      exact UInt64.le_trans (le_max_alignment start a.alignment).1 (ih (max start a.alignment))
    | _ => exact ih start

/-- The alignment of a section is at least that of every directive in it. -/
theorem alignment_le_maxAlignment {start : UInt64} {items : List Ir.Item} {a : Ir.Align}
    (h : .align a ∈ items) : a.alignment ≤ maxAlignment start items := by
  induction items generalizing start with
  | nil => cases h
  | cons item items ih =>
    rcases List.mem_cons.mp h with heq | hmem
    · cases heq
      exact UInt64.le_trans (le_max_alignment start a.alignment).2
        (le_maxAlignment (max start a.alignment) items)
    · cases item with
      | align b => exact @ih (max start b.alignment) hmem
      | _ => exact @ih start hmem

/-! ### Regions -/

/-- A section of a module has one number. -/
theorem nodup_orderedSections (m : Ir.Module) : (orderedSections m).Nodup := by
  refine List.Nodup.filterMap ?_ (show kSectionOrder.Nodup by decide)
  intro kind kind' source h h'
  have hkind : ∀ {kind},
      source ∈ ((m.findSection kind).filter fun source => !source.items.isEmpty) →
          source.kind = kind := by
    intro kind h
    have hfind : m.findSection kind = some source := Option.eq_some_of_filter_eq_some h
    simpa using List.find?_some hfind
  exact (hkind h).symm.trans (hkind h')

/-- Merging leaves a region where the options put it. -/
theorem base_of_region {options : LinkOptions} {regions : List Region}
    (hsame : List.Forall₂ Region.Same (initRegions options) regions) {region : Region}
    (hregion : region ∈ regions) {kind : Ir.SectionKind}
    (htype : region.type = sectionTypeOf kind) :
    region.base = options.baseFor kind := by
  obtain ⟨i, hi, rfl⟩ := List.mem_iff_getElem.mp hregion
  have hlength := hsame.length_eq
  have hone := hsame.get (by omega) hi
  have hstart : ∀ start ∈ initRegions options, ∀ kind, start.type = sectionTypeOf kind →
      start.base = options.baseFor kind := by
    intro start hmem kind htype
    simp only [initRegions, List.mem_cons, List.not_mem_nil, or_false] at hmem
    rcases hmem with rfl | rfl | rfl | rfl <;> cases kind <;> first | rfl | cases htype
  have hthis := hstart _ (List.get_mem _ ⟨i, by omega⟩) kind
  rw [← hone.base, ← hone.type] at hthis
  exact hthis htype

section

variable {modules : List Ir.Module} {objects : List ObjectFile} {options : LinkOptions}
  {executable : Executable} {i : ℕ} {m : Ir.Module} {o : ObjectFile} {source : Ir.Section}

/-- The address of a section of a module is as aligned as its region. -/
theorem dvd_sectionAddress {layout : Layout} (hmerge : mergeSections options objects = .ok layout)
    (hobject : objects[i]? = some o) (hassembled : Assembled m o) (hproduced : Produced m) {k : ℕ}
    (hk : (orderedSections m)[k]? = some source) {base : UInt64}
    (hbase : sectionAddress options objects i k = some base) {a : Ir.Align}
    (ha : .align a ∈ source.items) (hpow : a.alignment.toNat ∣ 2 ^ 64) :
    a.alignment.toNat ∣ base.toNat ↔ a.alignment.toNat ∣ (options.baseFor source.kind).toNat := by
  have hentry : (source, k) ∈ (orderedSections m).zipIdx := List.mem_zipIdx_iff_getElem?.mpr hk
  have hsource := mem_of_mem_orderedSections (List.mem_of_getElem? hk)
  have hassemblable := assemblable_of_produced hproduced
  have hget := hassembled.getElem?_sections hentry
  have hsection := hassembled.aligned hassemblable _ (List.mem_of_getElem? hget)
  obtain ⟨placement, region, hplacement, hregion, rfl⟩ := placement_of_sectionAddress hmerge hbase
  -- the section is at a multiple of its alignment, which is a multiple of that of the directive
  have hdirective : a.alignment.toNat ∣ (emitted (source, k)).alignment.toNat := by
    refine dvd_of_le_alignment (hassemblable.items _ hsource _ ha) hsection ?_
    rw [emitted_eq]
    exact alignment_le_maxAlignment ha
  have hoffset := of_placement (alignedAt_of_mergeSections hmerge) hobject hget hplacement placement
    rfl hsection.1 _ hpow hdirective
  obtain ⟨-, placed, hplaced, htype, -, -⟩ := placedAt_of_placement hmerge hobject hget hplacement
  cases hregion.symm.trans hplaced
  rw [emitted_eq] at htype
  rw [dvd_add_iff hpow hoffset, base_of_region (merged_of_mergeSections hmerge).same
    (List.mem_of_getElem? hregion) htype]

/-- **An alignment directive aligns what follows it** if and only if it divides the start of the
region: the linker aligns places in a region, not addresses. -/
theorem dvd_address_iff (hmodules : ∀ m ∈ modules, Produced m)
    (hassemble : List.Forall₂ AssemblesTo modules objects)
    (hlink : link objects options = .ok executable) (hm : modules[i]? = some m)
    (hsource : source ∈ m.sections) {p : ℕ} {a : Ir.Align}
    (halign : source.items[p]? = some (.align a)) {next : Ir.Item}
    (hnext : source.items[p + 1]? = some next) :
    ∃ address, ItemAt options objects i m source.kind (p + 1) address ∧
      StandsAt executable options objects modules i source.kind address
        (endOf (source.items.take (p + 1))) next ∧
      (a.alignment.toNat ∣ address.toNat ↔
        a.alignment.toNat ∣ (options.baseFor source.kind).toNat) := by
  have hassembled := assembled_of_assembles hassemble
  have hproduced := hmodules m (List.mem_of_getElem? hm)
  have ha : .align a ∈ source.items := List.mem_of_getElem? halign
  obtain ⟨k, hk⟩ := List.mem_iff_getElem?.mp
    (mem_orderedSections hproduced.wellFormed hsource (List.ne_nil_of_mem ha))
  have hentry : (source, k) ∈ (orderedSections m).zipIdx := List.mem_zipIdx_iff_getElem?.mpr hk
  obtain ⟨hi, rfl⟩ := List.getElem?_eq_some_iff.mp hm
  have hlength := hassembled.length_eq
  have hobject : objects[i]? = some objects[i] := List.getElem?_eq_getElem (by omega)
  have hone : Assembled modules[i] objects[i] := hassembled.get hi (by omega)
  obtain ⟨base, hbase⟩ := exists_sectionAddress hlink hobject hone hentry
  have hplaced : (placed source.items)[p + 1]? =
      some (endOf (source.items.take (p + 1)), next) := getElem?_placed hnext
  refine ⟨base + UInt64.ofNat (endOf (source.items.take (p + 1))),
    ⟨k, source, base, _, hk, rfl, hbase, hplaced, rfl⟩, ?_, ?_⟩
  · -- a label is in the symbol table, everything else in the image
    have himage : source.kind ≠ .bss → ItemLinked executable
        (finalAddress options objects (modules.map symbolOf) i)
        (base + UInt64.ofNat (endOf (source.items.take (p + 1))))
        (endOf (source.items.take (p + 1))) next := by
      intro hkind
      obtain ⟨k', base', hk', hbase', hitem⟩ :=
        linked_image hmodules hassemble hlink hm hsource hkind (List.mem_of_getElem? hplaced)
      have hsame : k' = k := by
        obtain ⟨hlt, hget⟩ := List.getElem?_eq_some_iff.mp hk
        obtain ⟨hlt', hget'⟩ := List.getElem?_eq_some_iff.mp hk'
        exact (nodup_orderedSections _).getElem_inj_iff.mp (hget'.trans hget.symm)
      subst hsame
      cases hbase.symm.trans hbase'
      exact hitem
    cases next with
    | label l =>
      obtain ⟨s, hs, hsection, hvalue⟩ := labelOf_of_placed hone.labels hk hplaced rfl
      refine ⟨withBinding (bindingOf modules[i] l.name .local) s, ?_, ?_⟩
      · rw [hobject, Option.bind_some, hone.find]
        unfold symbolOf
        rw [hs]
      · show (sectionAddress options objects i s.sectionId.toNat).map
          (fun address => address + s.value) = _
        rw [hsection, toNat_index hentry, hbase, hvalue]
        rfl
    | _ => exact himage
  · have hassemblable := assemblable_of_produced hproduced
    have halignment : IsAlignment a.alignment := hassemblable.items _ hsource _ ha
    obtain ⟨e, he, hpow⟩ := exists_pow_of_isAlignment halignment
    have hpow : a.alignment.toNat ∣ 2 ^ 64 := by
      rw [hpow]
      exact Nat.pow_dvd_pow 2 he
    have hne : a.alignment.toNat ≠ 0 := fun hzero => halignment.1 (UInt64.toNat_inj.mp hzero)
    unfold link at hlink
    split_ifs at hlink with hempty
    · cases hlink
    obtain ⟨layout, hmerge, -⟩ := Checked.bind_eq_ok.mp hlink
    rw [dvd_add_iff hpow (dvd_ofNat hpow (dvd_offset halign hne))]
    exact dvd_sectionAddress hmerge hobject hone hproduced hk hbase ha hpow

end

/-- Behind one byte of `main.asm`, `.align 16` pads fifteen more, and the pointer is at a multiple
of 16. -/
theorem dvd_address_main : ∃ address,
    ItemAt {} pairObjects 0 mainModule .data 2 address ∧
      StandsAt (imageOf pairObjects) {} pairObjects [mainModule, tableModule] 0 .data address 16
        pointer ∧
      16 ∣ address.toNat := by
  have hassemble : List.Forall₂ AssemblesTo [mainModule, tableModule] pairObjects :=
    .cons (exists_assemble (by decide)) (.cons (exists_assemble (by decide)) .nil)
  have hdata : mainModule.sections[1]? = some mainModule.sections[1] := rfl
  obtain ⟨address, hat, hstands, hdvd⟩ := dvd_address_iff produced_pair hassemble link_pair
    (show [mainModule, tableModule][0]? = some mainModule from rfl) (List.mem_of_getElem? hdata)
    (show mainModule.sections[1].items[1]? =
      some (.align { alignment := 16, location := ⟨0, 9, 9, 6⟩ }) from rfl)
    (show mainModule.sections[1].items[2]? = some pointer from rfl)
  have hoffset : endOf (mainModule.sections[1].items.take 2) = 16 := by decide
  rw [hoffset] at hstands
  exact ⟨address, hat, hstands, hdvd.mpr (by decide)⟩

/-- `.align 131072`, then `_start: JMP _start`. -/
def alignedModule : Ir.Module where
  sections := [
    { kind := .text, name := str ".text"
      items := [
        .align { alignment := 131072 },
        .label { name := str "_start" },
        .instruction { machine := { opcode := .JMP }, symbol := some { name := str "_start" } }] }]
  globals := [str "_start"]

/-- `alignedModule`, assembled: there is nothing to pad. -/
def alignedObject : ObjectFile :=
  { startObject with sections := startObject.sections.map fun s => { s with alignment := 131072 } }

theorem frontEnd_aligned : Ir.FrontEnd alignedModule :=
  ⟨{ statements := [
    .directive { type := .global, operands := [{ type := .symbol, symbol := str "_start" }] },
    .directive { type := .align, operands := [{ type := .immediate, immediate := 131072 }] },
    .label { name := str "_start" },
    .instruction {
      mnemonic := str "JMP", operands := [{ type := .symbol, symbol := str "_start" }] }] },
    [], {}, {}, Sema.accepts_of_checks (by decide) (by decide), rfl⟩

theorem produced_aligned : Produced alignedModule :=
  ⟨alignedModule, fun _ => false, .O0, frontEnd_aligned, rfl⟩

theorem assemblesTo_aligned : AssemblesTo alignedModule alignedObject :=
  ⟨kMaxSize, {}, {}, by decide⟩

theorem link_aligned : link [alignedObject] {} = .ok startExecutable := by
  decide +kernel

/-- `.align 131072` at the start of `.text`: the label is at `0x10000`, which is no multiple. -/
theorem unaligned_text : Produced alignedModule ∧ AssemblesTo alignedModule alignedObject ∧
    link [alignedObject] {} = .ok startExecutable ∧
    ItemAt {} [alignedObject] 0 alignedModule .text 1 0x10000 ∧
    startExecutable.symbols.map (fun s => (s.name, s.address)) = [(str "_start", 0x10000)] ∧
    ¬131072 ∣ (0x10000 : UInt64).toNat :=
  ⟨produced_aligned, assemblesTo_aligned, link_aligned,
    ⟨0, _, 0x10000, _, rfl, rfl, by decide, rfl, rfl⟩, rfl, by decide⟩

end Assembler
end MiniTool
