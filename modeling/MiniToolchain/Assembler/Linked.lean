import MiniToolchain.Assembler.Objects
import MiniToolchain.Linker.Relocated
import MiniToolchain.Linker.Safety
import MiniToolchain.Linker.Single

/-!
# What a link makes of the modules

An item of a module lies in the image where its section was put, at its offset in the section.  What
the module spells out is there as it was emitted, and where the module names a symbol the image has
the address that the name has for the module.

## Main definitions

* `Produced` — the modules of the front end.
* `ItemLinked` — what an image holds of an item.

## Main results

* `linked_image` — the image of a link holds every item of every module.
-/

namespace MiniTool
namespace Assembler

open Object Linker Bounds AssemblyContext

/-! ### What an image holds -/

/-- A module of the front end, optimised or not. -/
def Produced (m : Ir.Module) : Prop :=
  ∃ source oob level, Ir.FrontEnd source ∧ m = (Optimizer.run oob level source).1

/-- What an image holds of an item at a place; names have these addresses. -/
def ItemLinked (executable : Executable) (addresses : Str → Option UInt64) (place : UInt64)
    (offset : ℕ) : Ir.Item → Prop
  | .instruction i =>
    ∃ field machine, executable.bytesAt place 8 = some field ∧ Isa.decodeFrom field = .ok machine ∧
      machine.opcode = i.machine.opcode ∧ machine.dst = i.machine.dst ∧
      machine.src = i.machine.src ∧
      match i.symbol with
      | none => machine.imm = i.machine.imm
      | some symbol => ∃ address, addresses symbol.name = some address ∧
        if Isa.formatOf i.machine.opcode = some .jump then
          Isa.branchTarget place machine.imm = address + symbol.addend.toUInt64
        else machine.imm.toUInt64 = address + symbol.addend.toUInt64
  | .symbolValue v =>
    ∃ field address, executable.bytesAt place v.width.toNat = some field ∧
      addresses v.symbol.name = some address ∧
      ByteOrder.load v.width.toNat field = address + v.symbol.addend.toUInt64
  | item =>
    ∀ j b, (itemBytes offset item)[j]? = some b →
      executable.bytesAt (place + UInt64.ofNat j) 1 = some [b]

/-! ### The objects of the modules -/

theorem Produced.wellFormed {m : Ir.Module} (h : Produced m) : m.WellFormed := by
  obtain ⟨source, oob, level, hfront, rfl⟩ := h
  exact wellFormed_run hfront.wellFormed oob level

theorem assemblable_of_produced {m : Ir.Module} (h : Produced m) : Assemblable m :=
  assemblable_of_wellFormed h.wellFormed

theorem findSection_of_mem {m : Ir.Module} (h : m.WellFormed) {source : Ir.Section}
    (hsource : source ∈ m.sections) : m.findSection source.kind = some source := by
  have hunique : ∀ {sections : List Ir.Section}, (sections.map Ir.Section.kind).Nodup →
      source ∈ sections → (sections.find? fun s => s.kind = source.kind) = some source := by
    intro sections
    induction sections with
    | nil => exact fun _ hmem => absurd hmem List.not_mem_nil
    | cons s rest ih =>
      intro hnodup hmem
      rw [List.map_cons, List.nodup_cons] at hnodup
      rcases List.mem_cons.mp hmem with rfl | hmem
      · rw [List.find?_cons_of_pos (by simp)]
      · have hne : s.kind ≠ source.kind := by
          intro heq
          rw [heq] at hnodup
          exact hnodup.1 (List.mem_map_of_mem hmem)
        rw [List.find?_cons_of_neg (by simpa using hne)]
        exact ih hnodup.2 hmem
  exact hunique h.kinds hsource

/-- A section that carries anything is emitted. -/
theorem mem_orderedSections {m : Ir.Module} (h : m.WellFormed) {source : Ir.Section}
    (hsource : source ∈ m.sections) (hitems : source.items ≠ []) : source ∈ orderedSections m := by
  refine List.mem_filterMap.mpr ⟨source.kind, ?_, ?_⟩
  · cases source.kind <;> decide
  · rw [findSection_of_mem h hsource]
    have hempty : (!source.items.isEmpty) = true := by simpa using hitems
    simp [Option.filter, hempty]

namespace Assembled

variable {m : Ir.Module} {o : ObjectFile}

/-- What an object offers to the others is global or weak. -/
theorem plain (h : Assembled m o) : ∀ s ∈ o.symbols.symbols, Offered s = true →
    s.binding = .global ∨ s.binding = .weak := by
  intro s hs hoffered
  have hboth := (Bool.and_eq_true _ _).mp hoffered
  have hnotLocal : s.binding ≠ .local := by simpa using hboth.2
  have hfind := h.find s.name
  rw [SymbolTable.find_of_mem hs] at hfind
  unfold symbolOf at hfind
  cases hlabel : labelOf m s.name with
  | none =>
    -- only labels are defined
    rw [hlabel] at hfind
    dsimp only at hfind
    split_ifs at hfind
    rw [Option.some.inj hfind] at hboth
    cases hboth.1
  | some label =>
    rw [hlabel] at hfind
    have hbinding : s.binding = bindingOf m s.name .local :=
      congrArg Symbol.binding (Option.some.inj hfind)
    have hexternal : s.name ∉ m.externs := by
      intro hmem
      rw [h.externs _ hmem] at hlabel
      cases hlabel
    rw [hbinding] at hnotLocal ⊢
    unfold bindingOf at hnotLocal ⊢
    rw [if_neg hexternal] at hnotLocal ⊢
    split_ifs at hnotLocal ⊢
    · exact Or.inr rfl
    · exact Or.inl rfl
    · exact absurd rfl hnotLocal

end Assembled

/-- Different items of a section have no byte in common. -/
theorem placed_apart {items : List Ir.Item} {p q : ℕ × Ir.Item} (hp : p ∈ placed items)
    (hq : q ∈ placed items) (hne : p ≠ q) :
    p.2.advance p.1 ≤ q.1 ∨ q.2.advance q.1 ≤ p.1 := by
  have hpairs := Emission.pairwise_placed Ir.Item.le_advance 0 items
  obtain ⟨a, ha, rfl⟩ := List.mem_iff_getElem.mp hp
  obtain ⟨b, hb, rfl⟩ := List.mem_iff_getElem.mp hq
  rw [List.pairwise_iff_getElem] at hpairs
  rcases lt_trichotomy a b with hlt | rfl | hlt
  · exact Or.inl (hpairs a b ha hb hlt)
  · exact absurd rfl hne
  · exact Or.inr (hpairs b a hb ha hlt)

/-- The field of a reference is the whole item. -/
theorem width_of_referenceOf {m : Ir.Module} (hm : Assemblable m) {entry : Ir.Section × ℕ}
    (hentry : entry ∈ (orderedSections m).zipIdx) {p : ℕ × Ir.Item} (hp : p ∈ placed entry.1.items)
    {reference : Reference} (h : referenceOf entry.2 p.1 p.2 = some reference) :
    entry.1.kind ≠ .bss ∧ reference.index = entry.2 ∧ reference.offset = p.1 ∧
      p.1 + relocationWidth reference.type = p.2.advance p.1 := by
  have hsource := mem_of_mem_orderedSections
    (List.mem_of_getElem? (List.mem_zipIdx_iff_getElem?.mp hentry))
  exact field_of_referenceOf (hm.items _ hsource p.2 (Emission.mem_of_mem_placed hp)) h

namespace Assembled

variable {m : Ir.Module} {o : ObjectFile}

/-- What the second pass emitted for an item is where the item is. -/
theorem subspan_item (h : Assembled m o) {entry : Ir.Section × ℕ}
    (hentry : entry ∈ (orderedSections m).zipIdx) (hstored : entry.1.kind ≠ .bss)
    {p : ℕ × Ir.Item} (hp : p ∈ placed entry.1.items) :
    subspan (resize (emitted entry).data (emitted entry).size.toNat) p.1
      (itemBytes p.1 p.2).length = some (itemBytes p.1 p.2) := by
  have hlength := length_data_emitted hstored
  have hresize : resize (emitted entry).data (emitted entry).size.toNat =
      Emission.image Ir.Item.advance itemBytes 0 entry.1.items := by
    unfold resize
    rw [size_emitted (h.endOf_le hentry), hlength, Nat.sub_self, List.replicate_zero,
      List.append_nil, List.take_of_length_le (le_of_eq hlength), emitted_eq]
    exact if_neg hstored
  rw [hresize]
  exact Emission.subspan_image (fun q _ => length_itemBytes q.1 q.2) hp

/-- What the assembler emits for an instruction is decoded again. -/
theorem decode_item (h : Assembled m o) {entry : Ir.Section × ℕ}
    (hentry : entry ∈ (orderedSections m).zipIdx) {offset : ℕ} {ins : Ir.Instruction}
    (hp : (offset, .instruction ins) ∈ placed entry.1.items) :
    (itemBytes offset (.instruction ins)).length = 8 ∧
      Isa.decodeFrom (itemBytes offset (.instruction ins)) = .ok (placeholder ins) := by
  have hsource := List.mem_of_getElem? (List.mem_zipIdx_iff_getElem?.mp hentry)
  obtain ⟨w, hw⟩ := h.encodable _ hsource _ (Emission.mem_of_mem_placed hp)
  have hword : itemBytes offset (.instruction ins) = ByteOrder.littleEndian 8 w := by
    simp only [itemBytes, hw]
  rw [hword]
  exact ⟨ByteOrder.length_littleEndian _ _, Isa.decodeFrom_littleEndian hw⟩

/-- A relocation of a section is the one of an item of it. -/
theorem exists_item (h : Assembled m o) (hm : Assemblable m) {entry : Ir.Section × ℕ}
    (hentry : entry ∈ (orderedSections m).zipIdx) {r : Relocation} (hr : r ∈ o.relocations)
    (hindex : r.sectionId.toNat = entry.2) :
    ∃ q ∈ placed entry.1.items, (referenceOf entry.2 q.1 q.2).isSome = true ∧
      r.offset.toNat = q.1 ∧ q.1 + relocationWidth r.type = q.2.advance q.1 := by
  obtain ⟨reference, hreference, -, heq⟩ := h.exists_reference hr
  obtain ⟨other, hother, q, hq, hof⟩ := mem_sectionReferences.mp hreference
  obtain ⟨-, hindex', hoffset, hwidth⟩ := width_of_referenceOf hm hother hq hof
  -- section numbers tell sections apart
  have hsame : other = entry := by
    have hnumber : other.2 = entry.2 := by
      have hkept := toNat_index hother
      rw [heq] at hindex
      rw [← hindex'] at hkept ⊢
      exact hkept.symm.trans hindex
    have hone := List.mem_zipIdx_iff_getElem?.mp hother
    have htwo := List.mem_zipIdx_iff_getElem?.mp hentry
    rw [hnumber, htwo] at hone
    exact Prod.ext (Option.some.inj hone).symm hnumber
  subst hsame
  refine ⟨q, hq, by rw [hof]; rfl, ?_, ?_⟩
  · rw [heq]
    show (UInt64.ofNat reference.offset).toNat = q.1
    rw [hoffset, h.toNat_offset hother hq]
  · rw [heq]
    exact hwidth

/-- The relocations of an object have no byte in common. -/
theorem fieldsApart (h : Assembled m o) (hm : Assemblable m) :
    o.relocations.Pairwise FieldsApart := by
  have hreferences : (sectionReferences (orderedSections m).zipIdx).Pairwise fun a b =>
      a.index = b.index → a.offset + relocationWidth a.type ≤ b.offset := by
    unfold sectionReferences
    rw [List.pairwise_flatMap]
    constructor
    · intro entry hentry
      unfold referencesOf
      rw [List.pairwise_filterMap]
      refine (Emission.pairwise_placed Ir.Item.le_advance 0 entry.1.items).imp_of_mem ?_
      intro p q hp hq hbefore a ha b hb _
      obtain ⟨-, -, hoffset, hwidth⟩ := width_of_referenceOf hm hentry hp ha
      obtain ⟨-, -, hoffset', -⟩ := width_of_referenceOf hm hentry hq hb
      omega
    · -- different sections have different numbers
      rw [List.pairwise_iff_getElem]
      intro x y hx hy hlt a ha b hb heq
      have hentryX := List.getElem_mem hx
      have hentryY := List.getElem_mem hy
      obtain ⟨p, hp, hpa⟩ := List.mem_filterMap.mp ha
      obtain ⟨q, hq, hqb⟩ := List.mem_filterMap.mp hb
      have hindex := (width_of_referenceOf hm hentryX hp hpa).2.1
      have hindex' := (width_of_referenceOf hm hentryY hq hqb).2.1
      rw [hindex, hindex'] at heq
      simp only [List.getElem_zipIdx] at heq
      omega
  have hrelocates := h.relocations
  have hbounds : ∀ reference ∈ sectionReferences (orderedSections m).zipIdx,
      (UInt32.ofNat reference.index).toNat = reference.index ∧
        (UInt64.ofNat reference.offset).toNat = reference.offset := by
    intro reference hreference
    obtain ⟨entry, hentry, p, hp, hof⟩ := mem_sectionReferences.mp hreference
    obtain ⟨-, hindex, hoffset, -⟩ := width_of_referenceOf hm hentry hp hof
    rw [hindex, hoffset]
    exact ⟨toNat_index hentry, h.toNat_offset hentry hp⟩
  generalize sectionReferences (orderedSections m).zipIdx = references at *
  rw [List.pairwise_iff_getElem] at hreferences ⊢
  obtain ⟨hlength, hget⟩ := List.forall₂_iff_get.mp hrelocates
  intro x y hx hy hlt hsame
  have hone := hget x (by omega) hx
  have htwo := hget y (by omega) hy
  simp only [List.get_eq_getElem] at hone htwo
  have hbx := hbounds _ (List.getElem_mem (show x < references.length by omega))
  have hby := hbounds _ (List.getElem_mem (show y < references.length by omega))
  rw [hone.eq, htwo.eq] at hsame ⊢
  dsimp only [Reference.relocation] at hsame ⊢
  rw [hbx.1, hby.1] at hsame
  rw [hbx.2, hby.2]
  exact Or.inl (hreferences x y (by omega) (by omega) hlt hsame)

end Assembled

/-! ### One section of a link -/

/-- What a branch names is relative, everything else is not. -/
theorem relocationForInstruction_eq (opcode : Isa.Opcode) : relocationForInstruction opcode =
    if Isa.formatOf opcode = some .jump then .pcrel48 else .imm48 := by
  unfold relocationForInstruction Isa.formatOf
  cases Isa.findOpcode opcode with
  | none => rfl
  | some info =>
    simp only [Option.map_some, Option.some.injEq]

/-- A section of the object of a module, and where a link put it. -/
structure SectionLinked (objects : List ObjectFile) (options : LinkOptions)
    (executable : Executable) (i : ℕ) (m : Ir.Module) (o : ObjectFile) (entry : Ir.Section × ℕ)
    (base : UInt64) : Prop where
  wellFormed : ∀ o ∈ objects, o.WellFormed
  plain : PlainBindings objects
  fieldsApart : ∀ o ∈ objects, o.relocations.Pairwise FieldsApart
  linked : link objects options = .ok executable
  isObject : objects[i]? = some o
  assembled : Assembled m o
  assemblable : Assemblable m
  isSection : entry ∈ (orderedSections m).zipIdx
  stored : entry.1.kind ≠ .bss
  address : sectionAddress options objects i entry.2 = some base

namespace SectionLinked

variable {objects : List ObjectFile} {options : LinkOptions} {executable : Executable} {i : ℕ}
  {m : Ir.Module} {o : ObjectFile} {entry : Ir.Section × ℕ} {base : UInt64} {p : ℕ × Ir.Item}

theorem size (h : SectionLinked objects options executable i m o entry base) :
    (emitted entry).size.toNat = endOf entry.1.items :=
  size_emitted (h.assembled.endOf_le h.isSection)

theorem type_ne_bss (h : SectionLinked objects options executable i m o entry base) :
    (emitted entry).type ≠ .bss := by
  have hstored := h.stored
  rw [emitted_eq]
  show sectionTypeOf entry.1.kind ≠ .bss
  cases hkind : entry.1.kind with
  | bss => exact absurd hkind hstored
  | _ => decide

/-- The bytes of an item that refers to nothing are copied. -/
theorem bytesAt_item (h : SectionLinked objects options executable i m o entry base)
    (hp : p ∈ placed entry.1.items) (hnone : referenceOf entry.2 p.1 p.2 = none) {j count : ℕ}
    (hcount : 0 < count) (hfits : j + count ≤ (itemBytes p.1 p.2).length) :
    executable.bytesAt (base + UInt64.ofNat (p.1 + j)) count =
      subspan (itemBytes p.1 p.2) j count := by
  have hadvance := length_itemBytes p.1 p.2
  have hend := Emission.advance_le_of_mem_placed Ir.Item.le_advance hp
  have hsize := h.size
  have hbytes := bytesAt_of_link h.wellFormed h.linked h.isObject
    (h.assembled.getElem?_sections h.isSection) h.type_ne_bss h.address hcount
    (show (p.1 + j) + count ≤ (emitted entry).size.toNat by
      rw [hsize]
      exact le_trans (by omega) hend) (by
      intro r hr hindex
      obtain ⟨q, hq, hsome, hoffset, hwidth⟩ :=
        h.assembled.exists_item h.assemblable h.isSection hr hindex
      -- the item with a reference is another one
      have hne : p ≠ q := by
        rintro rfl
        rw [hnone] at hsome
        cases hsome
      rcases placed_apart hp hq hne with hbefore | hafter
      · right
        omega
      · left
        omega)
  rw [hbytes, subspan_of_subspan (h.assembled.subspan_item h.isSection h.stored hp) hfits]

/-- The field of an item that refers to a symbol holds the address of the symbol. -/
theorem relocated_item (h : SectionLinked objects options executable i m o entry base)
    (hp : p ∈ placed entry.1.items) {reference : Reference}
    (href : referenceOf entry.2 p.1 p.2 = some reference) :
    ∃ target field',
      finalAddress options objects (objects.map fun o => o.symbols.find) i reference.symbol.name =
        some target ∧
      executable.bytesAt (base + UInt64.ofNat p.1) (relocationWidth reference.type) =
        some field' ∧
      Holds reference.type (itemBytes p.1 p.2) field'
        (target + reference.symbol.addend.toUInt64) (base + UInt64.ofNat p.1) := by
  obtain ⟨-, hindex, hoffset, hwidth⟩ := width_of_referenceOf h.assemblable h.isSection hp href
  have hmem : reference ∈ sectionReferences (orderedSections m).zipIdx :=
    mem_sectionReferences.mpr ⟨entry, h.isSection, p, hp, href⟩
  obtain ⟨r, hr, hsymbol, heq⟩ := h.assembled.exists_relocation hmem
  have hsection : r.sectionId.toNat = entry.2 := by
    rw [heq]
    show (UInt32.ofNat reference.index).toNat = entry.2
    rw [hindex, toNat_index h.isSection]
  have hplace : r.offset = UInt64.ofNat p.1 := by
    rw [heq]
    exact congrArg UInt64.ofNat hoffset
  have htype : r.type = reference.type := by
    rw [heq]
    rfl
  have haddend : r.addend = reference.symbol.addend := by
    rw [heq]
    rfl
  obtain ⟨symbol, target, field, field', hget, htarget, hfield, hfield', hholds⟩ :=
    relocated_of_link h.wellFormed h.plain h.fieldsApart h.linked h.isObject
      (h.assembled.getElem?_sections h.isSection) h.address hr hsection
  -- the symbol is the one of the name
  obtain ⟨hlt, hname⟩ := SymbolTable.indexOf_eq_some.mp hsymbol
  rw [List.getElem?_eq_getElem hlt] at hget
  rw [← Option.some.inj hget, hname] at htarget
  -- the field is the item
  have hlength : relocationWidth r.type = (itemBytes p.1 p.2).length := by
    have hadvance := length_itemBytes p.1 p.2
    rw [htype]
    omega
  rw [hplace] at hfield hfield' hholds
  rw [h.assembled.toNat_offset h.isSection hp, hlength,
    h.assembled.subspan_item h.isSection h.stored hp] at hfield
  cases hfield
  rw [htype] at hfield' hholds
  rw [haddend] at hholds
  exact ⟨target, field', htarget, hfield', hholds⟩

/-- An item without a reference is there byte by byte. -/
theorem plain_item (h : SectionLinked objects options executable i m o entry base)
    (hp : p ∈ placed entry.1.items) (hnone : referenceOf entry.2 p.1 p.2 = none) {j : ℕ} {b : UInt8}
    (hb : (itemBytes p.1 p.2)[j]? = some b) :
    executable.bytesAt (base + UInt64.ofNat p.1 + UInt64.ofNat j) 1 = some [b] := by
  have hlt := (List.getElem?_eq_some_iff.mp hb).1
  rw [UInt64.add_assoc, ← UInt64.ofNat_add, h.bytesAt_item hp hnone Nat.zero_lt_one hlt,
    subspan_of_le hlt, List.take_one, List.head?_drop]
  exact congrArg (fun o => some o.toList) hb

/-- The field of a data item holds the address of its symbol. -/
theorem symbolValue_item (h : SectionLinked objects options executable i m o entry base)
    {offset : ℕ} {v : Ir.SymbolValue} (hp : (offset, .symbolValue v) ∈ placed entry.1.items) :
    ItemLinked executable
      (finalAddress options objects (objects.map fun o => o.symbols.find) i)
      (base + UInt64.ofNat offset) offset (.symbolValue v) := by
  obtain ⟨target, field', htarget, hfield', hholds⟩ := h.relocated_item hp rfl
  have hsource := mem_of_mem_orderedSections
    (List.mem_of_getElem? (List.mem_zipIdx_iff_getElem?.mp h.isSection))
  have hwidth := (h.assemblable.items _ hsource _ (Emission.mem_of_mem_placed hp)).2
  dsimp only at hfield' hholds htarget
  refine ⟨field', target, ?_, htarget, ?_⟩
  · rcases hwidth with hwidth | hwidth
    · rw [hwidth] at hfield' ⊢
      exact hfield'
    · rw [hwidth] at hfield' ⊢
      exact hfield'
  · rcases hwidth with hwidth | hwidth
    · rw [hwidth] at hholds ⊢
      exact hholds
    · rw [hwidth] at hholds ⊢
      exact hholds

/-- An instruction without a symbol is there as it is. -/
theorem plain_instruction (h : SectionLinked objects options executable i m o entry base)
    {offset : ℕ} {ins : Ir.Instruction} (hp : (offset, .instruction ins) ∈ placed entry.1.items)
    (hsymbol : ins.symbol = none) :
    ∃ field, executable.bytesAt (base + UInt64.ofNat offset) 8 = some field ∧
      Isa.decodeFrom field = .ok ins.machine := by
  obtain ⟨hlength, hdecode⟩ := h.assembled.decode_item h.isSection hp
  have hnone : referenceOf entry.2 offset (.instruction ins) = none := by
    show ins.symbol.map _ = none
    rw [hsymbol]
    rfl
  have hread := h.bytesAt_item hp hnone (show 0 < 8 by decide)
    (show 0 + 8 ≤ (itemBytes offset (.instruction ins)).length by rw [hlength])
  have hwhole : subspan (itemBytes offset (.instruction ins)) 0 8 =
      some (itemBytes offset (.instruction ins)) := by
    rw [subspan_of_le (by omega), List.drop_zero, List.take_of_length_le (le_of_eq hlength)]
  dsimp only at hread
  rw [hwhole, Nat.add_zero] at hread
  have hsame : placeholder ins = ins.machine := by
    unfold placeholder Ir.Instruction.isSymbolic
    rw [hsymbol]
    rfl
  rw [hsame] at hdecode
  exact ⟨_, hread, hdecode⟩

/-- An instruction with a symbol has its address, or the way there, for its immediate. -/
theorem symbolic_instruction (h : SectionLinked objects options executable i m o entry base)
    {offset : ℕ} {ins : Ir.Instruction} (hp : (offset, .instruction ins) ∈ placed entry.1.items)
    {symbol : Ir.SymbolRef} (hsymbol : ins.symbol = some symbol) :
    ∃ field machine target, executable.bytesAt (base + UInt64.ofNat offset) 8 = some field ∧
      Isa.decodeFrom field = .ok machine ∧ machine.opcode = ins.machine.opcode ∧
      machine.dst = ins.machine.dst ∧ machine.src = ins.machine.src ∧
      finalAddress options objects (objects.map fun o => o.symbols.find) i symbol.name =
        some target ∧
      if Isa.formatOf ins.machine.opcode = some .jump then
        Isa.branchTarget (base + UInt64.ofNat offset) machine.imm = target + symbol.addend.toUInt64
      else machine.imm.toUInt64 = target + symbol.addend.toUInt64 := by
  obtain ⟨-, hdecode⟩ := h.assembled.decode_item h.isSection hp
  obtain ⟨hopcode, hdst, hsrc⟩ := placeholder_fields ins
  have href : referenceOf entry.2 offset (.instruction ins) = some
      { index := entry.2, offset, type := relocationForInstruction ins.machine.opcode,
        symbol } := by
    show ins.symbol.map _ = _
    rw [hsymbol]
    rfl
  obtain ⟨target, field', htarget, hfield', hholds⟩ := h.relocated_item hp href
  dsimp only at htarget hfield' hholds
  have htype := relocationForInstruction_eq ins.machine.opcode
  by_cases hjump : Isa.formatOf ins.machine.opcode = some .jump
  · rw [if_pos hjump] at htype
    rw [htype] at hfield' hholds
    obtain ⟨before, machine, hbefore, hmachine, hop, hd, hs, himm⟩ := hholds
    rw [hdecode] at hbefore
    cases hbefore
    refine ⟨field', machine, target, hfield', hmachine, hop.trans hopcode, hd.trans hdst,
      hs.trans hsrc, htarget, ?_⟩
    rw [if_pos hjump]
    exact himm
  · rw [if_neg hjump] at htype
    rw [htype] at hfield' hholds
    obtain ⟨before, machine, hbefore, hmachine, hop, hd, hs, himm⟩ := hholds
    rw [hdecode] at hbefore
    cases hbefore
    refine ⟨field', machine, target, hfield', hmachine, hop.trans hopcode, hd.trans hdst,
      hs.trans hsrc, htarget, ?_⟩
    rw [if_neg hjump, himm]
    rfl

/-- **The image holds an item of the section.** -/
theorem item (h : SectionLinked objects options executable i m o entry base)
    (hp : p ∈ placed entry.1.items) :
    ItemLinked executable
      (finalAddress options objects (objects.map fun o => o.symbols.find) i)
      (base + UInt64.ofNat p.1) p.1 p.2 := by
  obtain ⟨offset, item⟩ := p
  cases item with
  | label l => exact fun j b hb => h.plain_item hp rfl hb
  | bytes b => exact fun j b hb => h.plain_item hp rfl hb
  | space s => exact fun j b hb => h.plain_item hp rfl hb
  | align a => exact fun j b hb => h.plain_item hp rfl hb
  | symbolValue v => exact h.symbolValue_item hp
  | instruction ins =>
    unfold ItemLinked
    dsimp only
    cases hsymbol : ins.symbol with
    | none =>
      obtain ⟨field, hfield, hdecode⟩ := h.plain_instruction hp hsymbol
      exact ⟨field, _, hfield, hdecode, rfl, rfl, rfl, rfl⟩
    | some symbol =>
      obtain ⟨field, machine, target, hfield, hdecode, hopcode, hdst, hsrc, htarget, himm⟩ :=
        h.symbolic_instruction hp hsymbol
      exact ⟨field, machine, hfield, hdecode, hopcode, hdst, hsrc, target, htarget, himm⟩

end SectionLinked

/-! ### All modules -/

section

variable {modules : List Ir.Module} {objects : List ObjectFile} {options : LinkOptions}
  {executable : Executable} {i : ℕ} {m : Ir.Module} {o : ObjectFile}

/-- The objects of the modules have the symbols that the modules say. -/
theorem map_find_of_assembled (h : List.Forall₂ Assembled modules objects) :
    (objects.map fun o => o.symbols.find) = modules.map symbolOf := by
  induction h with
  | nil => rfl
  | cons hone _ ih =>
    rw [List.map_cons, List.map_cons, ih]
    congr 1
    funext n
    exact hone.find n

theorem exists_module (h : List.Forall₂ Assembled modules objects) (ho : o ∈ objects) :
    ∃ m ∈ modules, Assembled m o := by
  obtain ⟨i, hi, rfl⟩ := List.mem_iff_getElem.mp ho
  have hlength := h.length_eq
  exact ⟨_, List.getElem_mem (by omega), h.get (by omega) hi⟩

/-- A section that is emitted is put somewhere. -/
theorem exists_sectionAddress_of_merge {layout : Layout}
    (hmerge : mergeSections options objects = .ok layout)
    (hobject : objects[i]? = some o) (h : Assembled m o) {entry : Ir.Section × ℕ}
    (hentry : entry ∈ (orderedSections m).zipIdx) :
    ∃ base, sectionAddress options objects i entry.2 = some base := by
  obtain ⟨placed, found, hplaced, hfound, hin⟩ :=
    (inLayout_of_mergeSections hmerge).placement hobject (h.getElem?_sections hentry)
  cases found with
  | none =>
    -- no section of a module is a null section
    have hnull : sectionTypeOf entry.1.kind = .null := by
      have htype : (emitted entry).type = .null := hin
      rw [emitted_eq] at htype
      exact htype
    cases hkind : entry.1.kind <;> rw [hkind] at hnull <;> cases hnull
  | some placement =>
    obtain ⟨region, hregion, -⟩ := hin
    have hat : layout.placementAt i entry.2 = some placement :=
      placementAt_eq_some.mpr ⟨placed, hplaced, hfound⟩
    refine ⟨region.base + placement.offset, ?_⟩
    unfold sectionAddress
    rw [hmerge]
    dsimp only
    rw [hat, Option.bind_some, hregion, Option.map_some]

theorem exists_sectionAddress (hlink : link objects options = .ok executable)
    (hobject : objects[i]? = some o) (h : Assembled m o) {entry : Ir.Section × ℕ}
    (hentry : entry ∈ (orderedSections m).zipIdx) :
    ∃ base, sectionAddress options objects i entry.2 = some base := by
  obtain ⟨-, layout, _, _, hmerge, -⟩ := link_cases hlink
  exact exists_sectionAddress_of_merge hmerge hobject h hentry

/-- What is assembled one by one. -/
theorem assembled_of_assembles (h : List.Forall₂ (fun m o => ∃ memory diagnostics diagnostics',
    assemble memory m diagnostics = .ok (o, diagnostics')) modules objects) :
    List.Forall₂ Assembled modules objects := by
  refine h.imp ?_
  rintro m o ⟨memory, diagnostics, diagnostics', hassemble⟩
  exact assembled_of_assemble hassemble

/-- **The image of a link holds every item of every module**, where the section of the item is put
and at the offset of the item in it; the names have the addresses that they have for the module. -/
theorem linked_image (hmodules : ∀ m ∈ modules, Produced m)
    (hassemble : List.Forall₂ (fun m o => ∃ memory diagnostics diagnostics',
      assemble memory m diagnostics = .ok (o, diagnostics')) modules objects)
    (hlink : link objects options = .ok executable) (hm : modules[i]? = some m)
    {source : Ir.Section} (hsource : source ∈ m.sections) (hkind : source.kind ≠ .bss)
    {p : ℕ × Ir.Item} (hp : p ∈ placed source.items) :
    ∃ k base, (orderedSections m)[k]? = some source ∧
      sectionAddress options objects i k = some base ∧
      ItemLinked executable (finalAddress options objects (modules.map symbolOf) i)
        (base + UInt64.ofNat p.1) p.1 p.2 := by
  have hassembled := assembled_of_assembles hassemble
  have hitems : source.items ≠ [] := by
    intro hnil
    rw [hnil] at hp
    cases hp
  have hproduced := hmodules m (List.mem_of_getElem? hm)
  obtain ⟨k, hk⟩ :=
    List.mem_iff_getElem?.mp (mem_orderedSections hproduced.wellFormed hsource hitems)
  have hentry : (source, k) ∈ (orderedSections m).zipIdx := List.mem_zipIdx_iff_getElem?.mpr hk
  obtain ⟨hi, rfl⟩ := List.getElem?_eq_some_iff.mp hm
  have hlength := hassembled.length_eq
  have hobject : objects[i]? = some objects[i] := List.getElem?_eq_getElem (by omega)
  have hone : Assembled modules[i] objects[i] := hassembled.get hi (by omega)
  obtain ⟨base, hbase⟩ := exists_sectionAddress hlink hobject hone hentry
  refine ⟨k, base, hk, hbase, ?_⟩
  rw [← map_find_of_assembled hassembled]
  -- what the link needs to know of each object is so for what the assembler makes
  have hsection : SectionLinked objects options executable i modules[i] objects[i] (source, k)
      base := {
    wellFormed := by
      intro o ho
      obtain ⟨m, hm, h⟩ := exists_module hassembled ho
      exact h.wellFormed (assemblable_of_produced (hmodules m hm))
    plain := by
      intro o ho
      obtain ⟨m, -, h⟩ := exists_module hassembled ho
      exact h.plain
    fieldsApart := by
      intro o ho
      obtain ⟨m, hm, h⟩ := exists_module hassembled ho
      exact h.fieldsApart (assemblable_of_produced (hmodules m hm))
    linked := hlink
    isObject := hobject
    assembled := hone
    assemblable := assemblable_of_produced hproduced
    isSection := hentry
    stored := hkind
    address := hbase }
  exact hsection.item hp

end

/-! ### Two files -/

/-- What the stages up to lowering make of a file. -/
def loweredFile (source : SourceFile) (file : FileId) : Option Ir.Module :=
  match Parser.parse { tokens := Lexer.lexAll source.text file } with
  | some (.ok program, parser) =>
    match Sema.analyze parser.diagnostics program with
    | (true, diagnostics) =>
      match Ir.lower program source.name diagnostics with
      | .ok (m, _) => some m
      | .error _ => none
    | (false, _) => none
  | _ => none

theorem frontEnd_of_loweredFile {source : SourceFile} {file : FileId} {m : Ir.Module}
    (h : loweredFile source file = some m) : Ir.FrontEnd m := by
  unfold loweredFile at h
  split at h
  · next program parser hparse =>
    split at h
    · next diagnostics hanalyze =>
      split at h
      · next lowered after hlower =>
        cases h
        have haccepts : Sema.Accepts program := Sema.analyze_eq_true.mp (congrArg Prod.fst hanalyze)
        exact ⟨program, source.name, diagnostics, after, haccepts, hlower⟩
      · cases h
    · cases h
  · cases h

/-- Code that calls into another file, and data that refers to it. -/
def mainFile : SourceFile where
  name := str "main.asm"
  text := str ".global _start
.extern lookup, table
_start: MOVI R1, table + 8
        NOP
        CALL lookup
        JMP _start
.data
        .byte 7
        .align 16
        .qword table
.bss
        .space 16
"

/-- The other file. -/
def tableFile : SourceFile where
  name := str "table.asm"
  text := str ".global lookup, table
lookup: LOAD R2, [R1 + 0]
        RET
.data
table:  .qword 1, table
"

/-- The pointer to the table, behind the padding in `.data`. -/
def pointer : Ir.Item :=
  .symbolValue { width := 8, symbol := { name := str "table" }, location := ⟨0, 10, 16, 5⟩ }

/-- `mainFile`, lowered. -/
def mainModule : Ir.Module where
  sourceName := str "main.asm"
  sections := [
    { kind := .text, name := str ".text"
      items := [
        .label { name := str "_start", location := ⟨0, 3, 1, 6⟩ },
        .instruction {
          machine := { opcode := .MOVI, dst := ⟨1⟩ }
          symbol := some { name := str "table", addend := 8 }, location := ⟨0, 3, 9, 4⟩ },
        .instruction { machine := { opcode := .NOP }, location := ⟨0, 4, 9, 3⟩ },
        .instruction {
          machine := { opcode := .CALL }, symbol := some { name := str "lookup" }
          location := ⟨0, 5, 9, 4⟩ },
        .instruction {
          machine := { opcode := .JMP }, symbol := some { name := str "_start" }
          location := ⟨0, 6, 9, 3⟩ }] },
    { kind := .data, name := str ".data"
      items := [
        .bytes { data := [7], location := ⟨0, 8, 9, 5⟩ },
        .align { alignment := 16, location := ⟨0, 9, 9, 6⟩ },
        pointer] },
    { kind := .bss, name := str ".bss"
      items := [.space { size := 16, location := ⟨0, 12, 9, 6⟩ }] }]
  globals := [str "_start"]
  externs := [str "lookup", str "table"]

/-- `tableFile`, lowered. -/
def tableModule : Ir.Module where
  sourceName := str "table.asm"
  sections := [
    { kind := .text, name := str ".text"
      items := [
        .label { name := str "lookup", location := ⟨1, 2, 1, 6⟩ },
        .instruction {
          machine := { opcode := .LOAD, dst := ⟨2⟩, src := ⟨1⟩ }, location := ⟨1, 2, 9, 4⟩ },
        .instruction { machine := { opcode := .RET }, location := ⟨1, 3, 9, 3⟩ }] },
    { kind := .data, name := str ".data"
      items := [
        .label { name := str "table", location := ⟨1, 5, 1, 5⟩ },
        .bytes { data := [1, 0, 0, 0, 0, 0, 0, 0], location := ⟨1, 5, 9, 6⟩ },
        .symbolValue {
          width := 8, symbol := { name := str "table" }, location := ⟨1, 5, 19, 5⟩ }] }]
  globals := [str "lookup", str "table"]

theorem frontEnd_main : Ir.FrontEnd mainModule :=
  frontEnd_of_loweredFile (show loweredFile mainFile 0 = some mainModule by decide +kernel)

theorem frontEnd_table : Ir.FrontEnd tableModule :=
  frontEnd_of_loweredFile (show loweredFile tableFile 1 = some tableModule by decide +kernel)

/-- What a stage that succeeds returns. -/
def okOr {ε α : Type} (default : α) : Except ε α → α
  | .ok value => value
  | .error _ => default

theorem eq_okOr {ε α : Type} {default : α} {x : Except ε α} (h : x.isOk = true) :
    x = .ok (okOr default x) := by
  cases x with
  | ok value => rfl
  | error e => cases h

/-- What the assembler makes of a file without errors. -/
def objectOf (m : Ir.Module) : ObjectFile := (okOr ({}, {}) (assemble kMaxSize m {})).1

/-- What the linker makes of the objects, stage by stage. -/
def layoutOf (objects : List ObjectFile) : Layout :=
  okOr { regions := [] } (mergeSections {} objects)

def symbolsOf (objects : List ObjectFile) : Symbols :=
  okOr {} (resolveSymbols (layoutOf objects) objects)

def patchedOf (objects : List ObjectFile) : Layout :=
  okOr (layoutOf objects) (applyRelocations (symbolsOf objects) objects (layoutOf objects))

def lineTable (objects : List ObjectFile) : Except LinkError DebugInfo :=
  objects.zipIdx.foldlM (fun info entry =>
    entry.1.debugInfo.foldlM (addDebugEntry (patchedOf objects) entry.2 entry.1) info) {}

/-- The image with its code, and `_start`, at the start of `.text`. -/
def imageOf (objects : List ObjectFile) : Executable where
  entryPoint := 0x10000
  segments := ((patchedOf objects).regions.filter fun region => region.size ≠ 0).map segmentOf
  symbols := (symbolsOf objects).definitions.map symbolEntry
  debugInfo := (okOr {} (lineTable objects)).entries
  sourceFiles := (okOr {} (lineTable objects)).sourceFiles

theorem produced_main : Produced mainModule := ⟨mainModule, fun _ => false, .O0, frontEnd_main, rfl⟩

theorem produced_table : Produced tableModule :=
  ⟨tableModule, fun _ => false, .O0, frontEnd_table, rfl⟩

theorem produced_pair : ∀ m ∈ [mainModule, tableModule], Produced m := by
  intro m hm
  rcases List.mem_cons.mp hm with rfl | hm
  · exact produced_main
  · rw [List.mem_singleton.mp hm]
    exact produced_table

theorem exists_assemble {m : Ir.Module} (h : (assemble kMaxSize m {}).isOk = true) :
    ∃ memory diagnostics diagnostics', assemble memory m diagnostics = .ok
      (objectOf m, diagnostics') :=
  ⟨kMaxSize, {}, _, eq_okOr h⟩

theorem link_imageOf {objects : List ObjectFile} (hne : objects ≠ [])
    (hmerge : (mergeSections {} objects).isOk = true)
    (hresolve : (resolveSymbols (layoutOf objects) objects).isOk = true)
    (hpatch : (applyRelocations (symbolsOf objects) objects (layoutOf objects)).isOk = true)
    (hlines : (lineTable objects).isOk = true)
    (hordered : (okOr {} (lineTable objects)).entries.Pairwise fun x y =>
      decide (x.address ≤ y.address) = true)
    (hglobals : (symbolsOf objects).locals = [])
    (hnamed : ((symbolsOf objects).definitions.map symbolEntry).Pairwise fun a b =>
      (if a.address = b.address then decide (a.name ≤ b.name) else decide (a.address < b.address)) =
        true)
    (hentry : ((symbolsOf objects).definitions.lookup (str "_start")).map Definition.address =
      some 0x10000)
    (hvalid : (imageOf objects).validate = .ok ()) :
    link objects {} = .ok (imageOf objects) := by
  have hinfo : buildDebugInfo (patchedOf objects) objects = .ok (okOr {} (lineTable objects)) :=
    buildDebugInfo_of_sorted (eq_okOr hlines) hordered
  have hsymbols : symbolEntries {} (symbolsOf objects) =
      (symbolsOf objects).definitions.map symbolEntry := by
    unfold symbolEntries
    simp only [hglobals, List.filter_nil, List.map_nil, ite_self, List.append_nil]
    exact List.mergeSort_of_pairwise hnamed
  obtain ⟨entry, hlookup, haddress⟩ := Option.map_eq_some_iff.mp hentry
  have hmerged : mergeSections {} objects = .ok (layoutOf objects) := eq_okOr hmerge
  have hresolved : resolveSymbols (layoutOf objects) objects = .ok (symbolsOf objects) :=
    eq_okOr hresolve
  have hpatched : applyRelocations (symbolsOf objects) objects (layoutOf objects) =
      .ok (patchedOf objects) := eq_okOr hpatch
  refine link_of_stages hne hmerged hresolved hpatched ?_
  unfold buildExecutable
  rw [show (symbolsOf objects).definitions.lookup ({} : LinkOptions).entry =
    some entry from hlookup]
  dsimp only
  rw [hinfo, hsymbols, haddress, Checked.ok_bind]
  unfold imageOf at hvalid ⊢
  rw [hvalid]

def pairObjects : List ObjectFile := [objectOf mainModule, objectOf tableModule]

theorem link_pair : link pairObjects {} = .ok (imageOf pairObjects) :=
  link_imageOf (List.cons_ne_nil _ _) (by decide) (by decide) (by decide)
    (by decide) (by decide) (by decide) (by decide)
    (by decide) (by decide)

theorem linked_image_main : ∃ k base,
    (orderedSections mainModule)[k]? = mainModule.sections[1]? ∧
      sectionAddress {} pairObjects 0 k = some base ∧
      ItemLinked (imageOf pairObjects)
        (finalAddress {} pairObjects ([mainModule, tableModule].map symbolOf) 0) (base + 16) 16
        pointer := by
  have hplaced : (mainModule.sections[1]?.bind fun s => (placed s.items)[2]?) =
      some (16, pointer) := by
    decide
  exact linked_image produced_pair
    (.cons (exists_assemble (by decide)) (.cons (exists_assemble (by decide)) .nil))
    link_pair (show [mainModule, tableModule][0]? = some mainModule from rfl)
    (List.Mem.tail _ (List.Mem.head _)) (fun h => nomatch h) (List.mem_of_getElem? hplaced)

/-- `_start: JMP _start` as a module. -/
def startModule : Ir.Module where
  sections := [
    { kind := .text, name := str ".text"
      items := [
        .label { name := str "_start" },
        .instruction { machine := { opcode := .JMP }, symbol := some { name := str "_start" } }] }]
  globals := [str "_start"]

/-- `startModule`, assembled. -/
def startObject : ObjectFile where
  sections := [
    { name := str ".text", type := .text, flags := SectionFlags.alloc ||| SectionFlags.exec
      alignment := 8, data := [0, 0, 0, 0, 0, 0, 0, 0x50], size := 8 }]
  symbols := ⟨[
    { name := str "_start", binding := .global, type := .function, sectionId := 0,
      defined := true }],
    List.nodup_singleton _⟩
  relocations := [{ sectionId := 0, offset := 0, type := .pcrel48, symbol := 0, addend := 0 }]
  debugInfo := [{ sectionId := 0, file := 0, offset := 0, line := 0, column := 0 }]
  sourceFiles := [[]]

/-- `startObject`, linked: the displacement is `-8`. -/
def startExecutable : Executable where
  entryPoint := 0x10000
  segments := [
    { type := .text, flags := Executable.SegmentFlags.read ||| Executable.SegmentFlags.exec,
      name := str ".text", virtualAddress := 0x10000, virtualSize := 8,
      data := [0xF8, 0xFF, 0xFF, 0xFF, 0xFF, 0xFF, 0, 0x50] }]
  symbols := [{ name := str "_start", address := 0x10000, size := 0, kind := .function }]
  debugInfo := [{ address := 0x10000, file := 0, line := 0, column := 0 }]
  sourceFiles := [[]]

theorem frontEnd_start : Ir.FrontEnd startModule := by
  refine ⟨{ statements := [
    .directive { type := .global, operands := [{ type := .symbol, symbol := str "_start" }] },
    .label { name := str "_start" },
    .instruction {
      mnemonic := str "JMP", operands := [{ type := .symbol, symbol := str "_start" }] }] },
    [], {}, {}, ?_, rfl⟩
  exact Sema.accepts_of_checks (by decide) (by decide)

theorem produced_start : Produced startModule :=
  ⟨startModule, fun _ => false, .O0, frontEnd_start, rfl⟩

theorem assemble_start : assemble kMaxSize startModule {} = .ok (startObject, {}) := by
  decide

end Assembler
end MiniTool
