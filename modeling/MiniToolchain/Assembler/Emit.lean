import MiniToolchain.Assembler.Bindings
import MiniToolchain.Assembler.Layout

/-!
# What the second pass gives

The second pass walks over the same sections and items and appends bytes, so the offset of an item
is the number of bytes before it.  Every item adds its bytes, at most one reference and, if it is an
instruction, one line to the debug table.

## Main definitions

* `itemBytes`, `referenceOf`, `debugEntryOf` — what an item at an offset contributes.
* `Relocates` — the relocation a reference became.
* `Emitted` — the references and debug entries were added to the object.

## Main results

* `emitItem_spec` — one item.
* `emitItems_spec` — the items of a section are laid out as in the first pass.
* `emitSections_spec` — all sections.
-/

namespace MiniTool
namespace Assembler

open Object Bounds AssemblyContext

/-! ### Contributions -/

/-- The bytes of an item at an offset. -/
def itemBytes (offset : ℕ) : Ir.Item → List UInt8
  | .instruction i =>
    match Isa.encode (placeholder i) with
    | .ok w => ByteOrder.littleEndian 8 w
    | .error _ => List.replicate Isa.kInstructionSize 0
  | .label _ => []
  | .bytes b => b.data
  | .symbolValue v => List.replicate v.width.toNat 0
  | .space s => List.replicate s.size.toNat s.fill
  | .align a => List.replicate (Ir.alignUp offset a.alignment.toNat - offset) 0

/-- A use of a symbol in a field of a section. -/
structure Reference where
  index : ℕ
  offset : ℕ
  type : RelocationType
  symbol : Ir.SymbolRef

/-- The reference of an item at an offset. -/
def referenceOf (index offset : ℕ) : Ir.Item → Option Reference
  | .instruction i => i.symbol.map fun symbol =>
      { index, offset, type := relocationForInstruction i.machine.opcode, symbol }
  | .symbolValue v => some
      { index, offset, type := if v.width = 4 then .abs32 else .abs64, symbol := v.symbol }
  | _ => none

/-- The line of an item at an offset in the debug table. -/
def debugEntryOf (index offset : ℕ) : Ir.Item → Option DebugEntry
  | .instruction i => some
      { sectionId := UInt32.ofNat index, file := 0, offset := UInt64.ofNat offset
        line := i.location.line, column := i.location.column }
  | _ => none

/-- An instruction can be encoded. -/
def Encodable : Ir.Item → Prop
  | .instruction i => ∃ w, Isa.encode (placeholder i) = .ok w
  | _ => True

theorem length_itemBytes (offset : ℕ) (item : Ir.Item) :
    offset + (itemBytes offset item).length = item.advance offset := by
  cases item with
  | instruction i =>
    unfold itemBytes
    dsimp only
    split
    · rw [ByteOrder.length_littleEndian]
      rfl
    · rw [List.length_replicate]
      rfl
  | label l => rfl
  | bytes b => rfl
  | symbolValue v =>
    unfold itemBytes
    rw [List.length_replicate]
    rfl
  | space s =>
    unfold itemBytes
    rw [List.length_replicate]
    rfl
  | align a =>
    have hle := Ir.le_alignUp offset a.alignment.toNat
    unfold itemBytes
    rw [List.length_replicate]
    show _ = Ir.alignUp offset a.alignment.toNat
    omega

/-! ### References -/

/-- The relocation of a reference to the symbol with an index. -/
def Reference.relocation (reference : Reference) (symbol : ℕ) : Relocation where
  sectionId := UInt32.ofNat reference.index
  offset := UInt64.ofNat reference.offset
  type := reference.type
  symbol := symbol
  addend := reference.symbol.addend

/-- The relocation a reference became. -/
structure Relocates (t : SymbolTable) (reference : Reference) (r : Relocation) : Prop where
  symbol : t.indexOf reference.symbol.name = some r.symbol
  eq : r = reference.relocation r.symbol

/-- A table that grows keeps the indices. -/
theorem Relocates.mono {t t' : SymbolTable} (h : t.names <+: t'.names) {reference : Reference}
    {r : Relocation} (hr : Relocates t reference r) : Relocates t' reference r :=
  { hr with symbol := SymbolTable.indexOf_of_prefix h hr.symbol }

/-- The references and debug entries were added to the object, which now has these sections, and
nothing went wrong before. -/
structure Emitted (sections : List Section) (references : List Reference)
    (entries : List DebugEntry) (c c' : AssemblyContext) : Prop where
  ok : c.failed = false
  touched : Touched promote (references.map fun r => r.symbol.name) c.object.symbols
    c'.object.symbols
  relocations : ∃ added, c'.object.relocations = c.object.relocations ++ added ∧
    List.Forall₂ (Relocates c'.object.symbols) references added
  frame : c'.object =
    { c.object with
      sections
      symbols := c'.object.symbols
      relocations := c'.object.relocations
      debugInfo := c.object.debugInfo ++ entries }

namespace Emitted

variable {sections later : List Section} {references more : List Reference}
  {entries lines : List DebugEntry} {c c' c'' : AssemblyContext}

theorem refl (hok : c.failed = false) : Emitted c.object.sections [] [] c c where
  ok := hok
  touched := .refl _ _
  relocations := ⟨[], (List.append_nil _).symm, .nil⟩
  frame := by rw [List.append_nil]

theorem trans (h : Emitted sections references entries c c')
    (h' : Emitted later more lines c' c'') :
    Emitted later (references ++ more) (entries ++ lines) c c'' := by
  refine ⟨h.ok, ?_, ?_, ?_⟩
  · rw [List.map_append]
    exact h.touched.trans promote_promote h'.touched
  · obtain ⟨added, hadded, hall⟩ := h.relocations
    obtain ⟨added', hadded', hall'⟩ := h'.relocations
    refine ⟨added ++ added', by rw [hadded', hadded, List.append_assoc], ?_⟩
    exact List.rel_append (hall.imp fun _ _ => Relocates.mono h'.touched.kept) hall'
  · rw [h'.frame, h.frame, List.append_assoc]

theorem sections_eq (h : Emitted sections references entries c c') :
    c'.object.sections = sections := by
  rw [h.frame]

end Emitted

/-- A reference, and the relocation recorded for it. -/
theorem emitted_reference {c : AssemblyContext} {reference : Reference} {location : SourceLocation}
    (hok : (c.referenceSymbol reference.symbol location).2.failed = false) :
    Emitted c.object.sections [reference] [] c
      ((c.referenceSymbol reference.symbol location).2.pushRelocation
        (reference.relocation (c.referenceSymbol reference.symbol location).1)) := by
  obtain ⟨hobject, htouched, hindex⟩ := referenceSymbol_spec hok
  have hbefore := failed_referenceSymbol hok
  generalize c.referenceSymbol reference.symbol location = referenced at *
  obtain ⟨i, c'⟩ := referenced
  have hrelocations : c'.object.relocations = c.object.relocations := by rw [hobject]
  refine ⟨hbefore, htouched, ⟨[reference.relocation i], ?_, ?_⟩, ?_⟩
  · show c'.object.relocations ++ _ = _
    rw [hrelocations]
  · exact .cons ⟨hindex, rfl⟩ .nil
  · unfold AssemblyContext.pushRelocation
    dsimp only
    rw [List.append_nil, hobject]

/-! ### One item -/

section

variable {memory : ℕ}

theorem append_eq_ok {bytes added result : List UInt8}
    (h : append memory bytes added = .ok result) :
    result = bytes ++ added ∧ result.length ≤ capacity memory := by
  unfold AssemblyContext.append at h
  obtain ⟨⟨⟩, hfits, h⟩ := Checked.bind_eq_ok.mp h
  cases h
  rw [allocate_eq_ok, ← List.length_append] at hfits
  exact ⟨rfl, hfits⟩

theorem appendFill_eq_ok {bytes result : List UInt8} {count : ℕ} {value : UInt8}
    (h : appendFill memory bytes count value = .ok result) :
    result = bytes ++ List.replicate count value ∧ result.length ≤ capacity memory := by
  unfold AssemblyContext.appendFill at h
  obtain ⟨⟨⟩, hfits, h⟩ := Checked.bind_eq_ok.mp h
  cases h
  refine ⟨rfl, ?_⟩
  rw [List.length_append, List.length_replicate]
  exact allocate_eq_ok.mp hfits

/-- The part of the second pass that concerns the symbol of an instruction. -/
theorem relocateInstruction_spec {c : AssemblyContext} {i : Ir.Instruction} {index offset : ℕ}
    (hok : (c.relocateInstruction i index (UInt64.ofNat offset)).failed = false) :
    Emitted c.object.sections (referenceOf index offset (.instruction i)).toList [] c
      (c.relocateInstruction i index (UInt64.ofNat offset)) := by
  unfold AssemblyContext.relocateInstruction at hok ⊢
  unfold referenceOf
  dsimp only
  cases hsymbol : i.symbol with
  | none =>
    rw [hsymbol] at hok
    exact .refl hok
  | some symbol =>
    rw [hsymbol] at hok
    exact @emitted_reference c
      { index, offset, type := relocationForInstruction i.machine.opcode, symbol } i.location hok

/-- The bytes of one item, whether or not something is wrong with it: an instruction that cannot be
encoded still takes its bytes. -/
theorem emitItem_bytes {index : ℕ} {c c' : AssemblyContext} {bytes bytes' : List UInt8}
    {item : Ir.Item} (hlength : bytes.length ≤ capacity memory)
    (h : emitItem memory index (c, bytes) item = .ok (c', bytes')) :
    bytes' = bytes ++ itemBytes bytes.length item ∧ bytes'.length ≤ capacity memory := by
  unfold AssemblyContext.emitItem at h
  cases item with
  | label l =>
    cases h
    exact ⟨(List.append_nil _).symm, hlength⟩
  | bytes b =>
    obtain ⟨result, happend, h⟩ := Checked.bind_eq_ok.mp h
    cases h
    exact append_eq_ok happend
  | space s =>
    obtain ⟨result, happend, h⟩ := Checked.bind_eq_ok.mp h
    cases h
    exact appendFill_eq_ok happend
  | align a =>
    obtain ⟨result, happend, h⟩ := Checked.bind_eq_ok.mp h
    cases h
    have hsmall : bytes.length < 2 ^ 63 := (hlength.trans capacity_le).trans_lt (by decide)
    have htoNat : (UInt64.ofNat bytes.length).toNat = bytes.length :=
      UInt64.toNat_ofNat_of_lt' (hsmall.trans (by decide))
    have hup := @alignUp_toNat (UInt64.ofNat bytes.length) a.alignment
      (by rw [htoNat]; exact hsmall)
    rw [htoNat] at hup
    rw [hup] at happend
    exact appendFill_eq_ok happend
  | symbolValue v =>
    obtain ⟨result, happend, h⟩ := Checked.bind_eq_ok.mp h
    cases h
    exact appendFill_eq_ok happend
  | instruction i =>
    unfold AssemblyContext.emitInstruction at h
    dsimp only at h
    have hfield : (List.replicate Isa.kInstructionSize (0 : UInt8)).length = Isa.kInstructionSize :=
      List.length_replicate
    unfold itemBytes
    dsimp only
    split at h
    · next e hfail =>
      obtain ⟨result, happend, h⟩ := Checked.bind_eq_ok.mp h
      cases h
      cases hencode : Isa.encode (placeholder i) with
      | ok w =>
        rw [(Isa.encodeInto_eq_ok hfield).mpr ⟨w, hencode, rfl⟩] at hfail
        cases hfail
      | error e => exact append_eq_ok happend
    · next encoded hencode =>
      obtain ⟨result, happend, h⟩ := Checked.bind_eq_ok.mp h
      cases h
      obtain ⟨w, hw, rfl⟩ := (Isa.encodeInto_eq_ok hfield).mp hencode
      rw [hw]
      exact append_eq_ok happend

/-- **One item of the second pass.** -/
theorem emitItem_spec {index : ℕ} {c c' : AssemblyContext} {bytes bytes' : List UInt8}
    {item : Ir.Item} (hlength : bytes.length ≤ capacity memory)
    (h : emitItem memory index (c, bytes) item = .ok (c', bytes')) (hok : c'.failed = false) :
    Emitted c.object.sections (referenceOf index bytes.length item).toList
      (debugEntryOf index bytes.length item).toList c c' ∧
    bytes' = bytes ++ itemBytes bytes.length item ∧ bytes'.length ≤ capacity memory ∧
      Encodable item := by
  obtain ⟨hbytes, hle⟩ := emitItem_bytes hlength h
  suffices hboth : Emitted c.object.sections (referenceOf index bytes.length item).toList
      (debugEntryOf index bytes.length item).toList c c' ∧ Encodable item from
    ⟨hboth.1, hbytes, hle, hboth.2⟩
  unfold AssemblyContext.emitItem at h
  cases item with
  | label l =>
    cases h
    exact ⟨.refl hok, trivial⟩
  | bytes b =>
    obtain ⟨result, happend, h⟩ := Checked.bind_eq_ok.mp h
    cases h
    exact ⟨.refl hok, trivial⟩
  | space s =>
    obtain ⟨result, happend, h⟩ := Checked.bind_eq_ok.mp h
    cases h
    exact ⟨.refl hok, trivial⟩
  | align a =>
    obtain ⟨result, happend, h⟩ := Checked.bind_eq_ok.mp h
    cases h
    exact ⟨.refl hok, trivial⟩
  | symbolValue v =>
    obtain ⟨result, happend, h⟩ := Checked.bind_eq_ok.mp h
    cases h
    refine ⟨?_, trivial⟩
    exact @emitted_reference c
      { index, offset := bytes.length, type := if v.width = 4 then .abs32 else .abs64
        symbol := v.symbol } v.location hok
  | instruction i =>
    unfold AssemblyContext.emitInstruction at h
    dsimp only at h
    have hfield : (List.replicate Isa.kInstructionSize (0 : UInt8)).length = Isa.kInstructionSize :=
      List.length_replicate
    split at h
    · -- an instruction that cannot be encoded is an error
      obtain ⟨result, -, h⟩ := Checked.bind_eq_ok.mp h
      cases h
      cases hok
    · next encoded hencode =>
      obtain ⟨result, -, h⟩ := Checked.bind_eq_ok.mp h
      cases h
      obtain ⟨w, hw, -⟩ := (Isa.encodeInto_eq_ok hfield).mp hencode
      have hrelocate := relocateInstruction_spec hok
      refine ⟨?_, w, hw⟩
      have hpush : Emitted c.object.sections []
          (debugEntryOf index bytes.length (.instruction i)).toList
          (c.relocateInstruction i index (UInt64.ofNat bytes.length))
          ((c.relocateInstruction i index (UInt64.ofNat bytes.length)).pushDebug _) :=
        ⟨hok, .refl _ _, ⟨[], (List.append_nil _).symm, .nil⟩, by rw [← hrelocate.sections_eq]; rfl⟩
      have hboth := hrelocate.trans hpush
      rw [List.append_nil, List.nil_append] at hboth
      exact hboth

theorem failed_emitItem {index : ℕ} {state state' : AssemblyContext × List UInt8} {item : Ir.Item}
    (h : emitItem memory index state item = .ok state') (hok : state'.1.failed = false) :
    state.1.failed = false := by
  obtain ⟨c, bytes⟩ := state
  unfold AssemblyContext.emitItem at h
  cases item with
  | label l =>
    cases h
    exact hok
  | bytes b =>
    obtain ⟨result, -, h⟩ := Checked.bind_eq_ok.mp h
    cases h
    exact hok
  | space s =>
    obtain ⟨result, -, h⟩ := Checked.bind_eq_ok.mp h
    cases h
    exact hok
  | align a =>
    obtain ⟨result, -, h⟩ := Checked.bind_eq_ok.mp h
    cases h
    exact hok
  | symbolValue v =>
    obtain ⟨result, -, h⟩ := Checked.bind_eq_ok.mp h
    cases h
    exact failed_referenceSymbol hok
  | instruction i =>
    unfold AssemblyContext.emitInstruction at h
    dsimp only at h
    split at h
    · obtain ⟨result, -, h⟩ := Checked.bind_eq_ok.mp h
      cases h
      cases hok
    · obtain ⟨result, -, h⟩ := Checked.bind_eq_ok.mp h
      cases h
      exact (relocateInstruction_spec hok).ok

/-! ### The items of a section -/

/-- The references of items with their offsets. -/
def referencesOf (index : ℕ) (ps : List (ℕ × Ir.Item)) : List Reference :=
  ps.filterMap fun p => referenceOf index p.1 p.2

/-- The lines of items with their offsets in the debug table. -/
def debugEntriesOf (index : ℕ) (ps : List (ℕ × Ir.Item)) : List DebugEntry :=
  ps.filterMap fun p => debugEntryOf index p.1 p.2

/-- The items after some bytes are laid out as in the first pass. -/
theorem emitItems_spec {index : ℕ} {items : List Ir.Item} {c c' : AssemblyContext}
    {bytes bytes' : List UInt8} (hlength : bytes.length ≤ capacity memory)
    (h : items.foldlM (emitItem memory index) (c, bytes) = .ok (c', bytes'))
    (hok : c'.failed = false) :
    Emitted c.object.sections
      (referencesOf index (Emission.placed Ir.Item.advance bytes.length items))
      (debugEntriesOf index (Emission.placed Ir.Item.advance bytes.length items)) c c' ∧
    bytes' = bytes ++ Emission.image Ir.Item.advance itemBytes bytes.length items ∧
    Emission.endOf Ir.Item.advance bytes.length items ≤ capacity memory ∧
    ∀ item ∈ items, Encodable item := by
  induction items generalizing c bytes with
  | nil =>
    cases h
    exact ⟨.refl hok, (List.append_nil _).symm, hlength,
      fun _ hitem => absurd hitem List.not_mem_nil⟩
  | cons item items ih =>
    rw [List.foldlM_cons] at h
    obtain ⟨⟨c₁, bytes₁⟩, hone, hrest⟩ := Checked.bind_eq_ok.mp h
    have hok₁ : c₁.failed = false :=
      Checked.of_foldlM (p := fun state : AssemblyContext × List UInt8 => state.1.failed = false)
        (fun _ _ _ => failed_emitItem) hrest hok
    obtain ⟨hemitted, hbytes, hlength₁, hencodable⟩ := emitItem_spec hlength hone hok₁
    obtain ⟨hemitted', hbytes', hend, hencodable'⟩ := ih hlength₁ hrest
    have hadvance : bytes₁.length = item.advance bytes.length := by
      rw [hbytes, List.length_append, length_itemBytes]
    rw [hadvance] at hemitted' hbytes' hend
    have hboth := hemitted.trans hemitted'
    rw [hemitted.sections_eq] at hboth
    refine ⟨?_, ?_, hend, List.forall_mem_cons.mpr ⟨hencodable, hencodable'⟩⟩
    · unfold referencesOf debugEntriesOf
      rw [Emission.placed_cons, filterMap_cons_toList, filterMap_cons_toList]
      exact hboth
    · rw [hbytes', hbytes, Emission.image_cons, List.append_assoc]

/-! ### The sections of a module -/

/-- A section of the object after the second pass; `.bss` keeps its size but holds no bytes. -/
def emitted (entry : Ir.Section × ℕ) : Section :=
  if Ir.sectionHasData entry.1.kind then
    { laidOut entry with
      data := Emission.image Ir.Item.advance itemBytes 0 entry.1.items }
  else laidOut entry

theorem finishSection_spec {c : AssemblyContext} {source : Ir.Section} {index : ℕ}
    {bytes : List UInt8} (hok : (c.finishSection source index bytes).failed = false) :
    c.failed = false ∧ (c.finishSection source index bytes).object =
      { c.object with
        sections :=
          if Ir.sectionHasData source.kind then
            c.object.sections.modify index fun s => { s with data := bytes }
          else c.object.sections } := by
  unfold AssemblyContext.finishSection at hok ⊢
  dsimp only at hok ⊢
  by_cases hdata : Ir.sectionHasData source.kind = true
  · rw [if_pos hdata] at hok ⊢
    split at hok
    · cases hok
    · next hsize =>
      rw [if_neg hsize]
      exact ⟨hok, by rw [if_pos hdata]; rfl⟩
  · rw [if_neg hdata] at hok ⊢
    split at hok
    · cases hok
    · next hzero =>
      rw [if_neg hzero]
      exact ⟨hok, by rw [if_neg hdata]⟩

theorem emitSection_cases {c c' : AssemblyContext} {entry : Ir.Section × ℕ}
    (h : c.emitSection memory entry = .ok c') :
    ∃ c₁ bytes, entry.1.items.foldlM (emitItem memory entry.2) (c, []) = .ok (c₁, bytes) ∧
      c' = c₁.finishSection entry.1 entry.2 bytes := by
  unfold AssemblyContext.emitSection at h
  obtain ⟨⟨⟩, -, h⟩ := Checked.bind_eq_ok.mp h
  obtain ⟨⟨c₁, bytes⟩, hitems, h⟩ := Checked.bind_eq_ok.mp h
  cases h
  exact ⟨c₁, bytes, hitems, rfl⟩

theorem failed_emitSection {c c' : AssemblyContext} {entry : Ir.Section × ℕ}
    (h : c.emitSection memory entry = .ok c') (hok : c'.failed = false) : c.failed = false := by
  obtain ⟨c₁, bytes, hitems, rfl⟩ := emitSection_cases h
  exact Checked.of_foldlM (p := fun state : AssemblyContext × List UInt8 => state.1.failed = false)
    (fun _ _ _ => failed_emitItem) hitems (finishSection_spec hok).1

/-- The second pass over a section with a number. -/
theorem emitSection_spec {c c' : AssemblyContext} {source : Ir.Section}
    {before after : List Section}
    (hsections : c.object.sections = before ++ laidOut (source, before.length) :: after)
    (h : c.emitSection memory (source, before.length) = .ok c') (hok : c'.failed = false) :
    Emitted (before ++ emitted (source, before.length) :: after)
      (referencesOf before.length (placed source.items))
      (debugEntriesOf before.length (placed source.items)) c c' := by
  obtain ⟨c₁, bytes, hitems, rfl⟩ := emitSection_cases h
  dsimp only at hitems hok ⊢
  obtain ⟨hok₁, hobject⟩ := finishSection_spec hok
  obtain ⟨hemitted, hbytes, -, -⟩ := emitItems_spec (Nat.zero_le _) hitems hok₁
  have hfinish : Emitted (before ++ emitted (source, before.length) :: after) [] [] c₁
      (c₁.finishSection source before.length bytes) := by
    refine ⟨hok₁, ?_, ⟨[], ?_, .nil⟩, ?_⟩
    · rw [hobject]
      exact .refl _ _
    · rw [hobject, List.append_nil]
    · rw [hobject, hemitted.sections_eq, hsections, modify_append_cons, List.append_nil]
      unfold emitted
      dsimp only
      rw [hbytes]
      split_ifs
      · rfl
      · rfl
  have hboth := hemitted.trans hfinish
  rw [List.append_nil, List.append_nil] at hboth
  exact hboth

/-- The second pass only succeeds on sections whose bytes can be held and whose instructions can be
encoded. -/
theorem sizes_of_emitSections {entries : List (Ir.Section × ℕ)} {c c' : AssemblyContext}
    (h : entries.foldlM (emitSection memory) c = .ok c') (hok : c'.failed = false) :
    ∀ entry ∈ entries, endOf entry.1.items ≤ capacity memory ∧ ∀ item ∈ entry.1.items,
      Encodable item := by
  induction entries generalizing c with
  | nil => exact fun _ hentry => absurd hentry List.not_mem_nil
  | cons entry entries ih =>
    rw [List.foldlM_cons] at h
    obtain ⟨c₁, hone, hrest⟩ := Checked.bind_eq_ok.mp h
    have hok₁ : c₁.failed = false :=
      Checked.of_foldlM (p := fun c : AssemblyContext => c.failed = false)
        (fun _ _ _ => failed_emitSection) hrest hok
    obtain ⟨c₂, bytes, hitems, rfl⟩ := emitSection_cases hone
    obtain ⟨-, -, hend, hencodable⟩ :=
      emitItems_spec (Nat.zero_le _) hitems (finishSection_spec hok₁).1
    exact List.forall_mem_cons.mpr ⟨⟨hend, hencodable⟩, ih hrest⟩

/-- The references of sections with numbers. -/
def sectionReferences (entries : List (Ir.Section × ℕ)) : List Reference :=
  entries.flatMap fun entry => referencesOf entry.2 (placed entry.1.items)

/-- The lines of sections with numbers in the debug table. -/
def sectionDebugEntries (entries : List (Ir.Section × ℕ)) : List DebugEntry :=
  entries.flatMap fun entry => debugEntriesOf entry.2 (placed entry.1.items)

/-- The second pass over the sections from a number on. -/
theorem emitSections_spec {sources : List Ir.Section} {c c' : AssemblyContext}
    {before : List Section}
    (hsections : c.object.sections = before ++ (sources.zipIdx before.length).map laidOut)
    (h : (sources.zipIdx before.length).foldlM (emitSection memory) c = .ok c')
    (hok : c'.failed = false) :
    Emitted (before ++ (sources.zipIdx before.length).map emitted)
      (sectionReferences (sources.zipIdx before.length))
      (sectionDebugEntries (sources.zipIdx before.length)) c c' := by
  induction sources generalizing c before with
  | nil =>
    cases h
    have hrefl := Emitted.refl hok
    rw [hsections] at hrefl
    exact hrefl
  | cons source sources ih =>
    rw [List.zipIdx_cons, List.foldlM_cons] at h
    rw [List.zipIdx_cons, List.map_cons] at hsections
    obtain ⟨c₁, hone, hrest⟩ := Checked.bind_eq_ok.mp h
    have hok₁ : c₁.failed = false :=
      Checked.of_foldlM (p := fun c : AssemblyContext => c.failed = false)
        (fun _ _ _ => failed_emitSection) hrest hok
    have hemitted := emitSection_spec hsections hone hok₁
    have hlength : (before ++ [emitted (source, before.length)]).length = before.length + 1 := by
      rw [List.length_append, List.length_singleton]
    have hnext := @ih c₁ (before ++ [emitted (source, before.length)])
    rw [hlength] at hnext
    have hlater := hnext (by rw [hemitted.sections_eq, List.append_assoc]; rfl) hrest
    rw [List.append_assoc] at hlater
    exact hemitted.trans hlater

end

end Assembler
end MiniTool
