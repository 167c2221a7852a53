import MiniToolchain.Common.Ranged
import MiniToolchain.Object.ObjectIo

/-!
# Reading an object stays in range

The reader of object files with every index and every part explicit, and that none of them leaves
its span, whatever the bytes.

## Main definitions

* `Ranged.readObjectFromBuffer` — the reader, which ends with `none` at an access out of range.

## Main results

* `readObjectFromBuffer_inRange` — it never does, and computes what `readObjectFromBuffer` computes.
-/

namespace MiniTool
namespace Object

open Binary Checked

namespace Ranged

open Binary.Ranged

def readHeaderFields : RangedRead Header := do
  let version ← u16v
  let headerSize ← u16v
  let flags ← u32v
  let sectionCount ← u32v
  let symbolCount ← u32v
  let relocationCount ← u32v
  let debugCount ← u32v
  let sourceCount ← u32v
  let trailer ← readTrailer
  return { version, headerSize, flags, sectionCount, symbolCount, relocationCount, debugCount,
           sourceCount, trailer }

def readHeader (buffer : List UInt8) : Ranged Header := do
  let (magic, reader) ← raw 4 { data := buffer }
  lift (reject (magic ≠ kObjectMagic) "not an object file: bad magic")
  let (header, _) ← orError "truncated object header" readHeaderFields reader
  return header

def checkHeader (buffer : List UInt8) (header : Header) : Ranged Unit := do
  lift (reject (header.version ≠ kObjectVersion)
    s!"unsupported object version {header.version} (this build understands {kObjectVersion})")
  lift (reject (header.headerSize.toNat ≠ kHeaderSize)
    s!"unsupported object header size {header.headerSize}")
  let flags := hexText 8 header.flags.toNat
  lift (reject (header.flags ≠ 0) s!"unknown object flags 0x{flags}")
  Binary.Ranged.checkContents "object" buffer header.trailer

def readSectionRecord : RangedRead SectionRecord := orError "truncated section table" do
  let nameOffset ← u32v
  let type ← u8v
  let flags ← u8v
  skip 2
  let alignment ← u64v
  let dataOffset ← u64v
  let dataSize ← u64v
  let memorySize ← u64v
  let index ← u32v
  skip 4
  return { nameOffset, type, flags, alignment, dataOffset, dataSize, memorySize, index }

def checkSection (stringTable blob : List UInt8) (fields : SectionRecord) : Ranged Section := do
  lift (reject (!isValidSectionType fields.type) s!"invalid section type {fields.type}")
  lift (reject (fields.alignment = 0 ∨ fields.alignment &&& (fields.alignment - 1) ≠ 0)
    s!"section alignment {fields.alignment} is not a power of two")
  lift (reject (fields.dataOffset.toNat > blob.length ∨
      fields.dataSize.toNat > blob.length - fields.dataOffset.toNat)
    (outOfRange "section data range" (fields.dataOffset + fields.dataSize).toNat blob.length))
  lift (reject (fields.memorySize < fields.dataSize)
    "section memory size is smaller than its initialised data")
  let name ← Binary.Ranged.readString stringTable fields.nameOffset
  let data ← partOf blob fields.dataOffset.toNat fields.dataSize.toNat
  return {
    name
    type := SectionType.ofValue fields.type
    flags := fields.flags
    alignment := fields.alignment
    data
    size := fields.memorySize
    index := fields.index }

def readSymbolRecord : RangedRead SymbolRecord := orError "truncated symbol table" do
  let nameOffset ← u32v
  let binding ← u8v
  let type ← u8v
  let defined ← u8v
  skip 1
  let sectionIndex ← u32v
  skip 4
  let value ← u64v
  let size ← u64v
  return { nameOffset, binding, type, defined, sectionIndex, value, size }

def acceptSymbol (stringTable : List UInt8) (sectionCount : UInt32) (symbols : SymbolTable)
    (fields : SymbolRecord) : Ranged SymbolTable := do
  lift (reject (fields.binding > SymbolBinding.external.value)
    s!"invalid symbol binding {fields.binding}")
  lift (reject (fields.type > SymbolType.sectionSymbol.value) s!"invalid symbol type {fields.type}")
  lift (reject (fields.sectionIndex ≠ kUndefinedSection ∧ fields.sectionIndex ≥ sectionCount)
    (outOfRange "symbol section index" fields.sectionIndex.toNat sectionCount.toNat))
  let name ← Binary.Ranged.readString stringTable fields.nameOffset
  let shown := Str.text name
  lift (reject (symbols.find name ≠ none) s!"duplicate symbol '{shown}' in symbol table")
  return (symbols.addSymbol {
    name
    binding := SymbolBinding.ofValue fields.binding
    type := SymbolType.ofValue fields.type
    defined := fields.defined != 0
    sectionId := fields.sectionIndex
    value := fields.value
    size := fields.size }).2

def readRelocationRecord : RangedRead RelocationRecord := orError "truncated relocation table" do
  let sectionIndex ← u32v
  let symbolIndex ← u32v
  let offset ← u64v
  let addend ← i64v
  let type ← u8v
  skip 7
  return { sectionIndex, symbolIndex, offset, addend, type }

def checkRelocation (sections : List Section) (sectionCount symbolCount : UInt32)
    (fields : RelocationRecord) : Ranged Relocation := do
  lift (reject (!isValidRelocationType fields.type) s!"invalid relocation type {fields.type}")
  lift (reject (fields.sectionIndex ≥ sectionCount)
    (outOfRange "relocation section index" fields.sectionIndex.toNat sectionCount.toNat))
  lift (reject (fields.symbolIndex ≥ symbolCount)
    (outOfRange "relocation symbol index" fields.symbolIndex.toNat symbolCount.toNat))
  let target ← elementOf sections fields.sectionIndex.toNat
  let type := RelocationType.ofValue fields.type
  let size := target.data.length
  let shown := Str.text target.name
  lift (reject (fields.offset.toNat > size ∨ relocationWidth type > size - fields.offset.toNat)
    s!"relocation at offset {fields.offset} does not fit in section '{shown}' ({size} bytes)")
  return {
    sectionId := fields.sectionIndex
    symbol := fields.symbolIndex.toNat
    offset := fields.offset
    addend := fields.addend
    type }

def readDebugEntry : RangedRead DebugEntry := orError "truncated debug table" do
  let sectionId ← u32v
  let file ← u32v
  let offset ← u64v
  let line ← u32v
  let column ← u32v
  return { sectionId, file, offset, line, column }

def readSource : RangedRead UInt32 := orError "truncated source file table" u32v

def readTables (header : Header) (stringTable blob : List UInt8) : RangedRead ObjectFile := do
  let sections ← tableAt kHeaderSize readSectionRecord (checkSection stringTable blob)
    header.sectionCount.toNat
  let symbols ← (do
    seek header.symbolsAt
    loop (fun symbols => do
        let fields ← readSymbolRecord
        acceptSymbol stringTable header.sectionCount symbols fields)
      header.symbolCount.toNat SymbolTable.empty)
  let relocations ← tableAt header.relocationsAt readRelocationRecord
    (checkRelocation sections header.sectionCount header.symbolCount) header.relocationCount.toNat
  let debugInfo ← tableAt header.debugAt readDebugEntry
    (fun entry => lift (DebugEntry.check header.sectionCount header.sourceCount entry))
    header.debugCount.toNat
  let sourceFiles ← tableAt header.sourcesAt readSource (Binary.Ranged.readString stringTable)
    header.sourceCount.toNat
  return { version := header.version, sections, symbols, relocations, debugInfo, sourceFiles }

def readObjectFromBuffer (buffer : List UInt8) : Ranged ObjectFile := do
  let size := buffer.length
  lift (reject (size < kHeaderSize)
    s!"not an object file: {size} bytes is shorter than the {kHeaderSize}-byte header")
  let header ← readHeader buffer
  checkHeader buffer header
  let (stringTable, blob) ← Binary.Ranged.extents "object" buffer header.trailer header.tablesEnd
  (readTables header stringTable blob).run' { data := buffer }

end Ranged

/-! ### No access leaves its span -/

open ReadInRange

theorem readHeaderFields_inRange : ReadInRange Ranged.readHeaderFields Header.read :=
  u16v.bind fun _ => u16v.bind fun _ => u32v.bind fun _ => u32v.bind fun _ => u32v.bind fun _ =>
    u32v.bind fun _ => u32v.bind fun _ => u32v.bind fun _ => trailer.bind fun _ =>
      ReadInRange.pure _

theorem readHeader_inRange (buffer : List UInt8) :
    InRange (Ranged.readHeader buffer) (readHeader buffer) := by
  refine (raw (by decide) _).bind fun magic _ => (InRange.lift _).bind fun _ _ => ?_
  exact (readHeaderFields_inRange.orError _ _).bind fun _ _ => .pure _

theorem checkHeader_inRange {buffer : List UInt8} (hlen : kHeaderSize ≤ buffer.length)
    (header : Header) : InRange (Ranged.checkHeader buffer header) (checkHeader buffer header) :=
  (InRange.lift _).bind fun _ _ => (InRange.lift _).bind fun _ _ => (InRange.lift _).bind fun _ _ =>
    checkContents_inRange "object" hlen header.trailer

theorem readSectionRecord_inRange : ReadInRange Ranged.readSectionRecord SectionRecord.read :=
  orError (u32v.bind fun _ => u8v.bind fun _ => u8v.bind fun _ => (skip 2).bind fun _ =>
    u64v.bind fun _ => u64v.bind fun _ => u64v.bind fun _ => u64v.bind fun _ => u32v.bind fun _ =>
    (skip 4).bind fun _ => ReadInRange.pure _) _

/-- The part of the blob was checked. -/
theorem checkSection_inRange (stringTable blob : List UInt8) (fields : SectionRecord) :
    InRange (Ranged.checkSection stringTable blob fields)
      (SectionRecord.check stringTable blob fields) := by
  refine (InRange.lift _).bind fun _ _ => (InRange.lift _).bind fun _ _ =>
    (InRange.lift _).bind fun _ hrange => (InRange.lift _).bind fun _ _ =>
    (readString_inRange _ _).bind fun name _ => ?_
  have hrange := reject_eq_ok.mp hrange
  exact (partOf_inRange _ _ _ (by omega)).then (.pure _)

theorem readSymbolRecord_inRange : ReadInRange Ranged.readSymbolRecord SymbolRecord.read :=
  orError (u32v.bind fun _ => u8v.bind fun _ => u8v.bind fun _ => u8v.bind fun _ =>
    (skip 1).bind fun _ => u32v.bind fun _ => (skip 4).bind fun _ => u64v.bind fun _ =>
    u64v.bind fun _ => ReadInRange.pure _) _

theorem acceptSymbol_inRange (stringTable : List UInt8) (sectionCount : UInt32)
    (symbols : SymbolTable) (fields : SymbolRecord) :
    InRange (Ranged.acceptSymbol stringTable sectionCount symbols fields)
      (SymbolRecord.accept stringTable sectionCount symbols fields) :=
  (InRange.lift _).bind fun _ _ => (InRange.lift _).bind fun _ _ => (InRange.lift _).bind fun _ _ =>
    (readString_inRange _ _).bind fun _ _ => (InRange.lift _).bind fun _ _ => .pure _

theorem readRelocationRecord_inRange :
    ReadInRange Ranged.readRelocationRecord RelocationRecord.read :=
  orError (u32v.bind fun _ => u32v.bind fun _ => u64v.bind fun _ => i64v.bind fun _ =>
    u8v.bind fun _ => (skip 7).bind fun _ => ReadInRange.pure _) _

/-- There is a section for every index below the count of the header. -/
theorem checkRelocation_inRange {sections : List Section} {sectionCount : UInt32}
    (hcount : sections.length = sectionCount.toNat) (symbolCount : UInt32)
    (fields : RelocationRecord) :
    InRange (Ranged.checkRelocation sections sectionCount symbolCount fields)
      (RelocationRecord.check sections sectionCount symbolCount fields) := by
  refine (InRange.lift _).bind fun _ _ => (InRange.lift _).bind fun _ hsection =>
    (InRange.lift _).bind fun _ _ => ?_
  have hsection := reject_eq_ok.mp hsection
  rw [ge_iff_le, UInt32.le_iff_toNat_le, ← hcount, not_le] at hsection
  have hget := List.getElem?_eq_getElem hsection
  rw [← List.getD_eq_getElem _ {} hsection] at hget
  exact (elementOf_inRange hget).then ((InRange.lift _).bind fun _ _ => .pure _)

theorem readDebugEntry_inRange : ReadInRange Ranged.readDebugEntry DebugEntry.read :=
  orError (u32v.bind fun _ => u32v.bind fun _ => u64v.bind fun _ => u32v.bind fun _ =>
    u32v.bind fun _ => ReadInRange.pure _) _

theorem readSource_inRange : ReadInRange Ranged.readSource readSourceRecord := orError u32v _

theorem readTables_inRange (header : Header) (stringTable blob : List UInt8) :
    ReadInRange (Ranged.readTables header stringTable blob)
      (readTables header stringTable blob) := by
  refine (tableAt readSectionRecord_inRange (checkSection_inRange stringTable blob) _ _).bind_of ?_
  rintro sections ⟨_, _, hsections⟩
  have hcount := length_of_tableAt hsections
  refine ((seek _).bind fun _ => ReadInRange.loop (fun symbols => ?_) _ _).bind fun symbols => ?_
  · refine readSymbolRecord_inRange.bind fun fields => ?_
    exact ReadInRange.liftM (acceptSymbol_inRange _ _ symbols fields)
  · refine (tableAt readRelocationRecord_inRange
      (checkRelocation_inRange hcount header.symbolCount) _ _).bind fun relocations => ?_
    refine (tableAt readDebugEntry_inRange (fun _ => InRange.lift _) _ _).bind fun debugInfo => ?_
    exact (tableAt readSource_inRange (readString_inRange stringTable) _ _).bind fun sourceFiles =>
      ReadInRange.pure _

/-- Whatever the bytes, reading them as an object accesses nothing outside a span. -/
theorem readObjectFromBuffer_inRange (buffer : List UInt8) :
    InRange (Ranged.readObjectFromBuffer buffer) (readObjectFromBuffer buffer) := by
  refine (InRange.lift _).bind fun _ hlen => (readHeader_inRange buffer).bind fun header _ => ?_
  have hlen := reject_eq_ok.mp hlen
  refine (checkHeader_inRange (not_lt.mp hlen) header).bind fun _ _ => ?_
  refine (extents_inRange "object" buffer header.trailer header.tablesEnd).bind fun regions _ => ?_
  exact ReadInRange.run' (readTables_inRange header regions.1 regions.2) _

end Object
end MiniTool
