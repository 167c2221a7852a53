import MiniToolchain.Common.Container
import MiniToolchain.Object.Object

/-!
# Object files on disk

The `.mobj` serialiser: a header, tables of sections, symbols, relocations, debug entries and source
files, a string table and a blob with the data of the sections.

## Main definitions

* `writeObjectToBuffer`, `readObjectFromBuffer`.
* `ObjectFile.WellFormed` — the conditions the reader checks, on the object.

## Main results

* `readObjectFromBuffer_eq` — the reader as header checks, layout checks, and a check of every
  record of every table.
* `readObject_writeObject` — reading a written well-formed object gives it back.
-/

namespace MiniTool
namespace Object

open ByteOrder Binary Checked

def kObjectMagic : List UInt8 := str "MOBJ"

abbrev kSectionRecordSize : ℕ := 48
abbrev kSymbolRecordSize : ℕ := 32
abbrev kRelocationRecordSize : ℕ := 32
abbrev kDebugRecordSize : ℕ := 24
abbrev kSourceRecordSize : ℕ := 4

/-! ### Writing -/

def writeSection (out : Output) (s : Section) : Output :=
  let dataOffset := out.blob.size
  let blob := out.blob.raw s.data
  let (nameOffset, strings) := out.strings.intern s.name
  let tables := out.tables.u32v nameOffset
  let tables := tables.u8v s.type.value
  let tables := tables.u8v s.flags
  let tables := tables.pad 2
  let tables := tables.u64v s.alignment
  let tables := tables.u64v (UInt64.ofNat dataOffset)
  let tables := tables.u64v (UInt64.ofNat s.data.length)
  let tables := tables.u64v s.size
  let tables := tables.u32v s.index
  let tables := tables.pad 4
  { strings, tables, blob }

def writeSymbol (out : Output) (symbol : Symbol) : Output :=
  let (nameOffset, strings) := out.strings.intern symbol.name
  let tables := out.tables.u32v nameOffset
  let tables := tables.u8v symbol.binding.value
  let tables := tables.u8v symbol.type.value
  let tables := tables.u8v (if symbol.defined then 1 else 0)
  let tables := tables.pad 1
  let tables := tables.u32v symbol.sectionId
  let tables := tables.pad 4
  let tables := tables.u64v symbol.value
  let tables := tables.u64v symbol.size
  { out with strings, tables }

def writeRelocation (out : Output) (relocation : Relocation) : Output :=
  let tables := out.tables.u32v relocation.sectionId
  let tables := tables.u32v (UInt32.ofNat relocation.symbol)
  let tables := tables.u64v relocation.offset
  let tables := tables.i64v relocation.addend
  let tables := tables.u8v relocation.type.value
  let tables := tables.pad 7
  { out with tables }

def writeDebugEntry (out : Output) (entry : DebugEntry) : Output :=
  let tables := out.tables.u32v entry.sectionId
  let tables := tables.u32v entry.file
  let tables := tables.u64v entry.offset
  let tables := tables.u32v entry.line
  let tables := tables.u32v entry.column
  { out with tables }

def writeSourceFile (out : Output) (file : Str) : Output :=
  let (nameOffset, strings) := out.strings.intern file
  { out with strings, tables := out.tables.u32v nameOffset }

/-- The header fields before the patched ones. -/
def writeHeader (object : ObjectFile) : Writer :=
  let header : Writer := {}
  let header := header.raw kObjectMagic
  let header := header.u16v kObjectVersion
  let header := header.u16v (UInt16.ofNat kHeaderSize)
  let header := header.u32v 0
  let header := header.u32v (UInt32.ofNat object.sections.length)
  let header := header.u32v (UInt32.ofNat object.symbols.size)
  let header := header.u32v (UInt32.ofNat object.relocations.length)
  let header := header.u32v (UInt32.ofNat object.debugInfo.length)
  header.u32v (UInt32.ofNat object.sourceFiles.length)

/-- The five writer loops. -/
def writeTables (object : ObjectFile) : Output :=
  let out := object.sections.foldl writeSection {}
  let out := object.symbols.symbols.foldl writeSymbol out
  let out := object.relocations.foldl writeRelocation out
  let out := object.debugInfo.foldl writeDebugEntry out
  object.sourceFiles.foldl writeSourceFile out

def writeObjectToBuffer (object : ObjectFile) : Except String (List UInt8) := do
  reject (object.sections.length > 0xFFFFFFFF ∨ object.relocations.length > 0xFFFFFFFF ∨
      object.debugInfo.length > 0xFFFFFFFF ∨ object.sourceFiles.length > 0xFFFFFFFF)
    "object is too large to serialise"
  let header := (writeHeader object).unpatched
  let out := writeTables object
  sealFile "object exceeds the 4 GiB file size limit" header out.tables out.strings.bytes out.blob

/-! ### Reading -/

/-- The fields of the header after the magic number. -/
structure Header where
  version : UInt16
  headerSize : UInt16
  flags : UInt32
  sectionCount : UInt32
  symbolCount : UInt32
  relocationCount : UInt32
  debugCount : UInt32
  sourceCount : UInt32
  trailer : Trailer
  deriving DecidableEq

def Header.read : Read Header := do
  let version ← Reader.u16v
  let headerSize ← Reader.u16v
  let flags ← Reader.u32v
  let sectionCount ← Reader.u32v
  let symbolCount ← Reader.u32v
  let relocationCount ← Reader.u32v
  let debugCount ← Reader.u32v
  let sourceCount ← Reader.u32v
  let trailer ← Trailer.read
  return { version, headerSize, flags, sectionCount, symbolCount, relocationCount, debugCount,
           sourceCount, trailer }

/-- Where each table starts, and where the last one ends. -/
def Header.symbolsAt (h : Header) : ℕ := kHeaderSize + h.sectionCount.toNat * kSectionRecordSize
def Header.relocationsAt (h : Header) : ℕ := h.symbolsAt + h.symbolCount.toNat * kSymbolRecordSize
def Header.debugAt (h : Header) : ℕ :=
  h.relocationsAt + h.relocationCount.toNat * kRelocationRecordSize
def Header.sourcesAt (h : Header) : ℕ := h.debugAt + h.debugCount.toNat * kDebugRecordSize
def Header.tablesEnd (h : Header) : ℕ := h.sourcesAt + h.sourceCount.toNat * kSourceRecordSize

/-- Reads the header of a buffer that is long enough to have one. -/
def readHeader (buffer : List UInt8) : Except String Header := do
  let (magic, reader) ← Reader.raw 4 { data := buffer }
  reject (magic ≠ kObjectMagic) "not an object file: bad magic"
  let (header, _) ← Reader.orError "truncated object header" Header.read reader
  return header

def checkHeader (buffer : List UInt8) (header : Header) : Except String Unit := do
  reject (header.version ≠ kObjectVersion)
    s!"unsupported object version {header.version} (this build understands {kObjectVersion})"
  reject (header.headerSize.toNat ≠ kHeaderSize)
    s!"unsupported object header size {header.headerSize}"
  let flags := hexText 8 header.flags.toNat
  reject (header.flags ≠ 0) s!"unknown object flags 0x{flags}"
  checkContents "object" buffer header.trailer

def outOfRange (what : String) (value limit : ℕ) : String :=
  s!"invalid object file: {what} {value} exceeds {limit}"

/-- The fields of a section record. -/
structure SectionRecord where
  nameOffset : UInt32
  type : UInt8
  flags : UInt8
  alignment : UInt64
  dataOffset : UInt64
  dataSize : UInt64
  memorySize : UInt64
  index : UInt32

def SectionRecord.read : Read SectionRecord := Reader.orError "truncated section table" do
  let nameOffset ← Reader.u32v
  let type ← Reader.u8v
  let flags ← Reader.u8v
  Reader.skip 2
  let alignment ← Reader.u64v
  let dataOffset ← Reader.u64v
  let dataSize ← Reader.u64v
  let memorySize ← Reader.u64v
  let index ← Reader.u32v
  Reader.skip 4
  return { nameOffset, type, flags, alignment, dataOffset, dataSize, memorySize, index }

def SectionRecord.check (stringTable blob : List UInt8) (fields : SectionRecord) :
    Except String Section := do
  reject (!isValidSectionType fields.type) s!"invalid section type {fields.type}"
  reject (fields.alignment = 0 ∨ fields.alignment &&& (fields.alignment - 1) ≠ 0)
    s!"section alignment {fields.alignment} is not a power of two"
  reject (fields.dataOffset.toNat > blob.length ∨
      fields.dataSize.toNat > blob.length - fields.dataOffset.toNat)
    (outOfRange "section data range" (fields.dataOffset + fields.dataSize).toNat blob.length)
  reject (fields.memorySize < fields.dataSize)
    "section memory size is smaller than its initialised data"
  let name ← readString stringTable fields.nameOffset
  return {
    name
    type := SectionType.ofValue fields.type
    flags := fields.flags
    alignment := fields.alignment
    data := (blob.drop fields.dataOffset.toNat).take fields.dataSize.toNat
    size := fields.memorySize
    index := fields.index }

/-- The fields of a symbol record. -/
structure SymbolRecord where
  nameOffset : UInt32
  binding : UInt8
  type : UInt8
  defined : UInt8
  sectionIndex : UInt32
  value : UInt64
  size : UInt64

def SymbolRecord.read : Read SymbolRecord := Reader.orError "truncated symbol table" do
  let nameOffset ← Reader.u32v
  let binding ← Reader.u8v
  let type ← Reader.u8v
  let defined ← Reader.u8v
  Reader.skip 1
  let sectionIndex ← Reader.u32v
  Reader.skip 4
  let value ← Reader.u64v
  let size ← Reader.u64v
  return { nameOffset, binding, type, defined, sectionIndex, value, size }

/-- Checks a symbol record and adds the symbol to those before it. -/
def SymbolRecord.accept (stringTable : List UInt8) (sectionCount : UInt32) (symbols : SymbolTable)
    (fields : SymbolRecord) : Except String SymbolTable := do
  reject (fields.binding > SymbolBinding.external.value) s!"invalid symbol binding {fields.binding}"
  reject (fields.type > SymbolType.sectionSymbol.value) s!"invalid symbol type {fields.type}"
  reject (fields.sectionIndex ≠ kUndefinedSection ∧ fields.sectionIndex ≥ sectionCount)
    (outOfRange "symbol section index" fields.sectionIndex.toNat sectionCount.toNat)
  let name ← readString stringTable fields.nameOffset
  -- Symbol indices are positional, so a duplicate would renumber every relocation after it.
  let shown := Str.text name
  reject (symbols.find name ≠ none) s!"duplicate symbol '{shown}' in symbol table"
  return (symbols.addSymbol {
    name
    binding := SymbolBinding.ofValue fields.binding
    type := SymbolType.ofValue fields.type
    defined := fields.defined != 0
    sectionId := fields.sectionIndex
    value := fields.value
    size := fields.size }).2

/-- The fields of a relocation record. -/
structure RelocationRecord where
  sectionIndex : UInt32
  symbolIndex : UInt32
  offset : UInt64
  addend : Int64
  type : UInt8

def RelocationRecord.read : Read RelocationRecord := Reader.orError "truncated relocation table" do
  let sectionIndex ← Reader.u32v
  let symbolIndex ← Reader.u32v
  let offset ← Reader.u64v
  let addend ← Reader.i64v
  let type ← Reader.u8v
  Reader.skip 7
  return { sectionIndex, symbolIndex, offset, addend, type }

def RelocationRecord.check (sections : List Section) (sectionCount symbolCount : UInt32)
    (fields : RelocationRecord) : Except String Relocation := do
  reject (!isValidRelocationType fields.type) s!"invalid relocation type {fields.type}"
  reject (fields.sectionIndex ≥ sectionCount)
    (outOfRange "relocation section index" fields.sectionIndex.toNat sectionCount.toNat)
  reject (fields.symbolIndex ≥ symbolCount)
    (outOfRange "relocation symbol index" fields.symbolIndex.toNat symbolCount.toNat)
  let target := sections.getD fields.sectionIndex.toNat {}
  let type := RelocationType.ofValue fields.type
  let size := target.data.length
  let shown := Str.text target.name
  reject (fields.offset.toNat > size ∨ relocationWidth type > size - fields.offset.toNat)
    s!"relocation at offset {fields.offset} does not fit in section '{shown}' ({size} bytes)"
  return {
    sectionId := fields.sectionIndex
    symbol := fields.symbolIndex.toNat
    offset := fields.offset
    addend := fields.addend
    type }

def DebugEntry.read : Read DebugEntry := Reader.orError "truncated debug table" do
  let sectionId ← Reader.u32v
  let file ← Reader.u32v
  let offset ← Reader.u64v
  let line ← Reader.u32v
  let column ← Reader.u32v
  return { sectionId, file, offset, line, column }

def DebugEntry.check (sectionCount sourceCount : UInt32) (entry : DebugEntry) :
    Except String DebugEntry := do
  reject (entry.sectionId ≥ sectionCount)
    (outOfRange "debug section index" entry.sectionId.toNat sectionCount.toNat)
  reject (entry.file ≥ sourceCount)
    (outOfRange "debug file index" entry.file.toNat sourceCount.toNat)
  return entry

def readSourceRecord : Read UInt32 := Reader.orError "truncated source file table" Reader.u32v

/-- The five record loops. -/
def readTables (header : Header) (stringTable blob : List UInt8) : Read ObjectFile := do
  let sections ← Reader.tableAt kHeaderSize SectionRecord.read
    (SectionRecord.check stringTable blob) header.sectionCount.toNat
  let symbols ← (do
    Reader.seek header.symbolsAt
    Reader.loop (fun symbols => do
        let fields ← SymbolRecord.read
        SymbolRecord.accept stringTable header.sectionCount symbols fields)
      header.symbolCount.toNat SymbolTable.empty)
  let relocations ← Reader.tableAt header.relocationsAt RelocationRecord.read
    (RelocationRecord.check sections header.sectionCount header.symbolCount)
    header.relocationCount.toNat
  let debugInfo ← Reader.tableAt header.debugAt DebugEntry.read
    (DebugEntry.check header.sectionCount header.sourceCount) header.debugCount.toNat
  let sourceFiles ← Reader.tableAt header.sourcesAt readSourceRecord
    (readString stringTable) header.sourceCount.toNat
  return { version := header.version, sections, symbols, relocations, debugInfo, sourceFiles }

def readObjectFromBuffer (buffer : List UInt8) : Except String ObjectFile := do
  let size := buffer.length
  reject (size < kHeaderSize)
    s!"not an object file: {size} bytes is shorter than the {kHeaderSize}-byte header"
  let header ← readHeader buffer
  checkHeader buffer header
  let (stringTable, blob) ← extents "object" buffer header.trailer header.tablesEnd
  (readTables header stringTable blob).run' { data := buffer }

/-! ### The bytes of a record -/

def SectionRecord.toBytes (fields : SectionRecord) : List UInt8 :=
  littleEndian 4 fields.nameOffset.toUInt64 ++ (fields.type :: fields.flags :: 0 :: 0 ::
    (littleEndian 8 fields.alignment ++ (littleEndian 8 fields.dataOffset ++
      (littleEndian 8 fields.dataSize ++ (littleEndian 8 fields.memorySize ++
        (littleEndian 4 fields.index.toUInt64 ++ [0, 0, 0, 0]))))))

def SectionRecord.ofBytes (bytes : List UInt8) : SectionRecord where
  nameOffset := (load 4 bytes).toUInt32
  type := (bytes.drop 4).headD 0
  flags := (bytes.drop 5).headD 0
  alignment := load 8 (bytes.drop 8)
  dataOffset := load 8 (bytes.drop 16)
  dataSize := load 8 (bytes.drop 24)
  memorySize := load 8 (bytes.drop 32)
  index := (load 4 (bytes.drop 40)).toUInt32

def SymbolRecord.toBytes (fields : SymbolRecord) : List UInt8 :=
  littleEndian 4 fields.nameOffset.toUInt64 ++ (fields.binding :: fields.type :: fields.defined ::
    0 :: (littleEndian 4 fields.sectionIndex.toUInt64 ++ (0 :: 0 :: 0 :: 0 ::
      (littleEndian 8 fields.value ++ littleEndian 8 fields.size))))

def SymbolRecord.ofBytes (bytes : List UInt8) : SymbolRecord where
  nameOffset := (load 4 bytes).toUInt32
  binding := (bytes.drop 4).headD 0
  type := (bytes.drop 5).headD 0
  defined := (bytes.drop 6).headD 0
  sectionIndex := (load 4 (bytes.drop 8)).toUInt32
  value := load 8 (bytes.drop 16)
  size := load 8 (bytes.drop 24)

def RelocationRecord.toBytes (fields : RelocationRecord) : List UInt8 :=
  littleEndian 4 fields.sectionIndex.toUInt64 ++ (littleEndian 4 fields.symbolIndex.toUInt64 ++
    (littleEndian 8 fields.offset ++ (littleEndian 8 fields.addend.toUInt64 ++
      [fields.type, 0, 0, 0, 0, 0, 0, 0])))

def RelocationRecord.ofBytes (bytes : List UInt8) : RelocationRecord where
  sectionIndex := (load 4 bytes).toUInt32
  symbolIndex := (load 4 (bytes.drop 4)).toUInt32
  offset := load 8 (bytes.drop 8)
  addend := (load 8 (bytes.drop 16)).toInt64
  type := (bytes.drop 24).headD 0

def DebugEntry.toBytes (entry : DebugEntry) : List UInt8 :=
  littleEndian 4 entry.sectionId.toUInt64 ++ (littleEndian 4 entry.file.toUInt64 ++
    (littleEndian 8 entry.offset ++ (littleEndian 4 entry.line.toUInt64 ++
      littleEndian 4 entry.column.toUInt64)))

def DebugEntry.ofBytes (bytes : List UInt8) : DebugEntry where
  sectionId := (load 4 bytes).toUInt32
  file := (load 4 (bytes.drop 4)).toUInt32
  offset := load 8 (bytes.drop 8)
  line := (load 4 (bytes.drop 16)).toUInt32
  column := (load 4 (bytes.drop 20)).toUInt32

def sourceToBytes (nameOffset : UInt32) : List UInt8 := littleEndian 4 nameOffset.toUInt64

def sourceOfBytes (bytes : List UInt8) : UInt32 := (load 4 bytes).toUInt32

def Header.toBytes (h : Header) : List UInt8 :=
  littleEndian 2 h.version.toUInt64 ++ (littleEndian 2 h.headerSize.toUInt64 ++
    (littleEndian 4 h.flags.toUInt64 ++ (littleEndian 4 h.sectionCount.toUInt64 ++
      (littleEndian 4 h.symbolCount.toUInt64 ++ (littleEndian 4 h.relocationCount.toUInt64 ++
        (littleEndian 4 h.debugCount.toUInt64 ++ (littleEndian 4 h.sourceCount.toUInt64 ++
          h.trailer.toBytes)))))))

def Header.ofBytes (bytes : List UInt8) : Header where
  version := (load 2 bytes).toUInt16
  headerSize := (load 2 (bytes.drop 2)).toUInt16
  flags := (load 4 (bytes.drop 4)).toUInt32
  sectionCount := (load 4 (bytes.drop 8)).toUInt32
  symbolCount := (load 4 (bytes.drop 12)).toUInt32
  relocationCount := (load 4 (bytes.drop 16)).toUInt32
  debugCount := (load 4 (bytes.drop 20)).toUInt32
  sourceCount := (load 4 (bytes.drop 24)).toUInt32
  trailer := Trailer.ofBytes (bytes.drop 28)

section

open Reader

theorem SectionRecord.read_fixedWidth :
    FixedWidth SectionRecord.read kSectionRecordSize SectionRecord.ofBytes := by
  have h := (FixedWidth.u32v.bind fun nameOffset => FixedWidth.u8v.bind fun type =>
    FixedWidth.u8v.bind fun flags => (FixedWidth.skip 2).bind fun _ =>
    FixedWidth.u64v.bind fun alignment => FixedWidth.u64v.bind fun dataOffset =>
    FixedWidth.u64v.bind fun dataSize => FixedWidth.u64v.bind fun memorySize =>
    FixedWidth.u32v.bind fun index => (FixedWidth.skip 4).bind fun _ =>
    FixedWidth.pure (SectionRecord.mk nameOffset type flags alignment dataOffset dataSize
      memorySize index)).orError "truncated section table"
  simp only [List.drop_drop] at h
  exact h

theorem SymbolRecord.read_fixedWidth :
    FixedWidth SymbolRecord.read kSymbolRecordSize SymbolRecord.ofBytes := by
  have h := (FixedWidth.u32v.bind fun nameOffset => FixedWidth.u8v.bind fun binding =>
    FixedWidth.u8v.bind fun type => FixedWidth.u8v.bind fun defined =>
    (FixedWidth.skip 1).bind fun _ => FixedWidth.u32v.bind fun sectionIndex =>
    (FixedWidth.skip 4).bind fun _ => FixedWidth.u64v.bind fun value =>
    FixedWidth.u64v.bind fun size =>
    FixedWidth.pure (SymbolRecord.mk nameOffset binding type defined sectionIndex value
      size)).orError "truncated symbol table"
  simp only [List.drop_drop] at h
  exact h

theorem RelocationRecord.read_fixedWidth :
    FixedWidth RelocationRecord.read kRelocationRecordSize RelocationRecord.ofBytes := by
  have h := (FixedWidth.u32v.bind fun sectionIndex => FixedWidth.u32v.bind fun symbolIndex =>
    FixedWidth.u64v.bind fun offset => FixedWidth.i64v.bind fun addend =>
    FixedWidth.u8v.bind fun type => (FixedWidth.skip 7).bind fun _ =>
    FixedWidth.pure (RelocationRecord.mk sectionIndex symbolIndex offset addend type)).orError
      "truncated relocation table"
  simp only [List.drop_drop] at h
  exact h

theorem DebugEntry.read_fixedWidth :
    FixedWidth DebugEntry.read kDebugRecordSize DebugEntry.ofBytes := by
  have h := (FixedWidth.u32v.bind fun sectionId => FixedWidth.u32v.bind fun file =>
    FixedWidth.u64v.bind fun offset => FixedWidth.u32v.bind fun line =>
    FixedWidth.u32v.bind fun column =>
    FixedWidth.pure (DebugEntry.mk sectionId file offset line column)).orError
      "truncated debug table"
  simp only [List.drop_drop] at h
  exact h

theorem readSourceRecord_fixedWidth :
    FixedWidth readSourceRecord kSourceRecordSize sourceOfBytes :=
  FixedWidth.u32v.orError _

theorem Header.read_fixedWidth : FixedWidth Header.read 60 Header.ofBytes := by
  have h := FixedWidth.u16v.bind fun version => FixedWidth.u16v.bind fun headerSize =>
    FixedWidth.u32v.bind fun flags => FixedWidth.u32v.bind fun sectionCount =>
    FixedWidth.u32v.bind fun symbolCount => FixedWidth.u32v.bind fun relocationCount =>
    FixedWidth.u32v.bind fun debugCount => FixedWidth.u32v.bind fun sourceCount =>
    Trailer.read_fixedWidth.bind fun trailer =>
    FixedWidth.pure (Header.mk version headerSize flags sectionCount symbolCount relocationCount
      debugCount sourceCount trailer)
  simp only [List.drop_drop] at h
  exact h

end

theorem SectionRecord.ofBytes_toBytes (fields : SectionRecord) (rest : List UInt8) :
    SectionRecord.ofBytes (fields.toBytes ++ rest) = fields := by
  simp [ofBytes, toBytes]

theorem SymbolRecord.ofBytes_toBytes (fields : SymbolRecord) (rest : List UInt8) :
    SymbolRecord.ofBytes (fields.toBytes ++ rest) = fields := by
  simp [ofBytes, toBytes]

theorem RelocationRecord.ofBytes_toBytes (fields : RelocationRecord) (rest : List UInt8) :
    RelocationRecord.ofBytes (fields.toBytes ++ rest) = fields := by
  simp [ofBytes, toBytes]

theorem DebugEntry.ofBytes_toBytes (entry : DebugEntry) (rest : List UInt8) :
    DebugEntry.ofBytes (entry.toBytes ++ rest) = entry := by
  simp [ofBytes, toBytes]

theorem sourceOfBytes_toBytes (nameOffset : UInt32) (rest : List UInt8) :
    sourceOfBytes (sourceToBytes nameOffset ++ rest) = nameOffset := by
  simp [sourceOfBytes, sourceToBytes]

theorem Header.ofBytes_toBytes (h : Header) (rest : List UInt8) :
    Header.ofBytes (h.toBytes ++ rest) = h := by
  simp [ofBytes, toBytes, Trailer.ofBytes_toBytes]

@[simp] theorem SectionRecord.length_toBytes (fields : SectionRecord) :
    fields.toBytes.length = kSectionRecordSize := by simp [toBytes]

@[simp] theorem SymbolRecord.length_toBytes (fields : SymbolRecord) :
    fields.toBytes.length = kSymbolRecordSize := by simp [toBytes]

@[simp] theorem RelocationRecord.length_toBytes (fields : RelocationRecord) :
    fields.toBytes.length = kRelocationRecordSize := by simp [toBytes]

@[simp] theorem DebugEntry.length_toBytes (entry : DebugEntry) :
    entry.toBytes.length = kDebugRecordSize := by simp [toBytes]

@[simp] theorem length_sourceToBytes (nameOffset : UInt32) :
    (sourceToBytes nameOffset).length = kSourceRecordSize := by simp [sourceToBytes]

/-! ### What the reader computes -/

/-- The tables of a buffer, decoded and checked record by record. -/
def tablesOf (header : Header) (stringTable blob buffer : List UInt8) :
    Except String ObjectFile := do
  let sections ← (RecordTable.records kSectionRecordSize SectionRecord.ofBytes
    header.sectionCount.toNat (buffer.drop kHeaderSize)).mapM (SectionRecord.check stringTable blob)
  let symbols ← (RecordTable.records kSymbolRecordSize SymbolRecord.ofBytes
    header.symbolCount.toNat (buffer.drop header.symbolsAt)).foldlM
      (SymbolRecord.accept stringTable header.sectionCount) SymbolTable.empty
  let relocations ← (RecordTable.records kRelocationRecordSize RelocationRecord.ofBytes
    header.relocationCount.toNat (buffer.drop header.relocationsAt)).mapM
      (RelocationRecord.check sections header.sectionCount header.symbolCount)
  let debugInfo ← (RecordTable.records kDebugRecordSize DebugEntry.ofBytes
    header.debugCount.toNat (buffer.drop header.debugAt)).mapM
      (DebugEntry.check header.sectionCount header.sourceCount)
  let sourceFiles ← (RecordTable.records kSourceRecordSize sourceOfBytes
    header.sourceCount.toNat (buffer.drop header.sourcesAt)).mapM (readString stringTable)
  return { version := header.version, sections, symbols, relocations, debugInfo, sourceFiles }

/-- The layout check and the tables. -/
def contentsOf (header : Header) (buffer : List UInt8) : Except String ObjectFile := do
  let (stringTable, blob) ← extents "object" buffer header.trailer header.tablesEnd
  tablesOf header stringTable blob buffer

theorem readTables_yields {header : Header} {buffer : List UInt8}
    (hend : header.tablesEnd ≤ buffer.length) (stringTable blob : List UInt8) :
    Reader.Yields (readTables header stringTable blob) buffer
      (tablesOf header stringTable blob buffer) := by
  have hsymbols : header.symbolsAt ≤ header.relocationsAt := Nat.le_add_right _ _
  have hrelocations : header.relocationsAt ≤ header.debugAt := Nat.le_add_right _ _
  have hdebug : header.debugAt ≤ header.sourcesAt := Nat.le_add_right _ _
  have hsources : header.sourcesAt ≤ header.tablesEnd := Nat.le_add_right _ _
  refine (Reader.yields_tableAt SectionRecord.read_fixedWidth _ ?_).bind fun _ =>
    (Reader.yields_seek_loop SymbolRecord.read_fixedWidth _ _ ?_).bind fun _ =>
    (Reader.yields_tableAt RelocationRecord.read_fixedWidth _ ?_).bind fun _ =>
    (Reader.yields_tableAt DebugEntry.read_fixedWidth _ ?_).bind fun _ =>
    (Reader.yields_tableAt readSourceRecord_fixedWidth _ ?_).bind fun _ =>
    Reader.Yields.pure _ _
  · exact (hsymbols.trans (hrelocations.trans hdebug)).trans (hsources.trans hend)
  · exact (hrelocations.trans hdebug).trans (hsources.trans hend)
  · exact hdebug.trans (hsources.trans hend)
  · exact hsources.trans hend
  · exact hend

/-- The header of a buffer. -/
def headerAt (b : List UInt8) : Header := Header.ofBytes (b.drop 4)

/-- The header of a buffer that is long enough to have one. -/
theorem readHeader_eq {buffer : List UInt8} (hlen : kHeaderSize ≤ buffer.length) :
    readHeader buffer = (do
      reject (buffer.take 4 ≠ kObjectMagic) "not an object file: bad magic"
      return headerAt buffer) := by
  have hlen' : 64 ≤ buffer.length := hlen
  have hraw : Reader.raw 4 { data := buffer } = .ok (buffer.take 4, ⟨buffer, 4⟩) :=
    if_pos (Reader.has_iff.mpr (by simp only [Reader.rest, List.length_drop]; omega))
  have hread := (Header.read_fixedWidth.orError "truncated object header").enough ⟨buffer, 4⟩
    (by simp only [Reader.rest, List.length_drop]; omega)
  rw [readHeader, hraw, ok_bind]
  simp only [hread]
  rfl

/-- The reader: header checks, layout checks, and a check of every record. -/
theorem readObjectFromBuffer_eq {buffer : List UInt8} (hlen : kHeaderSize ≤ buffer.length) :
    readObjectFromBuffer buffer = (do
      reject (buffer.take 4 ≠ kObjectMagic) "not an object file: bad magic"
      checkHeader buffer (headerAt buffer)
      contentsOf (headerAt buffer) buffer) := by
  unfold readObjectFromBuffer
  simp only [reject_of_not (not_lt.mpr hlen), readHeader_eq hlen, ok_bind]
  generalize headerAt buffer = header
  generalize reject (buffer.take 4 ≠ kObjectMagic) "not an object file: bad magic" = magic
  cases magic with
  | error e => rfl
  | ok u =>
  simp only [ok_bind, pure_eq_ok, contentsOf]
  congr 1
  funext _
  cases hextents : extents "object" buffer header.trailer header.tablesEnd with
  | error e => rfl
  | ok regions =>
    have hend := le_of_extents_eq_ok hextents
    simp only [ok_bind, (readTables_yields hend regions.1 regions.2).run']

/-! ### Well-formed objects -/

/-- What the reader checks, on the object itself. -/
structure ObjectFile.WellFormed (o : ObjectFile) : Prop where
  version : o.version = kObjectVersion
  alignment : ∀ s ∈ o.sections, s.alignment ≠ 0 ∧ s.alignment &&& (s.alignment - 1) = 0
  memory : ∀ s ∈ o.sections, s.data.length ≤ s.size.toNat
  symbols : ∀ s ∈ o.symbols.symbols,
    s.sectionId = kUndefinedSection ∨ s.sectionId.toNat < o.sections.length
  relocations : ∀ r ∈ o.relocations, r.symbol < o.symbols.size ∧
    ∃ s, o.sections[r.sectionId.toNat]? = some s ∧
      r.offset.toNat + relocationWidth r.type ≤ s.data.length
  debugInfo : ∀ d ∈ o.debugInfo,
    d.sectionId.toNat < o.sections.length ∧ d.file.toNat < o.sourceFiles.length

/-- No name of the object contains a zero byte. -/
structure ObjectFile.NulFreeNames (o : ObjectFile) : Prop where
  sections : ∀ s ∈ o.sections, NulFree s.name
  symbols : ∀ s ∈ o.symbols.symbols, NulFree s.name
  sourceFiles : ∀ f ∈ o.sourceFiles, NulFree f

/-! ### Round trip -/

theorem writes_section {x : Section} (hname : NulFree x.name)
    (halign : x.alignment ≠ 0 ∧ x.alignment &&& (x.alignment - 1) = 0)
    (hmemory : x.data.length ≤ x.size.toNat) :
    Writes (writeSection · x) fun strings blob bytes => ∃ fields,
      bytes = SectionRecord.toBytes fields ∧ SectionRecord.check strings blob fields = .ok x where
  strings_grow := fun out => out.strings.bytes_prefix_intern x.name
  blob_grow := fun _ => List.prefix_append _ _
  sound := fun _ hsound hlen => StringTable.sound_intern hsound x.name hlen
  tables := fun out strings blob hsound hstrings hslen hblob hblen => by
    have hread := StringTable.intern_reads hsound hname hstrings hslen
    obtain ⟨after, hafter⟩ := hblob
    have hdata : blob = out.blob.bytes ++ (x.data ++ after) := by
      rw [← hafter, ← List.append_assoc]
      rfl
    have hblen' : out.blob.bytes.length + (x.data.length + after.length) < 2 ^ 32 := by
      simpa only [hdata, List.length_append] using hblen
    have hoffset : (UInt64.ofNat out.blob.bytes.length).toNat = out.blob.bytes.length := by
      rw [UInt64.toNat_ofNat', Nat.mod_eq_of_lt (by omega)]
    have hsize : (UInt64.ofNat x.data.length).toNat = x.data.length := by
      rw [UInt64.toNat_ofNat', Nat.mod_eq_of_lt (by omega)]
    have hle : ¬ x.size < UInt64.ofNat x.data.length := by
      rw [UInt64.lt_iff_toNat_lt, hsize]
      omega
    refine ⟨_, ?_, ⟨(out.strings.intern x.name).1, x.type.value, x.flags, x.alignment,
      UInt64.ofNat out.blob.bytes.length, UInt64.ofNat x.data.length, x.size, x.index⟩, rfl, ?_⟩
    · simp [writeSection, SectionRecord.toBytes, Writer.u32v, Writer.u8v, Writer.u64v, Writer.word,
        Writer.pad, Writer.size, List.replicate]
    · simp only [SectionRecord.check, isValidSectionType_value, hread, hoffset, hsize,
        SectionType.ofValue_value]
      rw [reject_of_not (by simp), reject_of_not (by simp [halign]),
        reject_of_not (by rw [hdata]; simp), reject_of_not hle]
      simp only [ok_bind, pure_eq_ok, hdata, List.drop_left, List.take_left]

/-- A symbol record that reads back: the next symbol is pushed. -/
def SymbolRecord.Reads (strings : List UInt8) (sectionCount : UInt32) (fields : SymbolRecord)
    (x : Symbol) : Prop :=
  ∀ (t : SymbolTable) (hnew : t.indexOf x.name = none),
    SymbolRecord.accept strings sectionCount t fields = .ok (t.push x hnew)

theorem writes_symbol {sectionCount : UInt32} {x : Symbol} (hname : NulFree x.name)
    (hsection : x.sectionId = kUndefinedSection ∨ x.sectionId < sectionCount) :
    Writes (writeSymbol · x) fun strings _ bytes => ∃ fields, bytes = SymbolRecord.toBytes fields
      ∧ SymbolRecord.Reads strings sectionCount fields x where
  strings_grow := fun out => out.strings.bytes_prefix_intern x.name
  blob_grow := fun _ => List.prefix_refl _
  sound := fun _ hsound hlen => StringTable.sound_intern hsound x.name hlen
  tables := fun out strings _ hsound hstrings hslen _ _ => by
    have hread := StringTable.intern_reads hsound hname hstrings hslen
    have hbinding := SymbolBinding.value_le_external x.binding
    have htype := SymbolType.value_le_sectionSymbol x.type
    have hdefined : ((if x.defined = true then 1 else 0 : UInt8) != 0) = x.defined := by
      cases x.defined <;> rfl
    have hindex : ¬ (x.sectionId ≠ kUndefinedSection ∧ x.sectionId ≥ sectionCount) := by
      rintro ⟨hne, hge⟩
      rcases hsection with heq | hlt
      · exact hne heq
      · exact UInt32.not_le.mpr hlt hge
    refine ⟨_, ?_, ⟨(out.strings.intern x.name).1, x.binding.value, x.type.value,
      if x.defined then 1 else 0, x.sectionId, x.value, x.size⟩, rfl, ?_⟩
    · simp [writeSymbol, SymbolRecord.toBytes, Writer.u32v, Writer.u8v, Writer.u64v, Writer.word,
        Writer.pad, List.replicate]
    · intro t hnew
      simp only [SymbolRecord.accept, hread, SymbolBinding.ofValue_value, SymbolType.ofValue_value,
        hdefined]
      rw [reject_of_not (UInt8.not_lt.mpr hbinding), reject_of_not (UInt8.not_lt.mpr htype),
        reject_of_not hindex]
      simp only [ok_bind, SymbolTable.find_eq_none.mpr hnew, ne_eq, not_true_eq_false,
        reject_of_not, not_false_eq_true, pure_eq_ok, SymbolTable.addSymbol_of_new hnew]

/-- The symbol loop rebuilds the table, because its names are distinct. -/
theorem foldlM_accept {strings : List UInt8} {sectionCount : UInt32} {table : List SymbolRecord}
    {xs : List Symbol}
    (hreads : List.Forall₂ (SymbolRecord.Reads strings sectionCount) table xs) (t : SymbolTable)
    (hnodup : ((t.symbols ++ xs).map Symbol.name).Nodup) :
    table.foldlM (SymbolRecord.accept strings sectionCount) t = .ok ⟨t.symbols ++ xs, hnodup⟩ := by
  induction hreads generalizing t with
  | nil =>
    refine congrArg Except.ok ?_
    cases t
    simp
  | @cons fields x table xs hx _ ih =>
    have hnew : t.indexOf x.name = none := by
      rw [SymbolTable.indexOf_eq_none]
      intro hmem
      rw [List.map_append, List.map_cons, List.nodup_append] at hnodup
      exact hnodup.2.2 _ hmem _ (by simp) rfl
    have hpush : (t.push x hnew).symbols ++ xs = t.symbols ++ x :: xs := by
      simp [SymbolTable.push]
    rw [List.foldlM_cons, hx t hnew, ok_bind, ih (t.push x hnew) (by rw [hpush]; exact hnodup)]
    simp only [hpush]

theorem writes_relocation {sections : List Section} {sectionCount symbolCount : UInt32}
    (hcount : sectionCount.toNat = sections.length) {x : Relocation} {s : Section}
    (hsymbol : x.symbol < symbolCount.toNat) (hsection : sections[x.sectionId.toNat]? = some s)
    (hfit : x.offset.toNat + relocationWidth x.type ≤ s.data.length) :
    Writes (writeRelocation · x) fun _ _ bytes => ∃ fields, bytes = RelocationRecord.toBytes fields
      ∧ RelocationRecord.check sections sectionCount symbolCount fields = .ok x where
  strings_grow := fun _ => List.prefix_refl _
  blob_grow := fun _ => List.prefix_refl _
  sound := fun _ hsound _ => hsound
  tables := fun out _ _ _ _ _ _ _ => by
    have hlt := symbolCount.toNat_lt
    have hindex : (UInt32.ofNat x.symbol).toNat = x.symbol := by
      rw [UInt32.toNat_ofNat', Nat.mod_eq_of_lt (by omega)]
    have hin : x.sectionId.toNat < sections.length := (List.getElem?_eq_some_iff.mp hsection).1
    have hsectionLt : ¬ x.sectionId ≥ sectionCount := by
      rw [ge_iff_le, UInt32.le_iff_toNat_le]
      omega
    have hsymbolLt : ¬ UInt32.ofNat x.symbol ≥ symbolCount := by
      rw [ge_iff_le, UInt32.le_iff_toNat_le, hindex]
      omega
    have htarget : sections.getD x.sectionId.toNat {} = s := by
      rw [List.getD_eq_getElem?_getD, hsection, Option.getD_some]
    refine ⟨_, ?_, ⟨x.sectionId, UInt32.ofNat x.symbol, x.offset, x.addend, x.type.value⟩, rfl, ?_⟩
    · simp [writeRelocation, RelocationRecord.toBytes, Writer.u32v, Writer.u8v, Writer.u64v,
        Writer.i64v, Writer.word, Writer.pad, List.replicate]
    · simp only [RelocationRecord.check, isValidRelocationType_value, htarget, hindex,
        RelocationType.ofValue_value]
      rw [reject_of_not (by simp), reject_of_not hsectionLt, reject_of_not hsymbolLt,
        reject_of_not (by omega)]
      rfl

theorem writes_debug {sectionCount sourceCount : UInt32} {x : DebugEntry}
    (hsection : x.sectionId < sectionCount) (hfile : x.file < sourceCount) :
    Writes (writeDebugEntry · x) fun _ _ bytes => ∃ fields, bytes = DebugEntry.toBytes fields
      ∧ DebugEntry.check sectionCount sourceCount fields = .ok x where
  strings_grow := fun _ => List.prefix_refl _
  blob_grow := fun _ => List.prefix_refl _
  sound := fun _ hsound _ => hsound
  tables := fun out _ _ _ _ _ _ _ => by
    refine ⟨_, ?_, x, rfl, ?_⟩
    · simp [writeDebugEntry, DebugEntry.toBytes, Writer.u32v, Writer.u64v, Writer.word]
    · rw [DebugEntry.check, reject_of_not (UInt32.not_le.mpr hsection),
        reject_of_not (UInt32.not_le.mpr hfile)]
      rfl

theorem writes_source {x : Str} (hname : NulFree x) :
    Writes (writeSourceFile · x) fun strings _ bytes => ∃ nameOffset,
      bytes = sourceToBytes nameOffset ∧ readString strings nameOffset = .ok x where
  strings_grow := fun out => out.strings.bytes_prefix_intern x
  blob_grow := fun _ => List.prefix_refl _
  sound := fun _ hsound hlen => StringTable.sound_intern hsound x hlen
  tables := fun out _ _ hsound hstrings hslen _ _ =>
    ⟨_, rfl, (out.strings.intern x).1, rfl, StringTable.intern_reads hsound hname hstrings hslen⟩

/-- The tables take a fixed number of bytes for each record. -/
theorem size_writeTables (o : ObjectFile) : (writeTables o).tables.size
    = o.sections.length * kSectionRecordSize + o.symbols.symbols.length * kSymbolRecordSize
      + o.relocations.length * kRelocationRecordSize + o.debugInfo.length * kDebugRecordSize
      + o.sourceFiles.length * kSourceRecordSize := by
  have hsection : ∀ out x, (writeSection out x).tables.size = out.tables.size +
      kSectionRecordSize :=
    fun out x => by
      simp [writeSection, Writer.u32v, Writer.u8v, Writer.u64v, Writer.word,
        Writer.pad, Writer.size]
  have hsymbol : ∀ out x, (writeSymbol out x).tables.size = out.tables.size + kSymbolRecordSize :=
    fun out x => by
      simp [writeSymbol, Writer.u32v, Writer.u8v, Writer.u64v, Writer.word, Writer.pad, Writer.size]
  have hrelocation : ∀ out x,
      (writeRelocation out x).tables.size = out.tables.size + kRelocationRecordSize :=
    fun out x => by
      simp [writeRelocation, Writer.u32v, Writer.u8v, Writer.u64v, Writer.i64v, Writer.word,
        Writer.pad, Writer.size]
  have hdebug : ∀ out x, (writeDebugEntry out x).tables.size = out.tables.size + kDebugRecordSize :=
    fun out x => by simp [writeDebugEntry, Writer.u32v, Writer.u64v, Writer.word, Writer.size]
  have hsource : ∀ out x, (writeSourceFile out x).tables.size = out.tables.size +
      kSourceRecordSize :=
    fun out x => by simp [writeSourceFile, Writer.u32v, Writer.word, Writer.size]
  have hempty : ({} : Output).tables.size = 0 := rfl
  rw [writeTables, size_foldl hsource, size_foldl hdebug, size_foldl hrelocation,
    size_foldl hsymbol, size_foldl hsection, hempty]
  ring

theorem length_writeHeader (o : ObjectFile) : (writeHeader o).bytes.length = 32 := by
  simp [writeHeader, Writer.raw, Writer.u16v, Writer.u32v, Writer.word, kObjectMagic, str]
  rfl

/-- The header a file starts with. -/
def headerOf (o : ObjectFile) (trailer : Trailer) : Header where
  version := kObjectVersion
  headerSize := UInt16.ofNat kHeaderSize
  flags := 0
  sectionCount := UInt32.ofNat o.sections.length
  symbolCount := UInt32.ofNat o.symbols.size
  relocationCount := UInt32.ofNat o.relocations.length
  debugCount := UInt32.ofNat o.debugInfo.length
  sourceCount := UInt32.ofNat o.sourceFiles.length
  trailer := trailer

theorem writeHeader_append (o : ObjectFile) (trailer : Trailer) :
    (writeHeader o).bytes ++ trailer.toBytes = kObjectMagic ++ (headerOf o trailer).toBytes := by
  simp [writeHeader, Header.toBytes, headerOf, Writer.raw, Writer.u16v, Writer.u32v, Writer.word]

/-- No table of the object has 2 ^ 32 entries, so no count wraps. -/
structure ObjectFile.Small (o : ObjectFile) : Prop where
  sections : o.sections.length < 2 ^ 32
  symbols : o.symbols.symbols.length < 2 ^ 32
  relocations : o.relocations.length < 2 ^ 32
  debugInfo : o.debugInfo.length < 2 ^ 32
  sourceFiles : o.sourceFiles.length < 2 ^ 32

private theorem toNat_count {n : ℕ} (hn : n < 2 ^ 32) : (UInt32.ofNat n).toNat = n :=
  UInt32.toNat_ofNat'.trans (Nat.mod_eq_of_lt hn)

/-- The five tables of an object in records, and what checking them yields. -/
structure Tables (o : ObjectFile) (strings blob : List UInt8) where
  sections : List SectionRecord
  symbols : List SymbolRecord
  relocations : List RelocationRecord
  debugInfo : List DebugEntry
  sources : List UInt32
  sections_eq : sections.mapM (SectionRecord.check strings blob) = .ok o.sections
  symbols_eq : List.Forall₂
    (SymbolRecord.Reads strings (UInt32.ofNat o.sections.length)) symbols o.symbols.symbols
  relocations_eq : relocations.mapM (RelocationRecord.check o.sections
    (UInt32.ofNat o.sections.length) (UInt32.ofNat o.symbols.size)) = .ok o.relocations
  debugInfo_eq : debugInfo.mapM (DebugEntry.check (UInt32.ofNat o.sections.length)
    (UInt32.ofNat o.sourceFiles.length)) = .ok o.debugInfo
  sources_eq : sources.mapM (readString strings) = .ok o.sourceFiles

def Tables.toBytes {o : ObjectFile} {strings blob : List UInt8} (t : Tables o strings blob) :
    List UInt8 :=
  t.sections.flatMap SectionRecord.toBytes ++ (t.symbols.flatMap SymbolRecord.toBytes
    ++ (t.relocations.flatMap RelocationRecord.toBytes ++ (t.debugInfo.flatMap DebugEntry.toBytes
      ++ t.sources.flatMap sourceToBytes)))

/-- The tables of a written file: five tables whose records read as the entries. -/
theorem written_tables {o : ObjectFile} (hwf : o.WellFormed) (hnames : o.NulFreeNames)
    (hsmall : o.Small) (hslen : (writeTables o).strings.bytes.length < 2 ^ 32)
    (hblen : (writeTables o).blob.bytes.length < 2 ^ 32) :
    ∃ t : Tables o (writeTables o).strings.bytes (writeTables o).blob.bytes,
      (writeTables o).tables.bytes = t.toBytes := by
  have hsection : ∀ {i : UInt32}, i.toNat < o.sections.length →
      i < UInt32.ofNat o.sections.length := by
    intro i hi
    rw [UInt32.lt_iff_toNat_lt, toNat_count hsmall.sections]
    exact hi
  have hsource : ∀ {i : UInt32}, i.toNat < o.sourceFiles.length →
      i < UInt32.ofNat o.sourceFiles.length := by
    intro i hi
    rw [UInt32.lt_iff_toNat_lt, toNat_count hsmall.sourceFiles]
    exact hi
  have h := ((((Writes.foldl fun s hs =>
      writes_section (hnames.sections s hs) (hwf.alignment s hs) (hwf.memory s hs)).comp
    (Writes.foldl fun s hs => writes_symbol (hnames.symbols s hs)
      ((hwf.symbols s hs).imp id hsection))).comp
    (Writes.foldl fun r hr => by
      obtain ⟨hsymbol, s, hs, hfit⟩ := hwf.relocations r hr
      exact writes_relocation (toNat_count hsmall.sections)
        (by rw [toNat_count hsmall.symbols]; exact hsymbol) hs hfit)).comp
    (Writes.foldl fun d hd => writes_debug (hsection (hwf.debugInfo d hd).1)
      (hsource (hwf.debugInfo d hd).2))).comp
    (Writes.foldl fun f hf => writes_source (hnames.sourceFiles f hf))
  obtain ⟨_, hbytes, _, _, rfl, ⟨_, _, rfl, ⟨_, _, rfl, ⟨_, _, rfl, ⟨sections, rfl, hsections⟩,
    symbols, rfl, hsymbols⟩, relocations, rfl, hrelocations⟩, debugInfo, rfl, hdebug⟩, sources, rfl,
    hsources⟩ := h.tables {} (writeTables o).strings.bytes (writeTables o).blob.bytes
      StringTable.sound_empty (List.prefix_refl _) hslen (List.prefix_refl _) hblen
  refine ⟨⟨sections, symbols, relocations, debugInfo, sources,
    RecordTable.mapM_eq_ok_iff.mpr hsections, hsymbols,
    RecordTable.mapM_eq_ok_iff.mpr hrelocations, RecordTable.mapM_eq_ok_iff.mpr hdebug,
    RecordTable.mapM_eq_ok_iff.mpr hsources⟩, ?_⟩
  rw [show (writeTables o).tables.bytes = _ from hbytes, Tables.toBytes, List.nil_append]
  simp only [List.append_assoc]

/-- The records of the five tables, read at the places the header gives. -/
theorem tablesOf_written {o : ObjectFile} (hversion : o.version = kObjectVersion)
    (hsmall : o.Small) {trailer : Trailer} {stringTable blob buffer rest : List UInt8}
    (t : Tables o stringTable blob) (hbuffer : buffer.drop kHeaderSize = t.toBytes ++ rest) :
    tablesOf (headerOf o trailer) stringTable blob buffer = .ok o := by
  have hlen1 := (RecordTable.mapM_eq_ok_iff.mp t.sections_eq).length_eq
  have hlen2 := t.symbols_eq.length_eq
  have hlen3 := (RecordTable.mapM_eq_ok_iff.mp t.relocations_eq).length_eq
  have hlen4 := (RecordTable.mapM_eq_ok_iff.mp t.debugInfo_eq).length_eq
  have hlen5 := (RecordTable.mapM_eq_ok_iff.mp t.sources_eq).length_eq
  have hsectionCount : (headerOf o trailer).sectionCount.toNat = t.sections.length :=
    (toNat_count hsmall.sections).trans hlen1.symm
  have hsymbolCount : (headerOf o trailer).symbolCount.toNat = t.symbols.length :=
    (toNat_count hsmall.symbols).trans hlen2.symm
  have hrelocationCount : (headerOf o trailer).relocationCount.toNat = t.relocations.length :=
    (toNat_count hsmall.relocations).trans hlen3.symm
  have hdebugCount : (headerOf o trailer).debugCount.toNat = t.debugInfo.length :=
    (toNat_count hsmall.debugInfo).trans hlen4.symm
  have hsourceCount : (headerOf o trailer).sourceCount.toNat = t.sources.length :=
    (toNat_count hsmall.sourceFiles).trans hlen5.symm
  simp only [Tables.toBytes, List.append_assoc] at hbuffer
  have hsym : buffer.drop (headerOf o trailer).symbolsAt
      = t.symbols.flatMap SymbolRecord.toBytes ++ (t.relocations.flatMap RelocationRecord.toBytes
        ++ (t.debugInfo.flatMap DebugEntry.toBytes
          ++ (t.sources.flatMap sourceToBytes ++ rest))) := by
    rw [Header.symbolsAt, ← List.drop_drop, hbuffer, hsectionCount]
    exact List.drop_left' (RecordTable.length_flatMap SectionRecord.length_toBytes _)
  have hrel : buffer.drop (headerOf o trailer).relocationsAt
      = t.relocations.flatMap RelocationRecord.toBytes ++ (t.debugInfo.flatMap DebugEntry.toBytes
        ++ (t.sources.flatMap sourceToBytes ++ rest)) := by
    rw [Header.relocationsAt, ← List.drop_drop, hsym, hsymbolCount]
    exact List.drop_left' (RecordTable.length_flatMap SymbolRecord.length_toBytes _)
  have hdbg : buffer.drop (headerOf o trailer).debugAt = t.debugInfo.flatMap DebugEntry.toBytes
      ++ (t.sources.flatMap sourceToBytes ++ rest) := by
    rw [Header.debugAt, ← List.drop_drop, hrel, hrelocationCount]
    exact List.drop_left' (RecordTable.length_flatMap RelocationRecord.length_toBytes _)
  have hsrc : buffer.drop (headerOf o trailer).sourcesAt
      = t.sources.flatMap sourceToBytes ++ rest := by
    rw [Header.sourcesAt, ← List.drop_drop, hdbg, hdebugCount]
    exact List.drop_left' (RecordTable.length_flatMap DebugEntry.length_toBytes _)
  have hsymbols := foldlM_accept t.symbols_eq SymbolTable.empty o.symbols.nodup
  rw [tablesOf, hbuffer, hsym, hrel, hdbg, hsrc, hsectionCount, hsymbolCount, hrelocationCount,
    hdebugCount, hsourceCount, RecordTable.records_flatMap SectionRecord.length_toBytes
      SectionRecord.ofBytes_toBytes, t.sections_eq, ok_bind,
    RecordTable.records_flatMap SymbolRecord.length_toBytes SymbolRecord.ofBytes_toBytes]
  simp only [headerOf]
  rw [hsymbols, ok_bind,
    RecordTable.records_flatMap RelocationRecord.length_toBytes RelocationRecord.ofBytes_toBytes,
    t.relocations_eq, ok_bind,
    RecordTable.records_flatMap DebugEntry.length_toBytes DebugEntry.ofBytes_toBytes,
    t.debugInfo_eq, ok_bind,
    RecordTable.records_flatMap length_sourceToBytes sourceOfBytes_toBytes, t.sources_eq, ok_bind,
    ← hversion]
  rfl

section

variable {o : ObjectFile} {tables strings blob : List UInt8}

theorem file_eq : file (writeHeader o).bytes tables strings blob = kObjectMagic ++
    ((headerOf o (Trailer.of tables strings blob)).toBytes ++ (tables ++ (strings ++ blob))) := by
  rw [file, ← List.append_assoc, writeHeader_append, List.append_assoc]

theorem magic_file : (file (writeHeader o).bytes tables strings blob).take 4 = kObjectMagic := by
  rw [file_eq]
  exact List.take_left' (by decide)

theorem headerAt_file : headerAt (file (writeHeader o).bytes tables strings blob)
    = headerOf o (Trailer.of tables strings blob) := by
  rw [headerAt, file_eq, List.drop_left' (by decide), Header.ofBytes_toBytes]

end

/-- The tables of a written file end where its header says. -/
theorem tablesEnd_headerOf {o : ObjectFile} (hsmall : o.Small) (trailer : Trailer) :
    (headerOf o trailer).tablesEnd = kHeaderSize + (writeTables o).tables.bytes.length := by
  have htables : (writeTables o).tables.bytes.length = _ := size_writeTables o
  simp only [Header.tablesEnd, Header.sourcesAt, Header.debugAt, Header.relocationsAt,
    Header.symbolsAt, headerOf, SymbolTable.size, toNat_count hsmall.sections,
    toNat_count hsmall.symbols, toNat_count hsmall.relocations, toNat_count hsmall.debugInfo,
    toNat_count hsmall.sourceFiles]
  rw [htables]
  ring

/-- The reader accepts a file with the header of `o`, once its tables read as the entries. -/
theorem read_file {o : ObjectFile} {tables strings blob : List UInt8}
    (hsize : kHeaderSize + tables.length + strings.length + blob.length < 2 ^ 32)
    (hend : (headerOf o (Trailer.of tables strings blob)).tablesEnd = kHeaderSize + tables.length)
    (htables : tablesOf (headerOf o (Trailer.of tables strings blob)) strings blob
      (file (writeHeader o).bytes tables strings blob) = .ok o) :
    readObjectFromBuffer (file (writeHeader o).bytes tables strings blob) = .ok o := by
  have hhead := length_writeHeader o
  have hlen : kHeaderSize ≤ (file (writeHeader o).bytes tables strings blob).length := by
    rw [length_file hhead]
    omega
  have hheaderSize : (headerOf o (Trailer.of tables strings blob)).headerSize.toNat = kHeaderSize :=
    rfl
  have hcheck : checkHeader (file (writeHeader o).bytes tables strings blob)
      (headerOf o (Trailer.of tables strings blob)) = .ok () := by
    rw [checkHeader, reject_of_not (by simp [headerOf]), ok_bind,
      reject_of_not (not_not.mpr hheaderSize), ok_bind]
    simp only []
    rw [reject_of_not (by simp [headerOf]), ok_bind]
    exact checkContents_file "object" hhead hsize
  have hextents : extents "object" (file (writeHeader o).bytes tables strings blob)
      (headerOf o (Trailer.of tables strings blob)).trailer
      (headerOf o (Trailer.of tables strings blob)).tablesEnd = .ok (strings, blob) := by
    rw [hend]
    exact extents_file "object" hhead hsize
  rw [readObjectFromBuffer_eq hlen, magic_file, reject_of_not (not_not.mpr rfl), ok_bind,
    headerAt_file]
  simp only [hcheck, ok_bind, contentsOf, hextents]
  exact htables

/-- Reading a written well-formed object gives it back. -/
theorem readObject_writeObject {o : ObjectFile} (hwf : o.WellFormed) (hnames : o.NulFreeNames)
    {b : List UInt8} (hwrite : writeObjectToBuffer o = .ok b) : readObjectFromBuffer b = .ok o := by
  obtain ⟨_, _, hseal⟩ := bind_eq_ok.mp hwrite
  obtain ⟨hsize, rfl⟩ := (sealFile_eq_ok (length_writeHeader o)).mp hseal
  simp only [Writer.size] at hsize
  -- A file below 4 GiB has few records.
  have htables : (writeTables o).tables.bytes.length = o.sections.length * 48
    + o.symbols.symbols.length * 32 + o.relocations.length * 32 + o.debugInfo.length * 24
    + o.sourceFiles.length * 4 := size_writeTables o
  have hsmall : o.Small := ⟨by omega, by omega, by omega, by omega, by omega⟩
  obtain ⟨t, hbytes⟩ := written_tables hwf hnames hsmall (by omega) (by omega)
  exact read_file hsize (tablesEnd_headerOf hsmall _) (tablesOf_written hwf.version hsmall t
    (by rw [drop_file (length_writeHeader o), hbytes]))

end Object
end MiniTool
