import MiniToolchain.Common.Container
import MiniToolchain.Executable.Executable

/-!
# Executable files

The `.mexe` serialiser: a header, tables of segments, symbols, debug entries and source files, a
string table and a blob with the data of the segments.

## Main definitions

* `writeExecutableToBuffer`, `readExecutableFromBuffer`.

## Main results

* `readExecutableFromBuffer_eq` — the reader as header checks, layout checks, a check of every
  record of every table, and the final validation.
* `executable_round_trip` — reading a written executable gives it back.
-/

namespace MiniTool
namespace Executable

open ByteOrder Binary Checked

def kExeMagic : List UInt8 := str "MEXE"

abbrev kSegmentRecordSize : ℕ := 40
abbrev kSymbolRecordSize : ℕ := 24
abbrev kDebugRecordSize : ℕ := 24
abbrev kSourceRecordSize : ℕ := 4

/-! ### Writing -/

def writeSegment (out : Output) (segment : Segment) : Output :=
  let dataOffset := out.blob.size
  let blob := out.blob.raw segment.data
  let (nameOffset, strings) := out.strings.intern segment.name
  let tables := out.tables.u32v nameOffset
  let tables := tables.u8v segment.type.value
  let tables := tables.u8v segment.flags
  let tables := tables.pad 2
  let tables := tables.u64v segment.virtualAddress
  let tables := tables.u64v segment.virtualSize
  let tables := tables.u64v (UInt64.ofNat dataOffset)
  let tables := tables.u64v (UInt64.ofNat segment.data.length)
  { strings, tables, blob }

def writeSymbol (out : Output) (symbol : SymbolEntry) : Output :=
  let (nameOffset, strings) := out.strings.intern symbol.name
  let tables := out.tables.u32v nameOffset
  let tables := tables.u8v symbol.kind.value
  let tables := tables.pad 3
  let tables := tables.u64v symbol.address
  let tables := tables.u64v symbol.size
  { out with strings, tables }

def writeDebugEntry (out : Output) (entry : DebugEntry) : Output :=
  let tables := out.tables.u64v entry.address
  let tables := tables.u32v entry.file
  let tables := tables.u32v entry.line
  let tables := tables.u32v entry.column
  let tables := tables.pad 4
  { out with tables }

def writeSourceFile (out : Output) (file : Str) : Output :=
  let (nameOffset, strings) := out.strings.intern file
  { out with strings, tables := out.tables.u32v nameOffset }

/-- The header fields before the patched ones. -/
def writeHeader (executable : Executable) : Writer :=
  let header : Writer := {}
  let header := header.raw kExeMagic
  let header := header.u16v kExeVersion
  let header := header.u16v (UInt16.ofNat kHeaderSize)
  let header := header.u64v executable.entryPoint
  let header := header.u32v (UInt32.ofNat executable.segments.length)
  let header := header.u32v (UInt32.ofNat executable.symbols.length)
  let header := header.u32v (UInt32.ofNat executable.debugInfo.length)
  header.u32v (UInt32.ofNat executable.sourceFiles.length)

/-- The four writer loops. -/
def writeTables (executable : Executable) : Output :=
  let out := executable.segments.foldl writeSegment {}
  let out := executable.symbols.foldl writeSymbol out
  let out := executable.debugInfo.foldl writeDebugEntry out
  executable.sourceFiles.foldl writeSourceFile out

def writeExecutableToBuffer (executable : Executable) : Except String (List UInt8) := do
  -- Never write an image the loader would refuse.
  match validate executable with
  | .error message => throw s!"refusing to write an invalid executable: {message}"
  | .ok () =>
    let header := (writeHeader executable).unpatched
    let out := writeTables executable
    sealFile "executable exceeds the 4 GiB file size limit" header out.tables out.strings.bytes
      out.blob

/-! ### Reading -/

/-- The fields of the header after the magic number. -/
structure Header where
  version : UInt16
  headerSize : UInt16
  entryPoint : UInt64
  segmentCount : UInt32
  symbolCount : UInt32
  debugCount : UInt32
  sourceCount : UInt32
  trailer : Trailer
  deriving DecidableEq

def Header.read : Read Header := do
  let version ← Reader.u16v
  let headerSize ← Reader.u16v
  let entryPoint ← Reader.u64v
  let segmentCount ← Reader.u32v
  let symbolCount ← Reader.u32v
  let debugCount ← Reader.u32v
  let sourceCount ← Reader.u32v
  let trailer ← Trailer.read
  return { version, headerSize, entryPoint, segmentCount, symbolCount, debugCount, sourceCount,
           trailer }

/-- Where each table starts, and where the last one ends. -/
def Header.symbolsAt (h : Header) : ℕ := kHeaderSize + h.segmentCount.toNat * kSegmentRecordSize
def Header.debugAt (h : Header) : ℕ := h.symbolsAt + h.symbolCount.toNat * kSymbolRecordSize
def Header.sourcesAt (h : Header) : ℕ := h.debugAt + h.debugCount.toNat * kDebugRecordSize
def Header.tablesEnd (h : Header) : ℕ := h.sourcesAt + h.sourceCount.toNat * kSourceRecordSize

/-- Reads the header of a buffer that is long enough to have one. -/
def readHeader (buffer : List UInt8) : Except String Header := do
  let (magic, reader) ← Reader.raw 4 { data := buffer }
  reject (magic ≠ kExeMagic) "not an executable: bad magic"
  let (header, _) ← Reader.orError "truncated executable header" Header.read reader
  return header

def checkHeader (buffer : List UInt8) (header : Header) : Except String Unit := do
  reject (header.version ≠ kExeVersion)
    s!"unsupported executable version {header.version} (this build understands {kExeVersion})"
  reject (header.headerSize.toNat ≠ kHeaderSize)
    s!"unsupported executable header size {header.headerSize}"
  checkContents "executable" buffer header.trailer

/-- The fields of a segment record. -/
structure SegmentRecord where
  nameOffset : UInt32
  type : UInt8
  flags : UInt8
  virtualAddress : UInt64
  virtualSize : UInt64
  dataOffset : UInt64
  dataSize : UInt64

def SegmentRecord.read : Read SegmentRecord := Reader.orError "truncated segment table" do
  let nameOffset ← Reader.u32v
  let type ← Reader.u8v
  let flags ← Reader.u8v
  Reader.skip 2
  let virtualAddress ← Reader.u64v
  let virtualSize ← Reader.u64v
  let dataOffset ← Reader.u64v
  let dataSize ← Reader.u64v
  return { nameOffset, type, flags, virtualAddress, virtualSize, dataOffset, dataSize }

def SegmentRecord.check (stringTable blob : List UInt8) (fields : SegmentRecord) :
    Except String Segment := do
  reject (!isValidSegmentType fields.type) s!"invalid segment type {fields.type}"
  let start := fields.dataOffset
  let stop := fields.dataOffset + fields.dataSize
  reject (start.toNat > blob.length ∨ fields.dataSize.toNat > blob.length - start.toNat)
    s!"segment data range [{start}, {stop}) is outside the {blob.length}-byte image"
  let name ← readString stringTable fields.nameOffset
  return {
    name
    type := SegmentType.ofValue fields.type
    flags := fields.flags
    virtualAddress := fields.virtualAddress
    virtualSize := fields.virtualSize
    data := (blob.drop fields.dataOffset.toNat).take fields.dataSize.toNat }

/-- The fields of a symbol record. -/
structure SymbolRecord where
  nameOffset : UInt32
  kind : UInt8
  address : UInt64
  size : UInt64

def SymbolRecord.read : Read SymbolRecord :=
  Reader.orError "truncated executable symbol table" do
    let nameOffset ← Reader.u32v
    let kind ← Reader.u8v
    Reader.skip 3
    let address ← Reader.u64v
    let size ← Reader.u64v
    return { nameOffset, kind, address, size }

def SymbolRecord.check (stringTable : List UInt8) (fields : SymbolRecord) :
    Except String SymbolEntry := do
  reject (fields.kind > SymbolKind.object.value) s!"invalid symbol kind {fields.kind}"
  let name ← readString stringTable fields.nameOffset
  return { name, address := fields.address, size := fields.size,
           kind := SymbolKind.ofValue fields.kind }

def DebugEntry.read : Read DebugEntry := Reader.orError "truncated debug table" do
  let address ← Reader.u64v
  let file ← Reader.u32v
  let line ← Reader.u32v
  let column ← Reader.u32v
  Reader.skip 4
  return { address, file, line, column }

def DebugEntry.check (sourceCount : UInt32) (entry : DebugEntry) : Except String DebugEntry := do
  reject (entry.file ≥ sourceCount) s!"debug entry names source file {entry.file} of {sourceCount}"
  return entry

def readSourceRecord : Read UInt32 := Reader.orError "truncated source file table" Reader.u32v

/-- The four record loops. -/
def readTables (header : Header) (stringTable blob : List UInt8) : Read Executable := do
  let segments ← Reader.tableAt kHeaderSize SegmentRecord.read
    (SegmentRecord.check stringTable blob) header.segmentCount.toNat
  let symbols ← Reader.tableAt header.symbolsAt SymbolRecord.read
    (SymbolRecord.check stringTable) header.symbolCount.toNat
  let debugInfo ← Reader.tableAt header.debugAt DebugEntry.read
    (DebugEntry.check header.sourceCount) header.debugCount.toNat
  let sourceFiles ← Reader.tableAt header.sourcesAt readSourceRecord
    (readString stringTable) header.sourceCount.toNat
  return { version := header.version, entryPoint := header.entryPoint, segments, symbols,
           debugInfo, sourceFiles }

def readExecutableFromBuffer (buffer : List UInt8) : Except String Executable := do
  let size := buffer.length
  reject (size < kHeaderSize)
    s!"not an executable: {size} bytes is shorter than the {kHeaderSize}-byte header"
  let header ← readHeader buffer
  checkHeader buffer header
  let (stringTable, blob) ← extents "executable" buffer header.trailer header.tablesEnd
  let executable ← (readTables header stringTable blob).run' { data := buffer }
  -- The image has to be loadable, too.
  validate executable
  return executable

/-! ### The bytes of a record -/

def SegmentRecord.toBytes (fields : SegmentRecord) : List UInt8 :=
  littleEndian 4 fields.nameOffset.toUInt64 ++ (fields.type :: fields.flags :: 0 :: 0 ::
    (littleEndian 8 fields.virtualAddress ++ (littleEndian 8 fields.virtualSize ++
      (littleEndian 8 fields.dataOffset ++ littleEndian 8 fields.dataSize))))

def SegmentRecord.ofBytes (bytes : List UInt8) : SegmentRecord where
  nameOffset := (load 4 bytes).toUInt32
  type := (bytes.drop 4).headD 0
  flags := (bytes.drop 5).headD 0
  virtualAddress := load 8 (bytes.drop 8)
  virtualSize := load 8 (bytes.drop 16)
  dataOffset := load 8 (bytes.drop 24)
  dataSize := load 8 (bytes.drop 32)

def SymbolRecord.toBytes (fields : SymbolRecord) : List UInt8 :=
  littleEndian 4 fields.nameOffset.toUInt64 ++ (fields.kind :: 0 :: 0 :: 0 ::
    (littleEndian 8 fields.address ++ littleEndian 8 fields.size))

def SymbolRecord.ofBytes (bytes : List UInt8) : SymbolRecord where
  nameOffset := (load 4 bytes).toUInt32
  kind := (bytes.drop 4).headD 0
  address := load 8 (bytes.drop 8)
  size := load 8 (bytes.drop 16)

def DebugEntry.toBytes (entry : DebugEntry) : List UInt8 :=
  littleEndian 8 entry.address ++ (littleEndian 4 entry.file.toUInt64 ++
    (littleEndian 4 entry.line.toUInt64 ++ (littleEndian 4 entry.column.toUInt64 ++ [0, 0, 0, 0])))

def DebugEntry.ofBytes (bytes : List UInt8) : DebugEntry where
  address := load 8 bytes
  file := (load 4 (bytes.drop 8)).toUInt32
  line := (load 4 (bytes.drop 12)).toUInt32
  column := (load 4 (bytes.drop 16)).toUInt32

def sourceToBytes (nameOffset : UInt32) : List UInt8 := littleEndian 4 nameOffset.toUInt64

def sourceOfBytes (bytes : List UInt8) : UInt32 := (load 4 bytes).toUInt32

def Header.toBytes (h : Header) : List UInt8 :=
  littleEndian 2 h.version.toUInt64 ++ (littleEndian 2 h.headerSize.toUInt64 ++
    (littleEndian 8 h.entryPoint ++ (littleEndian 4 h.segmentCount.toUInt64 ++
      (littleEndian 4 h.symbolCount.toUInt64 ++ (littleEndian 4 h.debugCount.toUInt64 ++
        (littleEndian 4 h.sourceCount.toUInt64 ++ h.trailer.toBytes))))))

def Header.ofBytes (bytes : List UInt8) : Header where
  version := (load 2 bytes).toUInt16
  headerSize := (load 2 (bytes.drop 2)).toUInt16
  entryPoint := load 8 (bytes.drop 4)
  segmentCount := (load 4 (bytes.drop 12)).toUInt32
  symbolCount := (load 4 (bytes.drop 16)).toUInt32
  debugCount := (load 4 (bytes.drop 20)).toUInt32
  sourceCount := (load 4 (bytes.drop 24)).toUInt32
  trailer := Trailer.ofBytes (bytes.drop 28)

section

open Reader

theorem SegmentRecord.read_fixedWidth :
    FixedWidth SegmentRecord.read kSegmentRecordSize SegmentRecord.ofBytes := by
  have h := (FixedWidth.u32v.bind fun nameOffset => FixedWidth.u8v.bind fun type =>
    FixedWidth.u8v.bind fun flags => (FixedWidth.skip 2).bind fun _ =>
    FixedWidth.u64v.bind fun virtualAddress => FixedWidth.u64v.bind fun virtualSize =>
    FixedWidth.u64v.bind fun dataOffset => FixedWidth.u64v.bind fun dataSize =>
    FixedWidth.pure (SegmentRecord.mk nameOffset type flags virtualAddress virtualSize dataOffset
      dataSize)).orError "truncated segment table"
  simp only [List.drop_drop] at h
  exact h

theorem SymbolRecord.read_fixedWidth :
    FixedWidth SymbolRecord.read kSymbolRecordSize SymbolRecord.ofBytes := by
  have h := (FixedWidth.u32v.bind fun nameOffset => FixedWidth.u8v.bind fun kind =>
    (FixedWidth.skip 3).bind fun _ => FixedWidth.u64v.bind fun address =>
    FixedWidth.u64v.bind fun size =>
    FixedWidth.pure (SymbolRecord.mk nameOffset kind address size)).orError
      "truncated executable symbol table"
  simp only [List.drop_drop] at h
  exact h

theorem DebugEntry.read_fixedWidth :
    FixedWidth DebugEntry.read kDebugRecordSize DebugEntry.ofBytes := by
  have h := (FixedWidth.u64v.bind fun address => FixedWidth.u32v.bind fun file =>
    FixedWidth.u32v.bind fun line => FixedWidth.u32v.bind fun column =>
    (FixedWidth.skip 4).bind fun _ =>
    FixedWidth.pure (DebugEntry.mk address file line column)).orError "truncated debug table"
  simp only [List.drop_drop] at h
  exact h

theorem readSourceRecord_fixedWidth :
    FixedWidth readSourceRecord kSourceRecordSize sourceOfBytes :=
  FixedWidth.u32v.orError _

theorem Header.read_fixedWidth : FixedWidth Header.read 60 Header.ofBytes := by
  have h := FixedWidth.u16v.bind fun version => FixedWidth.u16v.bind fun headerSize =>
    FixedWidth.u64v.bind fun entryPoint => FixedWidth.u32v.bind fun segmentCount =>
    FixedWidth.u32v.bind fun symbolCount => FixedWidth.u32v.bind fun debugCount =>
    FixedWidth.u32v.bind fun sourceCount => Trailer.read_fixedWidth.bind fun trailer =>
    FixedWidth.pure (Header.mk version headerSize entryPoint segmentCount symbolCount debugCount
      sourceCount trailer)
  simp only [List.drop_drop] at h
  exact h

end

theorem SegmentRecord.ofBytes_toBytes (fields : SegmentRecord) (rest : List UInt8) :
    SegmentRecord.ofBytes (fields.toBytes ++ rest) = fields := by
  simp [ofBytes, toBytes]

theorem SymbolRecord.ofBytes_toBytes (fields : SymbolRecord) (rest : List UInt8) :
    SymbolRecord.ofBytes (fields.toBytes ++ rest) = fields := by
  simp [ofBytes, toBytes]

theorem DebugEntry.ofBytes_toBytes (entry : DebugEntry) (rest : List UInt8) :
    DebugEntry.ofBytes (entry.toBytes ++ rest) = entry := by
  simp [ofBytes, toBytes]

theorem sourceOfBytes_toBytes (nameOffset : UInt32) (rest : List UInt8) :
    sourceOfBytes (sourceToBytes nameOffset ++ rest) = nameOffset := by
  simp [sourceOfBytes, sourceToBytes]

theorem Header.ofBytes_toBytes (h : Header) (rest : List UInt8) :
    Header.ofBytes (h.toBytes ++ rest) = h := by
  simp [ofBytes, toBytes, Trailer.ofBytes_toBytes]

/-! ### What the reader computes -/

/-- The tables of a buffer, decoded and checked record by record. -/
def tablesOf (header : Header) (stringTable blob buffer : List UInt8) :
    Except String Executable := do
  let segments ← (RecordTable.records kSegmentRecordSize SegmentRecord.ofBytes
    header.segmentCount.toNat (buffer.drop kHeaderSize)).mapM (SegmentRecord.check stringTable blob)
  let symbols ← (RecordTable.records kSymbolRecordSize SymbolRecord.ofBytes
    header.symbolCount.toNat (buffer.drop header.symbolsAt)).mapM (SymbolRecord.check stringTable)
  let debugInfo ← (RecordTable.records kDebugRecordSize DebugEntry.ofBytes
    header.debugCount.toNat (buffer.drop header.debugAt)).mapM (DebugEntry.check header.sourceCount)
  let sourceFiles ← (RecordTable.records kSourceRecordSize sourceOfBytes
    header.sourceCount.toNat (buffer.drop header.sourcesAt)).mapM (readString stringTable)
  return { version := header.version, entryPoint := header.entryPoint, segments, symbols,
           debugInfo, sourceFiles }

/-- The layout check, the tables, and the final validation. -/
def contentsOf (header : Header) (buffer : List UInt8) : Except String Executable := do
  let (stringTable, blob) ← extents "executable" buffer header.trailer header.tablesEnd
  let executable ← tablesOf header stringTable blob buffer
  validate executable
  return executable

theorem readTables_yields {header : Header} {buffer : List UInt8}
    (hend : header.tablesEnd ≤ buffer.length) (stringTable blob : List UInt8) :
    Reader.Yields (readTables header stringTable blob) buffer
      (tablesOf header stringTable blob buffer) := by
  have hsymbols : header.symbolsAt ≤ header.debugAt := Nat.le_add_right _ _
  have hdebug : header.debugAt ≤ header.sourcesAt := Nat.le_add_right _ _
  have hsources : header.sourcesAt ≤ header.tablesEnd := Nat.le_add_right _ _
  refine (Reader.yields_tableAt SegmentRecord.read_fixedWidth _ ?_).bind fun _ =>
    (Reader.yields_tableAt SymbolRecord.read_fixedWidth _ ?_).bind fun _ =>
    (Reader.yields_tableAt DebugEntry.read_fixedWidth _ ?_).bind fun _ =>
    (Reader.yields_tableAt readSourceRecord_fixedWidth _ ?_).bind fun _ =>
    Reader.Yields.pure _ _
  · exact (hsymbols.trans hdebug).trans (hsources.trans hend)
  · exact hdebug.trans (hsources.trans hend)
  · exact hsources.trans hend
  · exact hend

/-- The header of a buffer. -/
def headerAt (b : List UInt8) : Header := Header.ofBytes (b.drop 4)

/-- The header of a buffer that is long enough to have one. -/
theorem readHeader_eq {buffer : List UInt8} (hlen : kHeaderSize ≤ buffer.length) :
    readHeader buffer = (do
      reject (buffer.take 4 ≠ kExeMagic) "not an executable: bad magic"
      return headerAt buffer) := by
  have hlen' : 64 ≤ buffer.length := hlen
  have hraw : Reader.raw 4 { data := buffer } = .ok (buffer.take 4, ⟨buffer, 4⟩) :=
    if_pos (Reader.has_iff.mpr (by simp only [Reader.rest, List.length_drop]; omega))
  have hread := (Header.read_fixedWidth.orError "truncated executable header").enough ⟨buffer, 4⟩
    (by simp only [Reader.rest, List.length_drop]; omega)
  rw [readHeader, hraw, ok_bind]
  simp only [hread]
  rfl

/-- The reader: header checks, layout checks, a check of every record, and the final validation. -/
theorem readExecutableFromBuffer_eq {buffer : List UInt8} (hlen : kHeaderSize ≤ buffer.length) :
    readExecutableFromBuffer buffer = (do
      reject (buffer.take 4 ≠ kExeMagic) "not an executable: bad magic"
      checkHeader buffer (headerAt buffer)
      contentsOf (headerAt buffer) buffer) := by
  unfold readExecutableFromBuffer
  simp only [reject_of_not (not_lt.mpr hlen), readHeader_eq hlen, ok_bind]
  generalize headerAt buffer = header
  generalize reject (buffer.take 4 ≠ kExeMagic) "not an executable: bad magic" = magic
  cases magic with
  | error e => rfl
  | ok u =>
  simp only [ok_bind, pure_eq_ok, contentsOf]
  congr 1
  funext _
  cases hextents : extents "executable" buffer header.trailer header.tablesEnd with
  | error e => rfl
  | ok regions =>
    have hend := le_of_extents_eq_ok hextents
    simp only [ok_bind, (readTables_yields hend regions.1 regions.2).run']

/-! ### Round trip -/

theorem writes_segment {x : Segment} (hname : NulFree x.name) :
    Writes (writeSegment · x) fun strings blob bytes => ∃ fields,
      bytes = SegmentRecord.toBytes fields ∧ SegmentRecord.check strings blob fields = .ok x where
  strings_grow := fun out => out.strings.bytes_prefix_intern x.name
  blob_grow := fun _ => List.prefix_append _ _
  sound := fun _ hsound hlen => StringTable.sound_intern hsound x.name hlen
  tables := fun out strings blob hsound hstrings hslen hblob hblen => by
    have hread := StringTable.intern_reads hsound hname hstrings hslen
    obtain ⟨after, hafter⟩ := hblob
    have hdata : blob = out.blob.bytes ++ (x.data ++ after) := by
      rw [← hafter, ← List.append_assoc]
      rfl
    have hblen' : out.blob.bytes.length + (x.data.length + after.length) < 2 ^ 32 := by
      simpa only [hdata, List.length_append] using hblen
    have hoffset : (UInt64.ofNat out.blob.bytes.length).toNat = out.blob.bytes.length := by
      rw [UInt64.toNat_ofNat', Nat.mod_eq_of_lt (by omega)]
    have hsize : (UInt64.ofNat x.data.length).toNat = x.data.length := by
      rw [UInt64.toNat_ofNat', Nat.mod_eq_of_lt (by omega)]
    refine ⟨_, ?_, ⟨(out.strings.intern x.name).1, x.type.value, x.flags, x.virtualAddress,
      x.virtualSize, UInt64.ofNat out.blob.bytes.length, UInt64.ofNat x.data.length⟩, rfl, ?_⟩
    · simp [writeSegment, SegmentRecord.toBytes, Writer.u32v, Writer.u8v, Writer.u64v, Writer.word,
        Writer.pad, Writer.size, List.replicate]
    · simp only [SegmentRecord.check, isValidSegmentType_value, hread, hoffset, hsize,
        SegmentType.ofValue_value]
      rw [reject_of_not (by simp), reject_of_not (by rw [hdata]; simp)]
      simp only [ok_bind, pure_eq_ok, hdata, List.drop_left, List.take_left]

theorem writes_symbol {x : SymbolEntry} (hname : NulFree x.name) :
    Writes (writeSymbol · x) fun strings _ bytes => ∃ fields, bytes = SymbolRecord.toBytes fields
      ∧ SymbolRecord.check strings fields = .ok x where
  strings_grow := fun out => out.strings.bytes_prefix_intern x.name
  blob_grow := fun _ => List.prefix_refl _
  sound := fun _ hsound hlen => StringTable.sound_intern hsound x.name hlen
  tables := fun out strings _ hsound hstrings hslen _ _ => by
    have hread := StringTable.intern_reads hsound hname hstrings hslen
    have hkind := SymbolKind.value_le_object x.kind
    refine ⟨_, ?_, ⟨(out.strings.intern x.name).1, x.kind.value, x.address, x.size⟩, rfl, ?_⟩
    · simp [writeSymbol, SymbolRecord.toBytes, Writer.u32v, Writer.u8v, Writer.u64v, Writer.word,
        Writer.pad, List.replicate]
    · simp only [SymbolRecord.check, hread, SymbolKind.ofValue_value]
      rw [reject_of_not (UInt8.not_lt.mpr hkind)]
      rfl

theorem writes_debug {sourceCount : UInt32} {x : DebugEntry} (hfile : x.file < sourceCount) :
    Writes (writeDebugEntry · x) fun _ _ bytes => ∃ fields, bytes = DebugEntry.toBytes fields
      ∧ DebugEntry.check sourceCount fields = .ok x where
  strings_grow := fun _ => List.prefix_refl _
  blob_grow := fun _ => List.prefix_refl _
  sound := fun _ hsound _ => hsound
  tables := fun out _ _ _ _ _ _ _ => by
    refine ⟨_, ?_, x, rfl, ?_⟩
    · simp [writeDebugEntry, DebugEntry.toBytes, Writer.u32v, Writer.u64v, Writer.word,
        Writer.pad, List.replicate]
    · rw [DebugEntry.check, reject_of_not (UInt32.not_le.mpr hfile)]
      rfl

theorem writes_source {x : Str} (hname : NulFree x) :
    Writes (writeSourceFile · x) fun strings _ bytes => ∃ nameOffset,
      bytes = sourceToBytes nameOffset ∧ readString strings nameOffset = .ok x where
  strings_grow := fun out => out.strings.bytes_prefix_intern x
  blob_grow := fun _ => List.prefix_refl _
  sound := fun _ hsound hlen => StringTable.sound_intern hsound x hlen
  tables := fun out _ _ hsound hstrings hslen _ _ =>
    ⟨_, rfl, (out.strings.intern x).1, rfl, StringTable.intern_reads hsound hname hstrings hslen⟩

/-- No name of the executable contains a zero byte. -/
structure NulFreeNames (e : Executable) : Prop where
  segments : ∀ s ∈ e.segments, NulFree s.name
  symbols : ∀ s ∈ e.symbols, NulFree s.name
  sourceFiles : ∀ f ∈ e.sourceFiles, NulFree f

theorem version_of_validate {e : Executable} (h : validate e = .ok ()) : e.version = kExeVersion :=
  (validate_eq_ok.mp h).version

theorem file_lt_of_validate {e : Executable} (h : validate e = .ok ()) :
    ∀ entry ∈ e.debugInfo, entry.file.toNat < e.sourceFiles.length :=
  (validate_eq_ok.mp h).files

theorem length_writeHeader (e : Executable) : (writeHeader e).bytes.length = 32 := by
  simp [writeHeader, Writer.raw, Writer.u16v, Writer.u32v, Writer.u64v, Writer.word, kExeMagic, str]
  rfl

/-- The header a file starts with. -/
def headerOf (e : Executable) (trailer : Trailer) : Header where
  version := kExeVersion
  headerSize := UInt16.ofNat kHeaderSize
  entryPoint := e.entryPoint
  segmentCount := UInt32.ofNat e.segments.length
  symbolCount := UInt32.ofNat e.symbols.length
  debugCount := UInt32.ofNat e.debugInfo.length
  sourceCount := UInt32.ofNat e.sourceFiles.length
  trailer := trailer

theorem writeHeader_append (e : Executable) (trailer : Trailer) :
    (writeHeader e).bytes ++ trailer.toBytes = kExeMagic ++ (headerOf e trailer).toBytes := by
  simp [writeHeader, Header.toBytes, headerOf, Writer.raw, Writer.u16v, Writer.u32v, Writer.u64v,
    Writer.word]

/-- The tables of a written file: four tables whose records read as the entries. -/
theorem written_tables {e : Executable} (hnames : e.NulFreeNames)
    (hfiles : ∀ entry ∈ e.debugInfo, entry.file < UInt32.ofNat e.sourceFiles.length)
    (hslen : (writeTables e).strings.bytes.length < 2 ^ 32)
    (hblen : (writeTables e).blob.bytes.length < 2 ^ 32) :
    ∃ (segments : List SegmentRecord) (symbols : List SymbolRecord) (debugInfo : List DebugEntry)
      (sources : List UInt32), (writeTables e).tables.bytes = segments.flatMap SegmentRecord.toBytes
        ++ (symbols.flatMap SymbolRecord.toBytes ++ (debugInfo.flatMap DebugEntry.toBytes
          ++ sources.flatMap sourceToBytes)) ∧
      segments.mapM (SegmentRecord.check (writeTables e).strings.bytes
        (writeTables e).blob.bytes) = .ok e.segments ∧
      symbols.mapM (SymbolRecord.check (writeTables e).strings.bytes) = .ok e.symbols ∧
      debugInfo.mapM (DebugEntry.check (UInt32.ofNat e.sourceFiles.length)) = .ok e.debugInfo ∧
      sources.mapM (readString (writeTables e).strings.bytes) = .ok e.sourceFiles := by
  have h := (((Writes.foldl fun s hs => writes_segment (hnames.segments s hs)).comp
    (Writes.foldl fun s hs => writes_symbol (hnames.symbols s hs))).comp
    (Writes.foldl fun d hd => writes_debug (hfiles d hd))).comp
    (Writes.foldl fun f hf => writes_source (hnames.sourceFiles f hf))
  obtain ⟨_, hbytes, _, _, rfl, ⟨_, _, rfl, ⟨_, _, rfl, ⟨segments, rfl, hsegments⟩, symbols, rfl,
    hsymbols⟩, debugInfo, rfl, hdebug⟩, sources, rfl, hsources⟩ :=
    h.tables {} (writeTables e).strings.bytes (writeTables e).blob.bytes StringTable.sound_empty
      (List.prefix_refl _) hslen (List.prefix_refl _) hblen
  refine ⟨segments, symbols, debugInfo, sources, ?_, RecordTable.mapM_eq_ok_iff.mpr hsegments,
    RecordTable.mapM_eq_ok_iff.mpr hsymbols, RecordTable.mapM_eq_ok_iff.mpr hdebug,
    RecordTable.mapM_eq_ok_iff.mpr hsources⟩
  rw [show (writeTables e).tables.bytes = _ from hbytes, List.nil_append, List.append_assoc,
    List.append_assoc]

@[simp] theorem SegmentRecord.length_toBytes (fields : SegmentRecord) :
    fields.toBytes.length = kSegmentRecordSize := by simp [toBytes]

@[simp] theorem SymbolRecord.length_toBytes (fields : SymbolRecord) :
    fields.toBytes.length = kSymbolRecordSize := by simp [toBytes]

@[simp] theorem DebugEntry.length_toBytes (entry : DebugEntry) :
    entry.toBytes.length = kDebugRecordSize := by simp [toBytes]

@[simp] theorem length_sourceToBytes (nameOffset : UInt32) :
    (sourceToBytes nameOffset).length = kSourceRecordSize := by simp [sourceToBytes]

/-- The records of the four tables, read at the places the header gives. -/
theorem tablesOf_written {e : Executable} (hversion : e.version = kExeVersion) {trailer : Trailer}
    {segments : List SegmentRecord} {symbols : List SymbolRecord} {debugInfo : List DebugEntry}
    {sources : List UInt32} {stringTable blob buffer rest : List UInt8}
    (hbuffer : buffer.drop kHeaderSize = segments.flatMap SegmentRecord.toBytes
      ++ (symbols.flatMap SymbolRecord.toBytes ++ (debugInfo.flatMap DebugEntry.toBytes
        ++ (sources.flatMap sourceToBytes ++ rest))))
    (hsegments : segments.mapM (SegmentRecord.check stringTable blob) = .ok e.segments)
    (hsymbols : symbols.mapM (SymbolRecord.check stringTable) = .ok e.symbols)
    (hdebug : debugInfo.mapM (DebugEntry.check (UInt32.ofNat e.sourceFiles.length))
      = .ok e.debugInfo)
    (hsources : sources.mapM (readString stringTable) = .ok e.sourceFiles)
    (hsegmentCount : e.segments.length < 2 ^ 32) (hsymbolCount : e.symbols.length < 2 ^ 32)
    (hdebugCount : e.debugInfo.length < 2 ^ 32) (hsourceCount : e.sourceFiles.length < 2 ^ 32) :
    tablesOf (headerOf e trailer) stringTable blob buffer = .ok e := by
  have hlen1 := (RecordTable.mapM_eq_ok_iff.mp hsegments).length_eq
  have hlen2 := (RecordTable.mapM_eq_ok_iff.mp hsymbols).length_eq
  have hlen3 := (RecordTable.mapM_eq_ok_iff.mp hdebug).length_eq
  have hlen4 := (RecordTable.mapM_eq_ok_iff.mp hsources).length_eq
  have hcount : ∀ n : ℕ, n < 2 ^ 32 → (UInt32.ofNat n).toNat = n := fun n hn =>
    UInt32.toNat_ofNat'.trans (Nat.mod_eq_of_lt hn)
  have hsym : buffer.drop (headerOf e trailer).symbolsAt = symbols.flatMap SymbolRecord.toBytes
      ++ (debugInfo.flatMap DebugEntry.toBytes ++ (sources.flatMap sourceToBytes ++ rest)) := by
    rw [Header.symbolsAt, ← List.drop_drop, hbuffer, headerOf, hcount _ hsegmentCount, ← hlen1]
    exact List.drop_left' (RecordTable.length_flatMap SegmentRecord.length_toBytes _)
  have hdbg : buffer.drop (headerOf e trailer).debugAt = debugInfo.flatMap DebugEntry.toBytes
      ++ (sources.flatMap sourceToBytes ++ rest) := by
    rw [Header.debugAt, ← List.drop_drop, hsym, headerOf, hcount _ hsymbolCount, ← hlen2]
    exact List.drop_left' (RecordTable.length_flatMap SymbolRecord.length_toBytes _)
  have hsrc : buffer.drop (headerOf e trailer).sourcesAt
      = sources.flatMap sourceToBytes ++ rest := by
    rw [Header.sourcesAt, ← List.drop_drop, hdbg, headerOf, hcount _ hdebugCount, ← hlen3]
    exact List.drop_left' (RecordTable.length_flatMap DebugEntry.length_toBytes _)
  rw [tablesOf, hbuffer, hsym, hdbg, hsrc]
  simp only [headerOf, hcount _ hsegmentCount, hcount _ hsymbolCount, hcount _ hdebugCount,
    hcount _ hsourceCount]
  rw [← hlen1, RecordTable.records_flatMap SegmentRecord.length_toBytes
      SegmentRecord.ofBytes_toBytes, hsegments, ok_bind,
    ← hlen2, RecordTable.records_flatMap SymbolRecord.length_toBytes SymbolRecord.ofBytes_toBytes,
    hsymbols, ok_bind,
    ← hlen3, RecordTable.records_flatMap DebugEntry.length_toBytes DebugEntry.ofBytes_toBytes,
    hdebug, ok_bind,
    ← hlen4, RecordTable.records_flatMap length_sourceToBytes sourceOfBytes_toBytes, hsources,
    ok_bind, ← hversion]
  rfl

/-- The tables take a fixed number of bytes for each record. -/
theorem size_writeTables (e : Executable) : (writeTables e).tables.size
    = e.segments.length * kSegmentRecordSize + e.symbols.length * kSymbolRecordSize
      + e.debugInfo.length * kDebugRecordSize + e.sourceFiles.length * kSourceRecordSize := by
  have hsegment : ∀ out x, (writeSegment out x).tables.size = out.tables.size +
      kSegmentRecordSize :=
    fun out x => by
      simp [writeSegment, Writer.u32v, Writer.u8v, Writer.u64v, Writer.word,
        Writer.pad, Writer.size]
  have hsymbol : ∀ out x, (writeSymbol out x).tables.size = out.tables.size + kSymbolRecordSize :=
    fun out x => by
      simp [writeSymbol, Writer.u32v, Writer.u8v, Writer.u64v, Writer.word, Writer.pad, Writer.size]
  have hdebug : ∀ out x, (writeDebugEntry out x).tables.size = out.tables.size + kDebugRecordSize :=
    fun out x => by
      simp [writeDebugEntry, Writer.u32v, Writer.u64v, Writer.word, Writer.pad, Writer.size]
  have hsource : ∀ out x, (writeSourceFile out x).tables.size = out.tables.size +
      kSourceRecordSize :=
    fun out x => by simp [writeSourceFile, Writer.u32v, Writer.word, Writer.size]
  have hempty : ({} : Output).tables.size = 0 := rfl
  rw [writeTables, size_foldl hsource, size_foldl hdebug, size_foldl hsymbol, size_foldl hsegment,
    hempty]
  ring

section

variable {e : Executable} {tables strings blob : List UInt8}

theorem file_eq : file (writeHeader e).bytes tables strings blob = kExeMagic ++
    ((headerOf e (Trailer.of tables strings blob)).toBytes ++ (tables ++ (strings ++ blob))) := by
  rw [file, ← List.append_assoc, writeHeader_append, List.append_assoc]

theorem magic_file : (file (writeHeader e).bytes tables strings blob).take 4 = kExeMagic := by
  rw [file_eq]
  exact List.take_left' (by decide)

theorem headerAt_file : headerAt (file (writeHeader e).bytes tables strings blob)
    = headerOf e (Trailer.of tables strings blob) := by
  rw [headerAt, file_eq, List.drop_left' (by decide), Header.ofBytes_toBytes]

end

/-- The tables of a written file end where its header says. -/
theorem tablesEnd_headerOf {e : Executable}
    (hsize : (writeTables e).tables.bytes.length < 2 ^ 32) (trailer : Trailer) :
    (headerOf e trailer).tablesEnd = kHeaderSize + (writeTables e).tables.bytes.length := by
  -- A file below 4 GiB has few records, so no count wraps.
  have htables : (writeTables e).tables.bytes.length = e.segments.length * 40
    + e.symbols.length * 24 + e.debugInfo.length * 24 + e.sourceFiles.length * 4 :=
    size_writeTables e
  have hcount : ∀ n : ℕ, n < 2 ^ 32 → (UInt32.ofNat n).toNat = n := fun n hn =>
    UInt32.toNat_ofNat'.trans (Nat.mod_eq_of_lt hn)
  simp only [Header.tablesEnd, Header.sourcesAt, Header.debugAt, Header.symbolsAt, headerOf]
  rw [hcount _ (by omega), hcount _ (by omega), hcount _ (by omega), hcount _ (by omega), htables]
  ring

/-- The reader accepts a file with the header of `e`, once its tables read as the entries. -/
theorem read_file {e : Executable} (hvalid : validate e = .ok ()) {tables strings blob : List UInt8}
    (hsize : kHeaderSize + tables.length + strings.length + blob.length < 2 ^ 32)
    (hend : (headerOf e (Trailer.of tables strings blob)).tablesEnd = kHeaderSize + tables.length)
    (htables : tablesOf (headerOf e (Trailer.of tables strings blob)) strings blob
      (file (writeHeader e).bytes tables strings blob) = .ok e) :
    readExecutableFromBuffer (file (writeHeader e).bytes tables strings blob) = .ok e := by
  have hhead := length_writeHeader e
  have hlen : kHeaderSize ≤ (file (writeHeader e).bytes tables strings blob).length := by
    rw [length_file hhead]
    omega
  have hheaderSize : (headerOf e (Trailer.of tables strings blob)).headerSize.toNat = kHeaderSize :=
    rfl
  have hcheck : checkHeader (file (writeHeader e).bytes tables strings blob)
      (headerOf e (Trailer.of tables strings blob)) = .ok () := by
    rw [checkHeader, reject_of_not (by simp [headerOf]), ok_bind,
      reject_of_not (not_not.mpr hheaderSize), ok_bind]
    exact checkContents_file "executable" hhead hsize
  have hextents : extents "executable" (file (writeHeader e).bytes tables strings blob)
      (headerOf e (Trailer.of tables strings blob)).trailer
      (headerOf e (Trailer.of tables strings blob)).tablesEnd = .ok (strings, blob) := by
    rw [hend]
    exact extents_file "executable" hhead hsize
  rw [readExecutableFromBuffer_eq hlen, magic_file, reject_of_not (not_not.mpr rfl), ok_bind,
    headerAt_file]
  simp only [hcheck, ok_bind, contentsOf, hextents]
  simp only [htables, ok_bind, hvalid, pure_eq_ok]

/-- What the writer produces. -/
theorem writeExecutable_eq_ok {e : Executable} {b : List UInt8}
    (h : writeExecutableToBuffer e = .ok b) : validate e = .ok () ∧
      kHeaderSize + (writeTables e).tables.bytes.length + (writeTables e).strings.bytes.length
        + (writeTables e).blob.bytes.length < 2 ^ 32 ∧
      b = file (writeHeader e).bytes (writeTables e).tables.bytes (writeTables e).strings.bytes
        (writeTables e).blob.bytes := by
  unfold writeExecutableToBuffer at h
  cases hvalid : validate e with
  | error message =>
    rw [hvalid] at h
    cases h
  | ok u =>
    rw [hvalid] at h
    exact ⟨rfl, (sealFile_eq_ok (length_writeHeader e)).mp h⟩

/-- **Reading a written executable gives it back.** -/
theorem executable_round_trip {e : Executable} (hvalid : validate e = .ok ())
    (hnames : e.NulFreeNames) {b : List UInt8} (hwrite : writeExecutableToBuffer e = .ok b) :
    readExecutableFromBuffer b = .ok e := by
  obtain ⟨-, hsize, rfl⟩ := writeExecutable_eq_ok hwrite
  -- A file below 4 GiB has few records, so no count wraps.
  have htables : (writeTables e).tables.bytes.length = e.segments.length * 40
    + e.symbols.length * 24 + e.debugInfo.length * 24 + e.sourceFiles.length * 4 :=
    size_writeTables e
  have hcount : ∀ n : ℕ, n < 2 ^ 32 → (UInt32.ofNat n).toNat = n := fun n hn =>
    UInt32.toNat_ofNat'.trans (Nat.mod_eq_of_lt hn)
  have hsegmentCount : e.segments.length < 2 ^ 32 := by omega
  have hsymbolCount : e.symbols.length < 2 ^ 32 := by omega
  have hdebugCount : e.debugInfo.length < 2 ^ 32 := by omega
  have hsourceCount : e.sourceFiles.length < 2 ^ 32 := by omega
  have hfiles : ∀ entry ∈ e.debugInfo, entry.file < UInt32.ofNat e.sourceFiles.length := by
    intro entry hentry
    rw [UInt32.lt_iff_toNat_lt, hcount _ hsourceCount]
    exact file_lt_of_validate hvalid entry hentry
  obtain ⟨segments, symbols, debugInfo, sources, hbytes, hsegments, hsymbols, hdebug, hsources⟩ :=
    written_tables hnames hfiles (by omega) (by omega)
  have hbody : (file (writeHeader e).bytes (writeTables e).tables.bytes
      (writeTables e).strings.bytes (writeTables e).blob.bytes).drop kHeaderSize
        = segments.flatMap SegmentRecord.toBytes ++ (symbols.flatMap SymbolRecord.toBytes
          ++ (debugInfo.flatMap DebugEntry.toBytes ++ (sources.flatMap sourceToBytes
            ++ ((writeTables e).strings.bytes ++ (writeTables e).blob.bytes)))) := by
    rw [drop_file (length_writeHeader e), hbytes]
    simp only [List.append_assoc]
  exact read_file hvalid hsize (tablesEnd_headerOf (by omega) _)
    (tablesOf_written (version_of_validate hvalid) hbody hsegments hsymbols hdebug hsources
      hsegmentCount hsymbolCount hdebugCount hsourceCount)

/-- An executable whose only instruction is `NOP`, with a `.bss`, a symbol and a debug entry. -/
def nopExecutable : Executable where
  segments := [
    { type := .text, flags := SegmentFlags.read ||| SegmentFlags.exec, name := str ".text",
      virtualSize := 8, data := List.replicate 8 0 },
    { type := .bss, flags := SegmentFlags.read ||| SegmentFlags.write, name := str ".bss",
      virtualAddress := 0x1000, virtualSize := 16 }]
  symbols := [{ name := str "_start", address := 0, size := 8, kind := .function }]
  debugInfo := [{ address := 0, file := 0, line := 1, column := 1 }]
  sourceFiles := [str "nop.masm"]

theorem executable_round_trip_nop : ∃ b, writeExecutableToBuffer nopExecutable = .ok b ∧
    readExecutableFromBuffer b = .ok nopExecutable := by
  have hvalid : validate nopExecutable = .ok () := by decide
  have hnames : nopExecutable.NulFreeNames := ⟨by decide, by decide, by decide⟩
  have hok : (writeExecutableToBuffer nopExecutable).isOk = true := by decide +kernel
  cases hwrite : writeExecutableToBuffer nopExecutable with
  | error e =>
    rw [hwrite] at hok
    cases hok
  | ok b => exact ⟨b, rfl, executable_round_trip hvalid hnames hwrite⟩

end Executable
end MiniTool
