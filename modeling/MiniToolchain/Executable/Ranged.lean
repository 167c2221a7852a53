import MiniToolchain.Common.Ranged
import MiniToolchain.Executable.ExecutableIo

/-!
# Reading an executable stays in range

The reader of executables with every index and every part explicit, and that none of them leaves its
span, whatever the bytes.

## Main definitions

* `Ranged.readExecutableFromBuffer` — the reader, which ends with `none` at an access out of range.

## Main results

* `readExecutableFromBuffer_inRange` — it never does, and computes what `readExecutableFromBuffer`
  computes.
-/

namespace MiniTool
namespace Executable

open Binary Checked

namespace Ranged

open Binary.Ranged

def readHeaderFields : RangedRead Header := do
  let version ← u16v
  let headerSize ← u16v
  let entryPoint ← u64v
  let segmentCount ← u32v
  let symbolCount ← u32v
  let debugCount ← u32v
  let sourceCount ← u32v
  let trailer ← readTrailer
  return { version, headerSize, entryPoint, segmentCount, symbolCount, debugCount, sourceCount,
           trailer }

def readHeader (buffer : List UInt8) : Ranged Header := do
  let (magic, reader) ← raw 4 { data := buffer }
  lift (reject (magic ≠ kExeMagic) "not an executable: bad magic")
  let (header, _) ← orError "truncated executable header" readHeaderFields reader
  return header

def checkHeader (buffer : List UInt8) (header : Header) : Ranged Unit := do
  lift (reject (header.version ≠ kExeVersion)
    s!"unsupported executable version {header.version} (this build understands {kExeVersion})")
  lift (reject (header.headerSize.toNat ≠ kHeaderSize)
    s!"unsupported executable header size {header.headerSize}")
  Binary.Ranged.checkContents "executable" buffer header.trailer

def readSegmentRecord : RangedRead SegmentRecord := orError "truncated segment table" do
  let nameOffset ← u32v
  let type ← u8v
  let flags ← u8v
  skip 2
  let virtualAddress ← u64v
  let virtualSize ← u64v
  let dataOffset ← u64v
  let dataSize ← u64v
  return { nameOffset, type, flags, virtualAddress, virtualSize, dataOffset, dataSize }

def checkSegmentRecord (stringTable blob : List UInt8) (fields : SegmentRecord) :
    Ranged Segment := do
  lift (reject (!isValidSegmentType fields.type) s!"invalid segment type {fields.type}")
  let start := fields.dataOffset
  let stop := fields.dataOffset + fields.dataSize
  lift (reject (start.toNat > blob.length ∨ fields.dataSize.toNat > blob.length - start.toNat)
    s!"segment data range [{start}, {stop}) is outside the {blob.length}-byte image")
  let name ← Binary.Ranged.readString stringTable fields.nameOffset
  let data ← partOf blob fields.dataOffset.toNat fields.dataSize.toNat
  return {
    name
    type := SegmentType.ofValue fields.type
    flags := fields.flags
    virtualAddress := fields.virtualAddress
    virtualSize := fields.virtualSize
    data }

def readSymbolRecord : RangedRead SymbolRecord := orError "truncated executable symbol table" do
  let nameOffset ← u32v
  let kind ← u8v
  skip 3
  let address ← u64v
  let size ← u64v
  return { nameOffset, kind, address, size }

def checkSymbolRecord (stringTable : List UInt8) (fields : SymbolRecord) : Ranged SymbolEntry := do
  lift (reject (fields.kind > SymbolKind.object.value) s!"invalid symbol kind {fields.kind}")
  let name ← Binary.Ranged.readString stringTable fields.nameOffset
  return { name, address := fields.address, size := fields.size,
           kind := SymbolKind.ofValue fields.kind }

def readDebugEntry : RangedRead DebugEntry := orError "truncated debug table" do
  let address ← u64v
  let file ← u32v
  let line ← u32v
  let column ← u32v
  skip 4
  return { address, file, line, column }

def readSource : RangedRead UInt32 := orError "truncated source file table" u32v

def readTables (header : Header) (stringTable blob : List UInt8) : RangedRead Executable := do
  let segments ← tableAt kHeaderSize readSegmentRecord (checkSegmentRecord stringTable blob)
    header.segmentCount.toNat
  let symbols ← tableAt header.symbolsAt readSymbolRecord (checkSymbolRecord stringTable)
    header.symbolCount.toNat
  let debugInfo ← tableAt header.debugAt readDebugEntry
    (fun entry => lift (DebugEntry.check header.sourceCount entry)) header.debugCount.toNat
  let sourceFiles ← tableAt header.sourcesAt readSource (Binary.Ranged.readString stringTable)
    header.sourceCount.toNat
  return { version := header.version, entryPoint := header.entryPoint, segments, symbols,
           debugInfo, sourceFiles }

def readExecutableFromBuffer (buffer : List UInt8) : Ranged Executable := do
  let size := buffer.length
  lift (reject (size < kHeaderSize)
    s!"not an executable: {size} bytes is shorter than the {kHeaderSize}-byte header")
  let header ← readHeader buffer
  checkHeader buffer header
  let (stringTable, blob) ←
    Binary.Ranged.extents "executable" buffer header.trailer header.tablesEnd
  let executable ← (readTables header stringTable blob).run' { data := buffer }
  lift (validate executable)
  return executable

end Ranged

/-! ### No access leaves its span -/

open ReadInRange

theorem readHeaderFields_inRange : ReadInRange Ranged.readHeaderFields Header.read :=
  u16v.bind fun _ => u16v.bind fun _ => u64v.bind fun _ => u32v.bind fun _ => u32v.bind fun _ =>
    u32v.bind fun _ => u32v.bind fun _ => trailer.bind fun _ => ReadInRange.pure _

theorem readHeader_inRange (buffer : List UInt8) :
    InRange (Ranged.readHeader buffer) (readHeader buffer) := by
  refine (raw (by decide) _).bind fun magic _ => (InRange.lift _).bind fun _ _ => ?_
  exact (readHeaderFields_inRange.orError _ _).bind fun _ _ => .pure _

theorem checkHeader_inRange {buffer : List UInt8} (hlen : kHeaderSize ≤ buffer.length)
    (header : Header) : InRange (Ranged.checkHeader buffer header) (checkHeader buffer header) :=
  (InRange.lift _).bind fun _ _ => (InRange.lift _).bind fun _ _ =>
    checkContents_inRange "executable" hlen header.trailer

theorem readSegmentRecord_inRange : ReadInRange Ranged.readSegmentRecord SegmentRecord.read :=
  orError (u32v.bind fun _ => u8v.bind fun _ => u8v.bind fun _ => (skip 2).bind fun _ =>
    u64v.bind fun _ => u64v.bind fun _ => u64v.bind fun _ => u64v.bind fun _ =>
    ReadInRange.pure _) _

/-- The part of the blob was checked. -/
theorem checkSegmentRecord_inRange (stringTable blob : List UInt8) (fields : SegmentRecord) :
    InRange (Ranged.checkSegmentRecord stringTable blob fields)
      (SegmentRecord.check stringTable blob fields) := by
  refine (InRange.lift _).bind fun _ _ => (InRange.lift _).bind fun _ hrange =>
    (readString_inRange _ _).bind fun name _ => ?_
  have hrange := reject_eq_ok.mp hrange
  exact (partOf_inRange _ _ _ (by omega)).then (.pure _)

theorem readSymbolRecord_inRange : ReadInRange Ranged.readSymbolRecord SymbolRecord.read :=
  orError (u32v.bind fun _ => u8v.bind fun _ => (skip 3).bind fun _ => u64v.bind fun _ =>
    u64v.bind fun _ => ReadInRange.pure _) _

theorem checkSymbolRecord_inRange (stringTable : List UInt8) (fields : SymbolRecord) :
    InRange (Ranged.checkSymbolRecord stringTable fields) (SymbolRecord.check stringTable fields) :=
  (InRange.lift _).bind fun _ _ => (readString_inRange _ _).bind fun _ _ => .pure _

theorem readDebugEntry_inRange : ReadInRange Ranged.readDebugEntry DebugEntry.read :=
  orError (u64v.bind fun _ => u32v.bind fun _ => u32v.bind fun _ => u32v.bind fun _ =>
    (skip 4).bind fun _ => ReadInRange.pure _) _

theorem readSource_inRange : ReadInRange Ranged.readSource readSourceRecord := orError u32v _

theorem readTables_inRange (header : Header) (stringTable blob : List UInt8) :
    ReadInRange (Ranged.readTables header stringTable blob)
      (readTables header stringTable blob) := by
  refine (tableAt readSegmentRecord_inRange (checkSegmentRecord_inRange _ _) _ _).bind fun _ => ?_
  refine (tableAt readSymbolRecord_inRange (checkSymbolRecord_inRange _) _ _).bind fun _ => ?_
  refine (tableAt readDebugEntry_inRange (fun _ => InRange.lift _) _ _).bind fun _ => ?_
  exact (tableAt readSource_inRange (readString_inRange _) _ _).bind fun _ => ReadInRange.pure _

/-- Whatever the bytes, reading them as an executable accesses nothing outside a span. -/
theorem readExecutableFromBuffer_inRange (buffer : List UInt8) :
    InRange (Ranged.readExecutableFromBuffer buffer) (readExecutableFromBuffer buffer) := by
  refine (InRange.lift _).bind fun _ hlen => (readHeader_inRange buffer).bind fun header _ => ?_
  have hlen := reject_eq_ok.mp hlen
  refine (checkHeader_inRange (not_lt.mp hlen) header).bind fun _ _ => ?_
  refine (extents_inRange "executable" buffer header.trailer _).bind fun regions _ => ?_
  refine (ReadInRange.run' (readTables_inRange header regions.1 regions.2) _).bind fun _ _ => ?_
  exact (InRange.lift _).bind fun _ _ => .pure _

end Executable
end MiniTool
