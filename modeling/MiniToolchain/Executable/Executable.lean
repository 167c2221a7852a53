import MiniToolchain.Common.Binary
import MiniToolchain.Isa.Encoding

/-!
# Executables

The in-memory model of a `.mexe` executable: a memory image and the metadata a debugger needs.

## Main definitions

* `Segment`, `SymbolEntry`, `DebugEntry`, `Executable`.
* `validate` — every condition the loader depends on.

## Main results

* `validate_eq_ok` — these conditions, as `Valid`.
-/

namespace MiniTool
namespace Executable

abbrev kExeVersion : UInt16 := 1

inductive SegmentType
  | text
  | rodata
  | data
  | bss
  deriving DecidableEq, Repr

namespace SegmentType

def value : SegmentType → UInt8
  | text => 0
  | rodata => 1
  | data => 2
  | bss => 3

/-- The enumerator with the given value; only used once the value is known to be valid. -/
def ofValue (v : UInt8) : SegmentType :=
  if v = 0 then text else if v = 1 then rodata else if v = 2 then data else bss

theorem ofValue_value (t : SegmentType) : ofValue t.value = t := by cases t <;> rfl

end SegmentType

def isValidSegmentType (v : UInt8) : Bool := v ≤ SegmentType.bss.value

theorem isValidSegmentType_value (t : SegmentType) : isValidSegmentType t.value = true := by
  cases t <;> rfl

/-- A set of flags; any byte is one. -/
abbrev SegmentFlags := UInt8

namespace SegmentFlags

abbrev read : SegmentFlags := 1
abbrev write : SegmentFlags := 2
abbrev exec : SegmentFlags := 4

end SegmentFlags

def hasFlag (flags flag : SegmentFlags) : Bool := flags &&& flag = flag

structure Segment where
  type : SegmentType := .text
  flags : SegmentFlags := SegmentFlags.read
  name : Str := []
  virtualAddress : UInt64 := 0
  virtualSize : UInt64 := 0
  data : List UInt8 := []
  deriving DecidableEq, Repr

inductive SymbolKind
  | none
  | function
  | object
  deriving DecidableEq, Repr

namespace SymbolKind

def value : SymbolKind → UInt8
  | none => 0
  | function => 1
  | object => 2

/-- The enumerator with the given value; only used once the value is known to be valid. -/
def ofValue (v : UInt8) : SymbolKind := if v = 0 then none else if v = 1 then function else object

theorem ofValue_value (k : SymbolKind) : ofValue k.value = k := by cases k <;> rfl

theorem value_le_object (k : SymbolKind) : k.value ≤ object.value := by cases k <;> decide

end SymbolKind

structure SymbolEntry where
  name : Str
  address : UInt64
  size : UInt64
  kind : SymbolKind
  deriving DecidableEq, Repr

structure DebugEntry where
  address : UInt64
  /-- Index into the source files. -/
  file : UInt32
  line : UInt32
  column : UInt32
  deriving DecidableEq, Repr

end Executable

open Executable in
structure Executable where
  version : UInt16 := kExeVersion
  entryPoint : UInt64 := 0
  segments : List Segment := []
  symbols : List SymbolEntry := []
  debugInfo : List Executable.DebugEntry := []
  sourceFiles : List Str := []
  deriving DecidableEq, Repr

namespace Executable

open Isa (kInstructionSize)
open Checked

/-! ### Lookups -/

/-- The first segment containing an address. -/
def findSegment (executable : Executable) (address : UInt64) : Option Segment :=
  executable.segments.find? fun segment =>
    address ≥ segment.virtualAddress && address - segment.virtualAddress < segment.virtualSize

/-- The first symbol of a name. -/
def findSymbol (executable : Executable) (name : Str) : Option SymbolEntry :=
  executable.symbols.find? fun symbol => symbol.name = name

/-- The closest symbol at or before an address; one that has a size must cover the address. -/
def symbolContaining (executable : Executable) (address : UInt64) : Option SymbolEntry :=
  executable.symbols.foldl (fun best symbol =>
    if symbol.address > address then best
    else if symbol.size ≠ 0 ∧ address - symbol.address ≥ symbol.size then best
    else
      match best with
      | none => some symbol
      | some found => if symbol.address > found.address then some symbol else best) none

/-! ### Validation -/

def checkSegment (segment : Segment) : Except String Unit :=
  let name := segment.name.text
  let size := segment.data.length
  let memory := segment.virtualSize
  if segment.virtualSize = 0 then .error s!"segment '{name}' occupies no memory"
  else if segment.virtualSize.toNat < segment.data.length then
    .error s!"segment '{name}' holds {size} bytes of data but claims only {memory} bytes of memory"
  else if segment.virtualAddress > 0xFFFFFFFFFFFFFFFF - segment.virtualSize then
    .error s!"segment '{name}' wraps past the end of the address space"
  else if segment.type = .bss ∧ segment.data ≠ [] then
    .error s!"segment '{name}' is .bss but carries {size} bytes of data"
  else if hasFlag segment.flags SegmentFlags.write ∧ hasFlag segment.flags SegmentFlags.exec then
    .error s!"segment '{name}' is both writable and executable"
  else .ok ()

def overlap (a b : Segment) : Bool :=
  a.virtualAddress < b.virtualAddress + b.virtualSize &&
    b.virtualAddress < a.virtualAddress + a.virtualSize

/-- Every pair of segments once, the earlier one first. -/
def checkOverlaps : List Segment → Except String Unit
  | [] => .ok ()
  | a :: rest => do
    rest.forM fun b =>
      let first := a.name.text
      let second := b.name.text
      reject (overlap a b) s!"segments '{first}' and '{second}' overlap in memory"
    checkOverlaps rest

def checkEntry (executable : Executable) : Except String Unit :=
  let entry := Binary.hexText 1 executable.entryPoint.toNat
  if executable.entryPoint % UInt64.ofNat kInstructionSize ≠ 0 then
    .error s!"entry point 0x{entry} is not {kInstructionSize}-byte aligned"
  else
    match executable.findSegment executable.entryPoint with
    | none => .error s!"entry point 0x{entry} is not inside any segment"
    | some segment =>
      if hasFlag segment.flags SegmentFlags.exec then .ok ()
      else
        let name := segment.name.text
        .error s!"entry point 0x{entry} is in non-executable segment '{name}'"

/-- Checks every condition the loader depends on. -/
def validate (executable : Executable) : Except String Unit := do
  reject (executable.version ≠ kExeVersion) s!"unsupported executable version {executable.version}"
  reject (executable.segments = []) "executable has no segments"
  executable.segments.forM checkSegment
  checkOverlaps executable.segments
  checkEntry executable
  executable.debugInfo.forM fun entry =>
    let files := executable.sourceFiles.length
    reject (entry.file.toNat ≥ files) s!"debug entry names source file {entry.file} of {files}"

/-! ### What is accepted -/

/-- What `checkSegment` checks. -/
structure Segment.Valid (segment : Segment) : Prop where
  nonempty : segment.virtualSize ≠ 0
  fits : segment.data.length ≤ segment.virtualSize.toNat
  noWrap : ¬segment.virtualAddress > 0xFFFFFFFFFFFFFFFF - segment.virtualSize
  bss : ¬(segment.type = .bss ∧ segment.data ≠ [])
  writeXorExec : ¬(hasFlag segment.flags SegmentFlags.write = true ∧
    hasFlag segment.flags SegmentFlags.exec = true)

/-- What `validate` checks. -/
structure Valid (executable : Executable) : Prop where
  version : executable.version = kExeVersion
  segments_ne_nil : executable.segments ≠ []
  segments : ∀ segment ∈ executable.segments, segment.Valid
  apart : executable.segments.Pairwise fun a b => overlap a b = false
  entry : checkEntry executable = .ok ()
  files : ∀ entry ∈ executable.debugInfo, entry.file.toNat < executable.sourceFiles.length

theorem checkSegment_eq_ok {segment : Segment} :
    checkSegment segment = .ok () ↔ segment.Valid := by
  unfold checkSegment
  dsimp only
  constructor
  · intro h
    split_ifs at h with hnonempty hfits hwrap hbss hflags
    exact ⟨hnonempty, not_lt.mp hfits, hwrap, hbss, hflags⟩
  · rintro ⟨hnonempty, hfits, hwrap, hbss, hflags⟩
    rw [if_neg hnonempty, if_neg (not_lt.mpr hfits), if_neg hwrap, if_neg hbss, if_neg hflags]

theorem checkOverlaps_eq_ok {segments : List Segment} :
    checkOverlaps segments = .ok () ↔ segments.Pairwise fun a b => overlap a b = false := by
  induction segments with
  | nil => simp [checkOverlaps]
  | cons a rest ih =>
    unfold checkOverlaps
    rw [List.pairwise_cons, bind_eq_ok, ← ih]
    simp only [forM_eq_ok, reject_eq_ok, Bool.not_eq_true, exists_const]

theorem validate_eq_ok {executable : Executable} :
    validate executable = .ok () ↔ Valid executable := by
  unfold validate
  constructor
  · intro h
    obtain ⟨_, hversion, h⟩ := bind_eq_ok.mp h
    obtain ⟨_, hne, h⟩ := bind_eq_ok.mp h
    obtain ⟨_, hsegments, h⟩ := bind_eq_ok.mp h
    obtain ⟨_, hapart, h⟩ := bind_eq_ok.mp h
    obtain ⟨_, hentry, h⟩ := bind_eq_ok.mp h
    refine ⟨by simpa using hversion, by simpa using hne,
      fun s hs => checkSegment_eq_ok.mp (forM_eq_ok.mp hsegments s hs),
      checkOverlaps_eq_ok.mp hapart, hentry, fun entry hentry => ?_⟩
    simpa using forM_eq_ok.mp h entry hentry
  · intro h
    have hsegments : executable.segments.forM checkSegment = .ok () :=
      forM_eq_ok.mpr fun s hs => checkSegment_eq_ok.mpr (h.segments s hs)
    rw [reject_of_not (not_not.mpr h.version), ok_bind, reject_of_not h.segments_ne_nil, ok_bind,
      hsegments, ok_bind,
      checkOverlaps_eq_ok.mpr h.apart, ok_bind, h.entry, ok_bind]
    exact forM_eq_ok.mpr fun entry hentry =>
      reject_of_not (not_le.mpr (h.files entry hentry)) _

end Executable
end MiniTool
