import MiniToolchain.Assembler.SymbolTable

/-!
# Object files

The in-memory model of a `.mobj` relocatable object file.

## Main definitions

* `Section`, `Relocation`, `DebugEntry`, `ObjectFile`.
* `relocationWidth` — the bytes a relocation reads and writes.
-/

namespace MiniTool
namespace Object

abbrev kObjectVersion : UInt16 := 1

inductive SectionType
  | null
  | text
  | rodata
  | data
  | bss
  deriving DecidableEq, Repr

namespace SectionType

def value : SectionType → UInt8
  | null => 0
  | text => 1
  | rodata => 2
  | data => 3
  | bss => 4

/-- The enumerator with the given value; only used once the value is known to be valid. -/
def ofValue (v : UInt8) : SectionType :=
  if v = 0 then null else if v = 1 then text else if v = 2 then rodata else if v = 3 then data
  else bss

theorem ofValue_value (t : SectionType) : ofValue t.value = t := by cases t <;> rfl

end SectionType

def isValidSectionType (v : UInt8) : Bool := v ≤ SectionType.bss.value

theorem isValidSectionType_value (t : SectionType) : isValidSectionType t.value = true := by
  cases t <;> rfl

/-- A set of flags; any byte is one. -/
abbrev SectionFlags := UInt8

namespace SectionFlags

abbrev none : SectionFlags := 0
/-- Occupies memory at run time. -/
abbrev alloc : SectionFlags := 1
abbrev write : SectionFlags := 2
abbrev exec : SectionFlags := 4

end SectionFlags

structure Section where
  name : Str := []
  type : SectionType := .null
  flags : SectionFlags := SectionFlags.none
  alignment : UInt64 := 1
  /-- Initialised bytes; none for `.bss`. -/
  data : List UInt8 := []
  /-- Bytes occupied at run time. -/
  size : UInt64 := 0
  index : UInt32 := 0
  deriving DecidableEq, Repr

/-- How a relocation combines the symbol address, the addend and the address of the field. -/
inductive RelocationType
  | abs32
  | abs64
  | pcrel32
  | imm48
  | pcrel48
  deriving DecidableEq, Repr

namespace RelocationType

def value : RelocationType → UInt8
  | abs32 => 0
  | abs64 => 1
  | pcrel32 => 2
  | imm48 => 3
  | pcrel48 => 4

/-- The enumerator with the given value; only used once the value is known to be valid. -/
def ofValue (v : UInt8) : RelocationType :=
  if v = 0 then abs32 else if v = 1 then abs64 else if v = 2 then pcrel32 else if v = 3 then imm48
  else pcrel48

theorem ofValue_value (t : RelocationType) : ofValue t.value = t := by cases t <;> rfl

def name : RelocationType → String
  | abs32 => "ABS32"
  | abs64 => "ABS64"
  | pcrel32 => "PCREL32"
  | imm48 => "IMM48"
  | pcrel48 => "PCREL48"

end RelocationType

def isValidRelocationType (v : UInt8) : Bool := v ≤ RelocationType.pcrel48.value

theorem isValidRelocationType_value (t : RelocationType) :
    isValidRelocationType t.value = true := by
  cases t <;> rfl

/-- Number of bytes a relocation reads and writes at its offset. -/
def relocationWidth : RelocationType → ℕ
  | .abs32 => 4
  | .pcrel32 => 4
  | .abs64 => 8
  | .imm48 => 8
  | .pcrel48 => 8

structure Relocation where
  /-- Index of the section being patched. -/
  sectionId : UInt32
  /-- Byte offset of the patched field within that section. -/
  offset : UInt64
  type : RelocationType
  /-- Index into the symbol table of the object; a file has 32 bits of it. -/
  symbol : ℕ
  addend : Int64
  deriving DecidableEq, Repr

/-- Maps an instruction back to the source line that produced it. -/
structure DebugEntry where
  sectionId : UInt32
  /-- Index into the source files. -/
  file : UInt32
  offset : UInt64
  line : UInt32
  column : UInt32
  deriving DecidableEq, Repr

structure ObjectFile where
  version : UInt16 := kObjectVersion
  sections : List Section := []
  symbols : SymbolTable := SymbolTable.empty
  relocations : List Relocation := []
  debugInfo : List DebugEntry := []
  sourceFiles : List Str := []
  deriving DecidableEq

end Object
end MiniTool
