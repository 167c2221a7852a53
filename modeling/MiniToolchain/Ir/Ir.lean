import MiniToolchain.Isa.Encoding

/-!
# The intermediate representation

What the optimizer works on and the assembler lays out.  It is addressless: an item knows its order
inside a section but not its offset, and a branch may name a label.

## Main definitions

* `SymbolRef`, `Instruction`, `Item`, `Section`, `Module`.
* `Module.sectionFor`, `Module.findSection`, `Module.instructionCount`.
-/

namespace MiniTool
namespace Ir

inductive SectionKind
  | text | rodata | data | bss
  deriving DecidableEq, Repr

def sectionName : SectionKind → Str
  | .text => str ".text"
  | .rodata => str ".rodata"
  | .data => str ".data"
  | .bss => str ".bss"

def sectionKindFromName (name : Str) : Option SectionKind :=
  if name = str ".text" then some .text
  else if name = str ".rodata" then some .rodata
  else if name = str ".data" then some .data
  else if name = str ".bss" then some .bss
  else none

/-- True if the section occupies file space. -/
def sectionHasData (kind : SectionKind) : Bool := kind ≠ .bss

/-- A reference to a symbol plus a constant. -/
structure SymbolRef where
  name : Str
  addend : Int64 := 0
  deriving DecidableEq, Repr

/-- One machine instruction.  With a symbol, `machine.imm` is ignored. -/
structure Instruction where
  machine : Isa.Instruction
  symbol : Option SymbolRef := none
  location : SourceLocation := {}
  deriving DecidableEq, Repr

def Instruction.isSymbolic (instruction : Instruction) : Bool := instruction.symbol.isSome

/-- Defines a symbol at the current offset of the enclosing section. -/
structure Label where
  name : Str
  /-- `.Lname` labels never leave the object file. -/
  isLocal : Bool := false
  location : SourceLocation := {}
  deriving DecidableEq, Repr

/-- Literal bytes. -/
structure Bytes where
  data : List UInt8
  location : SourceLocation := {}
  deriving DecidableEq, Repr

/-- A symbol address stored as data. -/
structure SymbolValue where
  width : UInt32 := 8
  symbol : SymbolRef
  location : SourceLocation := {}
  deriving DecidableEq, Repr

/-- `.space n [, fill]`. -/
structure Space where
  size : UInt64 := 0
  fill : UInt8 := 0
  location : SourceLocation := {}
  deriving DecidableEq, Repr

/-- `.align n`: pad the section to an n-byte boundary. -/
structure Align where
  alignment : UInt64 := 1
  location : SourceLocation := {}
  deriving DecidableEq, Repr

inductive Item
  | instruction (instruction : Instruction)
  | label (label : Label)
  | bytes (bytes : Bytes)
  | symbolValue (value : SymbolValue)
  | space (space : Space)
  | align (align : Align)
  deriving DecidableEq, Repr

def itemLocation : Item → SourceLocation
  | .instruction i => i.location
  | .label l => l.location
  | .bytes b => b.location
  | .symbolValue v => v.location
  | .space s => s.location
  | .align a => a.location

/-- `std::holds_alternative<Instruction>`. -/
def Item.isInstruction : Item → Bool
  | .instruction _ => true
  | _ => false

/-- `std::holds_alternative<Label>`. -/
def Item.isLabel : Item → Bool
  | .label _ => true
  | _ => false

structure Section where
  kind : SectionKind := .text
  name : Str
  alignment : UInt64 := 8
  items : List Item := []
  deriving DecidableEq

/-- Everything one assembly file contributes to an object file. -/
structure Module where
  sourceName : Str := []
  sections : List Section := []
  globals : List Str := []
  externs : List Str := []
  weaks : List Str := []
  deriving DecidableEq

namespace Module

def findSection (m : Module) (kind : SectionKind) : Option Section :=
  m.sections.find? fun s => s.kind = kind

/-- Creates the section with this kind if this is its first use. -/
def sectionFor (m : Module) (kind : SectionKind) : Module :=
  match m.findSection kind with
  | some _ => m
  | none =>
    { m with sections := m.sections ++ [{ kind, name := sectionName kind, alignment := 8 }] }

/-- Total instruction count across every section. -/
def instructionCount (m : Module) : ℕ :=
  (m.sections.map fun s => s.items.countP Item.isInstruction).sum

end Module

end Ir
end MiniTool
