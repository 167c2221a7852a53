import MiniToolchain.Common.Align
import MiniToolchain.Diagnostics.Diagnostic
import MiniToolchain.Ir.Ir
import MiniToolchain.Object.Object

/-!
# The assembler

Turns a module into a relocatable object file in two passes.  The first assigns offsets, which
defines every label; the second encodes the instructions and records a relocation for every value
that is still unknown.

## Main definitions

* `AssemblyContext`, `collectSections`, `layoutAndDefineSymbols`, `applyBindings`, `emit`.
* `assemble`.

A vector of bytes that would grow past what a vector can hold throws `std::length_error`, and one
that would grow past what the allocator gives throws `std::bad_alloc`.  The source has no name for
the second bound; here it is the parameter `memory`.
-/

namespace MiniTool
namespace Assembler

open Diag Object

def sectionTypeOf : Ir.SectionKind → SectionType
  | .text => .text
  | .rodata => .rodata
  | .data => .data
  | .bss => .bss

def sectionFlagsOf : Ir.SectionKind → SectionFlags
  | .text => SectionFlags.alloc ||| SectionFlags.exec
  | .rodata => SectionFlags.alloc
  | .data => SectionFlags.alloc ||| SectionFlags.write
  | .bss => SectionFlags.alloc ||| SectionFlags.write

/-- Sections are emitted in this order whatever order the source used. -/
def kSectionOrder : List Ir.SectionKind := [.text, .rodata, .data, .bss]

/-- A branch gets a displacement, everything else an absolute address. -/
def relocationForInstruction (opcode : Isa.Opcode) : RelocationType :=
  match Isa.findOpcode opcode with
  | some info => if info.format = .jump then .pcrel48 else .imm48
  | none => .imm48

inductive AssembleError
  /-- `std::length_error`. -/
  | lengthError
  /-- `std::bad_alloc`. -/
  | badAlloc
  | failed (message : String) (diagnostics : DiagnosticEngine)
  deriving DecidableEq, Repr

/-- `std::vector<u8>::max_size`. -/
abbrev kMaxSize : ℕ := 2 ^ 63 - 1

/-- The most bytes a vector holds when the allocator gives `memory`. -/
def capacity (memory : ℕ) : ℕ := min kMaxSize memory

theorem capacity_le {memory : ℕ} : capacity memory ≤ kMaxSize := min_le_left _ _

/-- A vector that is to hold `length` bytes. -/
def allocate (memory length : ℕ) : Except AssembleError Unit :=
  if length > kMaxSize then .error .lengthError
  else if length > memory then .error .badAlloc
  else .ok ()

theorem allocate_eq_ok {memory length : ℕ} :
    allocate memory length = .ok () ↔ length ≤ capacity memory := by
  unfold allocate capacity
  rw [le_min_iff]
  split_ifs with hmax hmemory
  · simp [Nat.not_le.mpr hmax]
  · simp [Nat.not_le.mpr hmemory]
  · simp [Nat.le_of_not_lt hmax, Nat.le_of_not_lt hmemory]

/-- The exception says what is too much for the bytes. -/
def Exceeds (memory length : ℕ) (e : AssembleError) : Prop :=
  (e = .lengthError ∧ kMaxSize < length) ∨ (e = .badAlloc ∧ memory < length ∧ memory < kMaxSize)

theorem Exceeds.mono {memory length most : ℕ} {e : AssembleError} (h : Exceeds memory length e)
    (hle : length ≤ most) : Exceeds memory most e := by
  rcases h with ⟨he, hmax⟩ | ⟨he, hmemory, hsmall⟩
  · exact .inl ⟨he, hmax.trans_le hle⟩
  · exact .inr ⟨he, hmemory.trans_le hle, hsmall⟩

theorem allocate_eq_error {memory length : ℕ} {e : AssembleError}
    (h : allocate memory length = .error e) : Exceeds memory length e := by
  unfold allocate at h
  split_ifs at h with hmax hmemory
  · cases h
    exact .inl ⟨rfl, hmax⟩
  · cases h
    exact .inr ⟨rfl, hmemory, by omega⟩

/-- The object under construction. -/
structure AssemblyContext where
  object : ObjectFile := {}
  diagnostics : DiagnosticEngine := {}
  failed : Bool := false

namespace AssemblyContext

def error (c : AssemblyContext) (location : SourceLocation) (code : ErrorCode) (message : String) :
    AssemblyContext :=
  { c with diagnostics := c.diagnostics.report (Diag.error code location message), failed := true }

def setSymbols (c : AssemblyContext) (symbols : SymbolTable) : AssemblyContext :=
  { c with object := { c.object with symbols } }

def pushRelocation (c : AssemblyContext) (relocation : Relocation) : AssemblyContext :=
  { c with object := { c.object with relocations := c.object.relocations ++ [relocation] } }

def pushDebug (c : AssemblyContext) (entry : DebugEntry) : AssemblyContext :=
  { c with object := { c.object with debugInfo := c.object.debugInfo ++ [entry] } }

def modifySection (c : AssemblyContext) (index : ℕ) (f : Section → Section) : AssemblyContext :=
  { c with object := { c.object with sections := c.object.sections.modify index f } }

/-! ### Sections -/

/-- The sections that carry anything, in the order they are emitted. -/
def orderedSections (m : Ir.Module) : List Ir.Section :=
  kSectionOrder.filterMap fun kind =>
    (m.findSection kind).filter fun source => !source.items.isEmpty

def objectSection (index : ℕ) (source : Ir.Section) : Section where
  name := Ir.sectionName source.kind
  type := sectionTypeOf source.kind
  flags := sectionFlagsOf source.kind
  alignment := source.alignment
  index := UInt32.ofNat index

def collectSections (c : AssemblyContext) (m : Ir.Module) : AssemblyContext :=
  { c with object := { c.object with
      sections := (orderedSections m).mapIdx objectSection
      sourceFiles := c.object.sourceFiles ++ [m.sourceName] } }

/-! ### Pass 1 -/

def defineLabel (c : AssemblyContext) (label : Ir.Label) (index : ℕ) (offset : UInt64) :
    AssemblyContext :=
  let (i, symbols) := c.object.symbols.findOrAdd label.name
  let c := c.setSymbols symbols
  if (symbols.symbolAt i).defined then
    c.error label.location .duplicateSymbol s!"symbol '{label.name.text}' is defined more than once"
  else
    let inText := (c.object.sections.getD index {}).type = .text
    c.setSymbols (symbols.modify i (fun symbol =>
      { symbol with
        defined := true
        sectionId := UInt32.ofNat index
        value := offset
        -- promoted afterwards by `.global` and `.weak`
        binding := .local
        type := if inText then .function else .object }) fun _ => rfl)

/-- The offset of the next item, and the largest alignment so far. -/
structure Cursor where
  offset : UInt64 := 0
  maxAlignment : UInt64

def layoutItem (index : ℕ) (state : AssemblyContext × Cursor) (item : Ir.Item) :
    AssemblyContext × Cursor :=
  let (c, cursor) := state
  match item with
  | .label label => (c.defineLabel label index cursor.offset, cursor)
  | .instruction _ =>
    (c, { cursor with offset := cursor.offset + UInt64.ofNat Isa.kInstructionSize })
  | .bytes bytes => (c, { cursor with offset := cursor.offset + UInt64.ofNat bytes.data.length })
  | .symbolValue value => (c, { cursor with offset := cursor.offset + value.width.toUInt64 })
  | .space space => (c, { cursor with offset := cursor.offset + space.size })
  | .align align =>
    (c, { offset := alignUp cursor.offset align.alignment
          maxAlignment := max cursor.maxAlignment align.alignment })

def layoutSection (c : AssemblyContext) (source : Ir.Section × ℕ) : AssemblyContext :=
  let (source, index) := source
  let alignment := (c.object.sections.getD index {}).alignment
  let (c, cursor) := source.items.foldl (layoutItem index) (c, { maxAlignment := alignment })
  c.modifySection index fun s =>
    { s with size := cursor.offset, alignment := cursor.maxAlignment }

def layoutAndDefineSymbols (c : AssemblyContext) (m : Ir.Module) : AssemblyContext :=
  (orderedSections m).zipIdx.foldl layoutSection c

/-! ### Bindings -/

def setBinding (binding : SymbolBinding) (c : AssemblyContext) (name : Str) : AssemblyContext :=
  let (i, symbols) := c.object.symbols.findOrAdd name
  c.setSymbols (symbols.modify i (fun symbol => { symbol with binding }) fun _ => rfl)

def declareExtern (c : AssemblyContext) (name : Str) : AssemblyContext :=
  let (i, symbols) := c.object.symbols.findOrAdd name
  if (symbols.symbolAt i).defined then
    (c.setSymbols symbols).error {} .symbolVisibilityConflict
      s!"'{name.text}' is declared .extern but also defined in this file"
  else
    c.setSymbols
      (symbols.modify i (fun symbol => { symbol with binding := .external }) fun _ => rfl)

/-- A name declared but never defined here stays undefined for the linker. -/
def applyBindings (c : AssemblyContext) (m : Ir.Module) : AssemblyContext :=
  let c := m.globals.foldl (setBinding .global) c
  let c := m.weaks.foldl (setBinding .weak) c
  m.externs.foldl declareExtern c

/-- The index of a referenced symbol; a name this file never defines becomes external. -/
def referenceSymbol (c : AssemblyContext) (reference : Ir.SymbolRef) (location : SourceLocation) :
    ℕ × AssemblyContext :=
  let (i, symbols) := c.object.symbols.findOrAdd reference.name
  let c := c.setSymbols symbols
  let symbol := symbols.symbolAt i
  if symbol.defined = false ∧ symbol.binding = .local then
    -- a local label is file-scoped, so no other object can define it
    if reference.name.startsWith (str ".L") then
      (i, c.error location .undefinedSymbol
        s!"local label '{reference.name.text}' is used but never defined")
    else
      (i, c.setSymbols (symbols.modify i (fun symbol => { symbol with binding := .external })
        fun _ => rfl))
  else (i, c)

/-! ### Pass 2 -/

/-- Appends to the bytes of a section. -/
def append (memory : ℕ) (bytes added : List UInt8) : Except AssembleError (List UInt8) := do
  allocate memory (bytes.length + added.length)
  return bytes ++ added

/-- Appends `count` bytes `value`; the length is checked before the bytes are made. -/
def appendFill (memory : ℕ) (bytes : List UInt8) (count : ℕ) (value : UInt8) :
    Except AssembleError (List UInt8) := do
  allocate memory (bytes.length + count)
  return bytes ++ List.replicate count value

theorem append_of_le {memory : ℕ} {bytes added : List UInt8}
    (h : bytes.length + added.length ≤ capacity memory) :
    append memory bytes added = .ok (bytes ++ added) := by
  unfold append
  rw [allocate_eq_ok.mpr h]
  rfl

theorem appendFill_of_le {memory : ℕ} {bytes : List UInt8} {count : ℕ} {value : UInt8}
    (h : bytes.length + count ≤ capacity memory) :
    appendFill memory bytes count value = .ok (bytes ++ List.replicate count value) := by
  unfold appendFill
  rw [allocate_eq_ok.mpr h]
  rfl

/-- The relocation of a symbolic instruction, whose field holds zero until it is linked. -/
def relocateInstruction (c : AssemblyContext) (instruction : Ir.Instruction) (index : ℕ)
    (offset : UInt64) : AssemblyContext :=
  match instruction.symbol with
  | none => c
  | some reference =>
    let (symbol, c) := c.referenceSymbol reference instruction.location
    c.pushRelocation
      { sectionId := UInt32.ofNat index, offset
        type := relocationForInstruction instruction.machine.opcode
        symbol, addend := reference.addend }

/-- The instruction that is encoded. -/
def placeholder (instruction : Ir.Instruction) : Isa.Instruction :=
  if instruction.isSymbolic then { instruction.machine with imm := 0 } else instruction.machine

theorem placeholder_fields (i : Ir.Instruction) : (placeholder i).opcode = i.machine.opcode ∧
    (placeholder i).dst = i.machine.dst ∧ (placeholder i).src = i.machine.src := by
  unfold placeholder
  by_cases hsymbolic : i.isSymbolic
  · rw [if_pos hsymbolic]
    exact ⟨rfl, rfl, rfl⟩
  · rw [if_neg hsymbolic]
    exact ⟨rfl, rfl, rfl⟩

def emitInstruction (memory : ℕ) (c : AssemblyContext) (instruction : Ir.Instruction) (index : ℕ)
    (bytes : List UInt8) : Except AssembleError (AssemblyContext × List UInt8) := do
  let offset := UInt64.ofNat bytes.length
  let machine := placeholder instruction
  let c := c.relocateInstruction instruction index offset
  let field := List.replicate Isa.kInstructionSize 0
  match Isa.encodeInto field machine with
  | .error e =>
    let name := Isa.opcodeName machine.opcode
    let c := c.error instruction.location .invalidOperand
      s!"cannot encode {name}: {Isa.encodeErrorName e}"
    return (c, ← append memory bytes field)
  | .ok encoded =>
    let c := c.pushDebug
      { sectionId := UInt32.ofNat index, file := 0, offset
        line := instruction.location.line, column := instruction.location.column }
    return (c, ← append memory bytes encoded)

def emitSymbolValue (memory : ℕ) (c : AssemblyContext) (value : Ir.SymbolValue) (index : ℕ)
    (bytes : List UInt8) : Except AssembleError (AssemblyContext × List UInt8) := do
  let (symbol, c) := c.referenceSymbol value.symbol value.location
  let c := c.pushRelocation
    { sectionId := UInt32.ofNat index, offset := UInt64.ofNat bytes.length
      type := if value.width = 4 then .abs32 else .abs64
      symbol, addend := value.symbol.addend }
  return (c, ← appendFill memory bytes value.width.toNat 0)

def emitItem (memory index : ℕ) (state : AssemblyContext × List UInt8) (item : Ir.Item) :
    Except AssembleError (AssemblyContext × List UInt8) := do
  let (c, bytes) := state
  match item with
  | .label _ => return (c, bytes)
  | .instruction instruction => c.emitInstruction memory instruction index bytes
  | .bytes b => return (c, ← append memory bytes b.data)
  | .symbolValue value => c.emitSymbolValue memory value index bytes
  | .space space => return (c, ← appendFill memory bytes space.size.toNat space.fill)
  | .align align =>
    let padded := (alignUp (UInt64.ofNat bytes.length) align.alignment).toNat
    return (c, ← appendFill memory bytes (padded - bytes.length) 0)

/-- The checks on the bytes of a section, and where they go. -/
def finishSection (c : AssemblyContext) (source : Ir.Section) (index : ℕ) (bytes : List UInt8) :
    AssemblyContext :=
  let target := c.object.sections.getD index {}
  if Ir.sectionHasData source.kind then
    let c :=
      if UInt64.ofNat bytes.length ≠ target.size then
        c.error {} .internalError
          s!"section '{target.name.text}' sized {target.size} in pass 1 but emitted {
            bytes.length} bytes"
      else c
    c.modifySection index fun s => { s with data := bytes }
  else if bytes.any (· ≠ 0) then c.error {} .internalError "non-zero bytes were emitted into .bss"
  else c

def emitSection (memory : ℕ) (c : AssemblyContext) (source : Ir.Section × ℕ) :
    Except AssembleError AssemblyContext := do
  let (source, index) := source
  -- the reservation, which `.bss` makes like the others
  allocate memory (c.object.sections.getD index {}).size.toNat
  let (c, bytes) ← source.items.foldlM (emitItem memory index) (c, [])
  return c.finishSection source index bytes

def emit (memory : ℕ) (c : AssemblyContext) (m : Ir.Module) :
    Except AssembleError AssemblyContext :=
  (orderedSections m).zipIdx.foldlM (emitSection memory) c

end AssemblyContext

def assemble (memory : ℕ) (m : Ir.Module) (diagnostics : DiagnosticEngine) :
    Except AssembleError (ObjectFile × DiagnosticEngine) := do
  let c : AssemblyContext := { diagnostics }
  let c := c.collectSections m
  let c := c.layoutAndDefineSymbols m
  let c := c.applyBindings m
  let c ← c.emit memory m
  if c.failed then
    .error (.failed s!"{c.diagnostics.errorCount} error(s) while assembling" c.diagnostics)
  else .ok (c.object, c.diagnostics)

end Assembler
end MiniTool
