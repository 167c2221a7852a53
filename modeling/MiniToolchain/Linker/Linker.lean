import MiniToolchain.Common.Align
import MiniToolchain.Diagnostics.Diagnostic
import MiniToolchain.Executable.Executable
import MiniToolchain.Object.Relocation

/-!
# The linker

Combines object files into a loadable image: merge the sections, resolve the symbols, apply the
relocations, build the executable.  The first failure stops the link.

## Main definitions

* `LinkOptions`, `Region`, `Placement`, `Definition`, `LinkError`.
* `mergeSections`, `resolveSymbols`, `applyRelocations`, `buildExecutable`, `link`.

An index out of range is the outcome `LinkError.outOfRange`.  The library leaves open in which order
a sort puts elements that compare equal; here they keep their order.
-/

namespace MiniTool
namespace Linker

open Diag Object
open Executable (SegmentType SegmentFlags SymbolKind SymbolEntry validate)

abbrev kTextBase : UInt64 := 0x00010000
abbrev kRodataBase : UInt64 := 0x00100000
abbrev kDataBase : UInt64 := 0x00200000
abbrev kBssBase : UInt64 := 0x00300000

/-- The largest a merged section may become. -/
abbrev kRegionSize : UInt64 := 0x000F0000

structure LinkOptions where
  /-- The symbol the entry point is taken from. -/
  entry : Str := str "_start"
  textBase : UInt64 := kTextBase
  rodataBase : UInt64 := kRodataBase
  dataBase : UInt64 := kDataBase
  bssBase : UInt64 := kBssBase
  /-- Copy local symbols into the symbol table of the executable. -/
  keepLocalSymbols : Bool := true

/-- Everything of one section type from every input, in input order. -/
structure Region where
  type : SectionType
  segment : SegmentType
  flags : SegmentFlags
  name : Str
  base : UInt64
  size : UInt64 := 0
  data : List UInt8 := []
  /-- Described but not stored. -/
  zeroFilled : Bool := false
  deriving DecidableEq

/-- Where an input section ended up. -/
structure Placement where
  region : ℕ
  offset : UInt64
  deriving DecidableEq, Repr

/-- A definition that survived symbol resolution. -/
structure Definition where
  address : UInt64
  size : UInt64
  binding : SymbolBinding
  type : SymbolType
  object : ℕ
  deriving DecidableEq, Repr

inductive LinkError
  /-- An element or a run of bytes taken from outside a list. -/
  | outOfRange
  /-- The one diagnostic of a failed link. -/
  | failed (diagnostic : Diagnostic)
  deriving DecidableEq, Repr

def fail {α : Type} (code : ErrorCode) (message : String) : Except LinkError α :=
  .error (.failed (Diag.error code {} message))

/-- The element with an index. -/
def elementAt {α : Type} (xs : List α) (i : ℕ) : Except LinkError α :=
  match xs[i]? with
  | some x => .ok x
  | none => .error .outOfRange

/-! ### Stage 1: merging sections -/

/-- The regions, and where each section of each object was placed; a section that is not laid out
has no placement. -/
structure Layout where
  regions : List Region
  placements : List (List (Option Placement)) := []
  deriving DecidableEq

def initRegions (options : LinkOptions) : List Region :=
  [{ type := .text, segment := .text, flags := SegmentFlags.read ||| SegmentFlags.exec
     name := str ".text", base := options.textBase },
   { type := .rodata, segment := .rodata, flags := SegmentFlags.read
     name := str ".rodata", base := options.rodataBase },
   { type := .data, segment := .data, flags := SegmentFlags.read ||| SegmentFlags.write
     name := str ".data", base := options.dataBase },
   { type := .bss, segment := .bss, flags := SegmentFlags.read ||| SegmentFlags.write
     name := str ".bss", base := options.bssBase, zeroFilled := true }]

/-- The number of regions if there is none for the type. -/
def regionIndexFor (regions : List Region) (type : SectionType) : ℕ :=
  regions.findIdx fun region => region.type = type

/-- `std::vector::resize` with zeros. -/
def resize (bytes : List UInt8) (size : ℕ) : List UInt8 :=
  bytes.take size ++ List.replicate (size - bytes.length) 0

/-- A region with a section appended at an offset. -/
def Region.append (region : Region) (input : Section) (offset : UInt64) : Region where
  type := region.type
  segment := region.segment
  flags := region.flags
  name := region.name
  base := region.base
  size := offset + input.size
  data :=
    if region.zeroFilled then region.data
    else resize (resize region.data offset.toNat ++ input.data) (offset + input.size).toNat
  zeroFilled := region.zeroFilled

def mergeSection (state : List Region × List (Option Placement)) (input : Section) :
    Except LinkError (List Region × List (Option Placement)) :=
  let (regions, placed) := state
  if input.type = .null then .ok (regions, placed ++ [none])
  else
    let index := regionIndexFor regions input.type
    if index = regions.length then
      fail .invalidSectionReference s!"section '{input.name.text}' has no output region"
    else do
      let region ← elementAt regions index
      let offset := alignUp region.size input.alignment
      if offset > kRegionSize ∨ input.size > kRegionSize - offset then
        fail .relocationOverflow
          s!"{region.name.text} grows past its {kRegionSize / 1024} KiB region"
      else
        .ok (regions.set index (region.append input offset),
          placed ++ [some { region := index, offset }])

def mergeObject (layout : Layout) (object : ObjectFile) : Except LinkError Layout := do
  let (regions, placed) ← object.sections.foldlM mergeSection (layout.regions, [])
  return { regions, placements := layout.placements ++ [placed] }

def mergeSections (options : LinkOptions) (objects : List ObjectFile) : Except LinkError Layout :=
  objects.foldlM mergeObject { regions := initRegions options }

/-! ### Stage 2: resolving symbols -/

/-- The final address of a symbol that an object defines. -/
def addressOf (layout : Layout) (objectIndex : ℕ) (object : ObjectFile) (symbol : Symbol) :
    Except LinkError UInt64 :=
  if symbol.sectionId.toNat ≥ object.sections.length then
    fail .invalidSectionReference
      s!"symbol '{symbol.name.text}' names section {symbol.sectionId} of {object.sections.length}"
  else do
    let placed ← elementAt layout.placements objectIndex
    match ← elementAt placed symbol.sectionId.toNat with
    | none =>
      fail .invalidSectionReference
        s!"symbol '{symbol.name.text}' lives in a section that was not laid out"
    | some placement => do
      let region ← elementAt layout.regions placement.region
      return region.base + placement.offset + symbol.value

/-- The shared table of definitions, and the definitions private to an object. -/
structure Symbols where
  definitions : List (Str × Definition) := []
  locals : List (Str × Definition) := []
  deriving DecidableEq

/-- Puts a definition in the place of the one with the same name. -/
def replaceDefinition (definitions : List (Str × Definition)) (name : Str)
    (definition : Definition) :
    List (Str × Definition) :=
  definitions.map fun entry => if entry.1 = name then (name, definition) else entry

/-- Adds a definition of a name that is not local.  A strong one wins over a weak one, the first of
two weak ones stays. -/
def addDefinition (symbols : Symbols) (name : Str) (definition : Definition) :
    Except LinkError Symbols :=
  match symbols.definitions.lookup name with
  | none => .ok { symbols with definitions := symbols.definitions ++ [(name, definition)] }
  | some existing =>
    if existing.binding = .global ∧ definition.binding = .global then
      fail .duplicateSymbol s!"symbol '{name.text}' is defined in more than one object"
    else if existing.binding = .weak ∧ definition.binding = .global then
      .ok { symbols with definitions := replaceDefinition symbols.definitions name definition }
    else .ok symbols

def defineSymbol (layout : Layout) (objectIndex : ℕ) (object : ObjectFile) (symbols : Symbols)
    (symbol : Symbol) : Except LinkError Symbols :=
  if symbol.defined then do
    let address ← addressOf layout objectIndex object symbol
    let definition : Definition :=
      { address, size := symbol.size, binding := symbol.binding, type := symbol.type
        object := objectIndex }
    if symbol.binding = .local then
      .ok { symbols with locals := symbols.locals ++ [(symbol.name, definition)] }
    else addDefinition symbols symbol.name definition
  else .ok symbols

/-- How a message names an object. -/
def sourceNameOf (objectIndex : ℕ) (object : ObjectFile) : String :=
  match object.sourceFiles with
  | [] => s!"object #{objectIndex}"
  | file :: _ => file.text

/-- A reference that nothing defines is an error, or address 0 when it is weak. -/
def checkReference (objectIndex : ℕ) (object : ObjectFile)
    (definitions : List (Str × Definition)) (symbol : Symbol) :
    Except LinkError (List (Str × Definition)) :=
  if symbol.defined = true ∨ (definitions.lookup symbol.name).isSome then .ok definitions
  else if symbol.binding = .weak then
    .ok (definitions ++ [(symbol.name,
      { address := 0, size := 0, binding := .weak, type := symbol.type, object := objectIndex })])
  else
    fail .undefinedSymbol
      s!"undefined symbol '{symbol.name.text}' referenced by {sourceNameOf objectIndex object}"

/-- A loop over the symbols of every object. -/
def forSymbols {σ : Type} (step : ℕ → ObjectFile → σ → Symbol → Except LinkError σ)
    (objects : List ObjectFile) (state : σ) : Except LinkError σ :=
  objects.zipIdx.foldlM (fun state entry =>
    entry.1.symbols.symbols.foldlM (step entry.2 entry.1) state) state

def resolveSymbols (layout : Layout) (objects : List ObjectFile) : Except LinkError Symbols := do
  let symbols ← forSymbols (defineSymbol layout) objects {}
  let definitions ← forSymbols checkReference objects symbols.definitions
  return { symbols with definitions }

/-! ### Stage 3: applying relocations -/

/-- The address a relocation of an object refers to. -/
def targetOf (layout : Layout) (symbols : Symbols) (objectIndex : ℕ) (object : ObjectFile)
    (symbol : Symbol) : Except LinkError UInt64 :=
  if symbol.defined = true ∧ symbol.binding = .local then addressOf layout objectIndex object symbol
  else
    match symbols.definitions.lookup symbol.name with
    | none => fail .undefinedSymbol s!"undefined symbol '{symbol.name.text}'"
    | some definition => .ok definition.address

/-- Relocations are expressed against their own section, and shifted to the merged region. -/
def relocate (symbols : Symbols) (objectIndex : ℕ) (object : ObjectFile) (layout : Layout)
    (relocation : Relocation) : Except LinkError Layout :=
  if relocation.sectionId.toNat ≥ object.sections.length ∨
      relocation.symbol ≥ object.symbols.size then
    fail .invalidRelocation "relocation refers to a section or symbol that does not exist"
  else do
    let placed ← elementAt layout.placements objectIndex
    match ← elementAt placed relocation.sectionId.toNat with
    | none => fail .invalidRelocation "relocation targets a section that was not laid out"
    | some placement => do
      let region ← elementAt layout.regions placement.region
      if region.zeroFilled then
        fail .invalidRelocation s!"{region.name.text} cannot hold a relocation"
      else do
        let symbol ← elementAt object.symbols.symbols relocation.symbol
        let address ← targetOf layout symbols objectIndex object symbol
        let merged := { relocation with offset := placement.offset + relocation.offset }
        match applyRelocation region.data region.base merged address with
        | none => .error .outOfRange
        | some (.error e) =>
          let place := Binary.hexText 1 merged.offset.toNat
          fail (if e = .overflow then .relocationOverflow else .invalidRelocation)
            s!"{relocation.type.name} relocation for '{symbol.name.text}' at {
              region.name.text} + 0x{place}: {relocationErrorName e}"
        | some (.ok data) =>
          .ok { layout with regions := layout.regions.set placement.region { region with data } }

def applyRelocations (symbols : Symbols) (objects : List ObjectFile) (layout : Layout) :
    Except LinkError Layout :=
  objects.zipIdx.foldlM (fun layout entry =>
    entry.1.relocations.foldlM (relocate symbols entry.2 entry.1) layout) layout

/-! ### Stage 4: the executable -/

def segmentOf (region : Region) : Executable.Segment where
  type := region.segment
  flags := region.flags
  name := region.name
  virtualAddress := region.base
  virtualSize := region.size
  data := if region.zeroFilled then [] else region.data

def symbolKind : SymbolType → SymbolKind
  | .function => .function
  | .object => .object
  | _ => .none

def symbolEntry (entry : Str × Definition) : SymbolEntry where
  name := entry.1
  address := entry.2.address
  size := entry.2.size
  kind := symbolKind entry.2.type

/-- A local symbol is left out when its name is also a global one. -/
def symbolEntries (options : LinkOptions) (symbols : Symbols) : List SymbolEntry :=
  let globals := symbols.definitions.map symbolEntry
  let locals :=
    if options.keepLocalSymbols then
      (symbols.locals.filter fun entry => (symbols.definitions.lookup entry.1).isNone).map
      symbolEntry
    else []
  (globals ++ locals).mergeSort fun a b =>
    if a.address = b.address then a.name ≤ b.name else a.address < b.address

/-- The merged table of source files, and the line table. -/
structure DebugInfo where
  sourceFiles : List Str := []
  entries : List Executable.DebugEntry := []

/-- The index of a file in the merged table, which gets it when it is new. -/
def DebugInfo.fileIndex (info : DebugInfo) (file : Str) : UInt32 × DebugInfo :=
  match info.sourceFiles.findIdx? fun known => known = file with
  | some index => (UInt32.ofNat index, info)
  | none =>
    (UInt32.ofNat info.sourceFiles.length, { info with sourceFiles := info.sourceFiles ++ [file] })

def addDebugEntry (layout : Layout) (objectIndex : ℕ) (object : ObjectFile) (info : DebugInfo)
    (entry : DebugEntry) : Except LinkError DebugInfo :=
  if entry.sectionId.toNat ≥ object.sections.length ∨
      entry.file.toNat ≥ object.sourceFiles.length then .ok info
  else do
    let placed ← elementAt layout.placements objectIndex
    match ← elementAt placed entry.sectionId.toNat with
    | none => .ok info
    | some placement => do
      let file ← elementAt object.sourceFiles entry.file.toNat
      let (index, info) := info.fileIndex file
      let region ← elementAt layout.regions placement.region
      let address := region.base + placement.offset + entry.offset
      .ok { info with
        entries := info.entries ++
          [{ address, file := index, line := entry.line, column := entry.column }] }

def buildDebugInfo (layout : Layout) (objects : List ObjectFile) : Except LinkError DebugInfo := do
  let info ← objects.zipIdx.foldlM (fun info entry =>
    entry.1.debugInfo.foldlM (addDebugEntry layout entry.2 entry.1) info) {}
  return { info with entries := info.entries.mergeSort fun a b => a.address ≤ b.address }

def buildExecutable (options : LinkOptions) (layout : Layout) (symbols : Symbols)
    (objects : List ObjectFile) : Except LinkError Executable :=
  match symbols.definitions.lookup options.entry with
  | none =>
    fail .undefinedSymbol s!"entry point '{options.entry.text}' is not defined in any object"
  | some entry => do
    let info ← buildDebugInfo layout objects
    let executable : Executable :=
      { entryPoint := entry.address
        segments := (layout.regions.filter fun region => region.size ≠ 0).map segmentOf
        symbols := symbolEntries options symbols
        debugInfo := info.entries
        sourceFiles := info.sourceFiles }
    match validate executable with
    | .error message => fail .invalidExecutable message
    | .ok _ => .ok executable

/-- Links a list of objects. -/
def link (objects : List ObjectFile) (options : LinkOptions) : Except LinkError Executable :=
  if objects = [] then fail .invalidObject "no object files to link"
  else do
    let layout ← mergeSections options objects
    let symbols ← resolveSymbols layout objects
    let layout ← applyRelocations symbols objects layout
    buildExecutable options layout symbols objects

end Linker
end MiniTool
