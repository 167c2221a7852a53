import MiniToolchain.Assembler.Sema
import MiniToolchain.Ir.Ir

/-!
# Lowering a parsed file to the intermediate representation

`lower` turns the statements of a file into the items of its sections.  It reads operands with
`std::vector::at`, which throws when the operand is not there; analysis makes sure that it is.

## Main definitions

* `Lowerer`, `lowerStatement`, `lower`.
* `ItemWellFormed`, `Module.WellFormed` — what the items of a lowered file look like.
* `FrontEnd` — the modules the front end produces from one file.

## Main results

* `FrontEnd.wellFormed` — lowering an accepted file gives a well-formed module.
-/

namespace MiniTool
namespace Ir

open Ast Diag

/-- Appends an item to the section with this kind. -/
def Module.push (m : Module) (kind : SectionKind) (item : Item) : Module :=
  let m := m.sectionFor kind
  { m with
    sections := m.sections.modify (m.sections.findIdx fun s => s.kind = kind) fun s =>
      { s with items := s.items ++ [item] } }

/-- The state of the lowering of one file. -/
structure Lowerer where
  module : Module
  currentKind : SectionKind := .text
  diagnostics : DiagnosticEngine := {}
  failed : Bool := false

namespace Lowerer

def error (l : Lowerer) (location : SourceLocation) (code : ErrorCode) (message : String) :
    Lowerer :=
  { l with diagnostics := l.diagnostics.report (Diag.error code location message), failed := true }

def emit (l : Lowerer) (item : Item) : Lowerer :=
  { l with module := l.module.push l.currentKind item }

def emitAll (l : Lowerer) (items : List Item) : Lowerer := items.foldl emit l

/-- Rejects what would put initialised bytes in `.bss`, and otherwise emits it. -/
def emitInitialised (l : Lowerer) (location : SourceLocation) (what : String) (items : List Item) :
    Lowerer :=
  if l.currentKind = .bss then
    l.error location .invalidSectionReference
      s!"{what} cannot appear in .bss, which holds no data"
  else l.emitAll items

end Lowerer

/-- A run of literal bytes, if there is any. -/
def flush (location : SourceLocation) (pending : List UInt8) : List Item :=
  if pending.isEmpty then [] else [.bytes { data := pending, location }]

/-- The items of a data directive: literals share a run of bytes, a symbol is an item of its own. -/
def dataItems (location : SourceLocation) (width : UInt32) (pending : List UInt8) :
    List Operand → List Item
  | [] => flush location pending
  | operand :: rest =>
    if operand.type = .symbol then
      flush location pending ++
        [.symbolValue { width, symbol := { name := operand.symbol, addend := operand.immediate },
                        location := operand.location }] ++
        dataItems location width [] rest
    else
      dataItems location width
        (pending ++ ByteOrder.littleEndian width.toNat operand.immediate.toUInt64) rest

/-- A literal immediate or a symbol reference. -/
def setValue (instruction : Instruction) (operand : Operand) : Instruction :=
  if operand.type = .symbol then
    { instruction with
      symbol := some { name := operand.symbol, addend := operand.immediate },
      machine := { instruction.machine with imm := 0 } }
  else
    { instruction with machine := { instruction.machine with imm := operand.immediate } }

/-- The instruction of a statement. -/
def lowerInstruction (info : Isa.OpcodeInfo) (node : InstructionNode) : Option Instruction := do
  let instruction : Instruction :=
    { machine := { opcode := info.opcode }, location := node.location }
  match info.format with
  | .none => pure instruction
  | .reg1 =>
    let first ← node.operands[0]?
    pure { instruction with machine := { instruction.machine with dst := first.reg } }
  | .reg2 =>
    let first ← node.operands[0]?
    let second ← node.operands[1]?
    pure { instruction with
      machine := { instruction.machine with dst := first.reg, src := second.reg } }
  | .regImm =>
    let first ← node.operands[0]?
    let second ← node.operands[1]?
    pure (setValue
      { instruction with machine := { instruction.machine with dst := first.reg } } second)
  | .mem =>
    let first ← node.operands[0]?
    let second ← node.operands[1]?
    let store := info.opcode = .STORE
    let memory := if store then first else second
    let reg := if store then second else first
    pure { instruction with
      machine := { instruction.machine with
        dst := if store then memory.reg else reg.reg,
        src := if store then reg.reg else memory.reg,
        imm := memory.immediate } }
  | .jump =>
    let first ← node.operands[0]?
    pure (setValue instruction first)
  | .sysImm =>
    let first ← node.operands[0]?
    pure { instruction with machine := { instruction.machine with imm := first.immediate } }

def lowerInstructionNode (l : Lowerer) (node : InstructionNode) : Option Lowerer :=
  match Isa.findMnemonic node.mnemonic with
  | none =>
    some (l.error node.location .invalidOpcode s!"unknown instruction '{node.mnemonic.text}'")
  | some info =>
    if l.currentKind ≠ .text then
      some (l.error node.location .invalidSectionReference
        s!"instructions may only appear in .text, not in {(sectionName l.currentKind).text}")
    else (lowerInstruction info node).map fun instruction => l.emit (.instruction instruction)

def lowerDirective (l : Lowerer) (directive : DirectiveNode) : Option Lowerer :=
  match directive.type with
  | .section_ =>
    (directive.operands[0]?).map fun first =>
      match sectionKindFromName first.symbol with
      | none =>
        l.error directive.location .invalidSectionReference
          s!"unknown section '{first.symbol.text}'"
      | some kind => { l with currentKind := kind, module := l.module.sectionFor kind }
  | .global =>
    some { l with module := { l.module with
      globals := l.module.globals ++ directive.operands.map (·.symbol) } }
  | .external =>
    some { l with module := { l.module with
      externs := l.module.externs ++ directive.operands.map (·.symbol) } }
  | .weak =>
    some { l with module := { l.module with
      weaks := l.module.weaks ++ directive.operands.map (·.symbol) } }
  | .byte | .word | .dword | .qword =>
    some (l.emitInitialised directive.location (directiveName directive.type)
      (dataItems directive.location (dataDirectiveWidth directive.type) [] directive.operands))
  | .asciz =>
    if l.currentKind = .bss then some (l.emitInitialised directive.location ".asciz" [])
    else
      (directive.operands[0]?).map fun first =>
        -- the "z" of `.asciz`
        l.emitInitialised directive.location ".asciz"
          [.bytes { data := first.text ++ [0], location := directive.location }]
  | .align =>
    (directive.operands[0]?).map fun first =>
      l.emit (.align { alignment := first.immediate.toUInt64, location := directive.location })
  | .space =>
    (directive.operands[0]?).map fun first =>
      let fill :=
        match directive.operands[1]? with
        | some fill => (fill.immediate.toUInt64 &&& 0xFF).toUInt8
        | none => 0
      let item := Item.space
        { size := first.immediate.toUInt64, fill, location := directive.location }
      if fill ≠ 0 then
        l.emitInitialised directive.location ".space with a non-zero fill" [item]
      else l.emit item

/-- `none` when an operand is read that is not there. -/
def lowerStatement (l : Lowerer) : Statement → Option Lowerer
  | .instruction node => lowerInstructionNode l node
  | .directive node => lowerDirective l node
  | .label node =>
    some (l.emit (.label { name := node.name, isLocal := node.isLocal, location := node.location }))

inductive LowerError
  /-- `std::out_of_range`. -/
  | outOfRange
  | failed (message : String) (diagnostics : DiagnosticEngine)
  deriving DecidableEq, Repr

/-- Lowering before the first statement: every file starts in `.text`. -/
def startLowerer (sourceName : Str) (diagnostics : DiagnosticEngine) : Lowerer :=
  { module := Module.sectionFor { sourceName } .text, diagnostics }

def lower (program : Program) (sourceName : Str) (diagnostics : DiagnosticEngine) :
    Except LowerError (Module × DiagnosticEngine) :=
  match program.statements.foldlM lowerStatement (startLowerer sourceName diagnostics) with
  | none => .error .outOfRange
  | some l =>
    if l.failed then
      .error (.failed s!"{l.diagnostics.errorCount} error(s) lowering to IR" l.diagnostics)
    else .ok (l.module, l.diagnostics)

/-- The module lowered from one file that analysis accepts. -/
def FrontEnd (m : Module) : Prop :=
  ∃ program sourceName diagnostics diagnostics',
    Sema.Accepts program ∧ lower program sourceName diagnostics = .ok (m, diagnostics')

/-! ### What lowering gives -/

/-- An instruction as lowering makes it: only the immediate of a `MOVI`, a `LEA` or a branch can be
a symbol. -/
def InstructionWellFormed (instruction : Instruction) : Prop :=
  ∃ info, Isa.findOpcode instruction.machine.opcode = some info ∧
    (instruction.isSymbolic = true →
      (info.format = .regImm ∨ info.format = .jump) ∧ instruction.machine.imm = 0)

/-- What an item of a section of a lowered file looks like. -/
def ItemWellFormed (kind : SectionKind) : Item → Prop
  | .instruction i => kind = .text ∧ InstructionWellFormed i
  | .label _ => True
  | .bytes _ => kind ≠ .bss
  | .symbolValue v => kind ≠ .bss ∧ (v.width = 4 ∨ v.width = 8)
  | .space s => s.fill ≠ 0 → kind ≠ .bss
  | .align a => 0 < a.alignment ∧ a.alignment &&& (a.alignment - 1) = 0

structure Module.WellFormed (m : Module) : Prop where
  kinds : (m.sections.map Section.kind).Nodup
  named : ∀ s ∈ m.sections, s.name = sectionName s.kind ∧ s.alignment = 8
  items : ∀ s ∈ m.sections, ∀ item ∈ s.items, ItemWellFormed s.kind item

/-- The sections after an item is appended to one of them. -/
theorem mem_sections_push {m : Module} {kind : SectionKind} {item : Item} {s : Section}
    (hs : s ∈ (m.push kind item).sections) :
    s ∈ (m.sectionFor kind).sections ∨ ∃ s' ∈ (m.sectionFor kind).sections,
      s'.kind = kind ∧ s = { s' with items := s'.items ++ [item] } := by
  unfold Module.push at hs
  dsimp only at hs
  generalize m.sectionFor kind = m' at hs ⊢
  generalize hi : (m'.sections.findIdx fun s => decide (s.kind = kind)) = i at hs
  obtain ⟨j, hj, rfl⟩ := List.mem_iff_getElem.mp hs
  rw [List.length_modify] at hj
  rw [List.getElem_modify]
  split_ifs with hij
  · subst hij
    refine Or.inr ⟨_, List.getElem_mem hj, ?_, rfl⟩
    subst hi
    simpa using List.findIdx_getElem (w := hj)
  · exact Or.inl (List.getElem_mem hj)

theorem kinds_push (m : Module) (kind : SectionKind) (item : Item) :
    (m.push kind item).sections.map Section.kind =
      (m.sectionFor kind).sections.map Section.kind := by
  unfold Module.push
  dsimp only
  apply List.ext_getElem (by simp)
  intro j hj _
  simp only [List.getElem_map, List.getElem_modify]
  split_ifs
  · rfl
  · rfl

namespace Module.WellFormed

variable {m : Module}

theorem sectionFor (h : m.WellFormed) (kind : SectionKind) : (m.sectionFor kind).WellFormed := by
  unfold Module.sectionFor
  cases hfind : m.findSection kind with
  | some s => exact h
  | none =>
    have hnew : ∀ s ∈ m.sections, s.kind ≠ kind := by
      intro s hs
      simpa using List.find?_eq_none.mp hfind s hs
    refine ⟨?_, ?_, ?_⟩
    · rw [List.map_append, List.nodup_append]
      refine ⟨h.kinds, List.pairwise_singleton _ _, ?_⟩
      intro k hk k' hk' heq
      obtain ⟨s, hs, rfl⟩ := List.mem_map.mp hk
      simp only [List.map_singleton, List.mem_singleton] at hk'
      exact hnew s hs (heq.trans hk')
    · intro s hs
      rcases List.mem_append.mp hs with hs | hs
      · exact h.named s hs
      · rw [List.mem_singleton] at hs
        subst hs
        exact ⟨rfl, rfl⟩
    · intro s hs item hitem
      rcases List.mem_append.mp hs with hs | hs
      · exact h.items s hs item hitem
      · rw [List.mem_singleton] at hs
        subst hs
        cases hitem

theorem exists_section (kind : SectionKind) :
    ∃ s ∈ (m.sectionFor kind).sections, s.kind = kind := by
  unfold Module.sectionFor
  cases hfind : m.findSection kind with
  | some s => exact ⟨s, List.mem_of_find?_eq_some hfind, by simpa using List.find?_some hfind⟩
  | none => exact ⟨_, List.mem_append_right _ (List.mem_singleton_self _), rfl⟩

theorem push (h : m.WellFormed) {kind : SectionKind} {item : Item}
    (hitem : ItemWellFormed kind item) : (m.push kind item).WellFormed := by
  have hfor := h.sectionFor kind
  refine ⟨?_, ?_, ?_⟩
  · rw [kinds_push]
    exact hfor.kinds
  · intro s hs
    rcases mem_sections_push hs with hs | ⟨s', hs', -, rfl⟩
    · exact hfor.named s hs
    · exact hfor.named s' hs'
  · intro s hs other hother
    rcases mem_sections_push hs with hs | ⟨s', hs', hk, rfl⟩
    · exact hfor.items s hs other hother
    · rcases List.mem_append.mp hother with hother | hother
      · exact hfor.items s' hs' other hother
      · rw [List.mem_singleton] at hother
        rw [hother, hk]
        exact hitem

end Module.WellFormed

namespace Lowerer

/-- Nothing has gone wrong, and the module so far is well formed. -/
def Good (l : Lowerer) : Prop := l.failed = false ∧ l.module.WellFormed

variable {l : Lowerer}

theorem Good.emit (h : l.Good) {item : Item} (hitem : ItemWellFormed l.currentKind item) :
    (l.emit item).Good := ⟨h.1, h.2.push hitem⟩

theorem Good.emitAll (h : l.Good) {items : List Item}
    (hitems : ∀ item ∈ items, ItemWellFormed l.currentKind item) : (l.emitAll items).Good := by
  unfold Lowerer.emitAll
  induction items generalizing l with
  | nil => exact h
  | cons item items ih =>
    exact ih (h.emit (hitems item List.mem_cons_self))
      (fun other hother => hitems other (List.mem_cons_of_mem item hother))

theorem failed_emitAll (l : Lowerer) (items : List Item) : (l.emitAll items).failed = l.failed := by
  unfold Lowerer.emitAll
  induction items generalizing l with
  | nil => rfl
  | cons item items ih => exact (ih _).trans rfl

theorem Good.emitInitialised (h : l.Good) {location : SourceLocation} {what : String}
    {items : List Item}
    (hitems : l.currentKind ≠ .bss → ∀ item ∈ items, ItemWellFormed l.currentKind item)
    (hok : (l.emitInitialised location what items).failed = false) :
    (l.emitInitialised location what items).Good := by
  unfold Lowerer.emitInitialised at hok ⊢
  by_cases hbss : l.currentKind = .bss
  · rw [if_pos hbss] at hok
    cases hok
  · rw [if_neg hbss]
    exact h.emitAll (hitems hbss)

theorem failed_emitInitialised {location : SourceLocation} {what : String} {items : List Item}
    (hok : (l.emitInitialised location what items).failed = false) : l.failed = false := by
  unfold Lowerer.emitInitialised at hok
  split_ifs at hok
  · cases hok
  · rwa [failed_emitAll] at hok

end Lowerer

theorem dataItems_wellFormed {kind : SectionKind} (hkind : kind ≠ .bss) {location : SourceLocation}
    {width : UInt32} {operands : List Operand}
    (hwidth : ∀ operand ∈ operands, operand.type = .symbol → width = 4 ∨ width = 8)
    (pending : List UInt8) :
    ∀ item ∈ dataItems location width pending operands, ItemWellFormed kind item := by
  have hflush : ∀ pending, ∀ item ∈ flush location pending, ItemWellFormed kind item := by
    intro pending item hitem
    unfold flush at hitem
    split_ifs at hitem
    · cases hitem
    · rw [List.mem_singleton] at hitem
      subst hitem
      exact hkind
  induction operands generalizing pending with
  | nil => exact hflush pending
  | cons operand rest ih =>
    have ih := ih fun other hother => hwidth other (List.mem_cons_of_mem operand hother)
    unfold dataItems
    by_cases hsymbol : operand.type = .symbol
    · rw [if_pos hsymbol]
      intro item hitem
      rcases List.mem_append.mp hitem with hitem | hitem
      · rcases List.mem_append.mp hitem with hitem | hitem
        · exact hflush pending item hitem
        · rw [List.mem_singleton] at hitem
          subst hitem
          exact ⟨hkind, hwidth operand List.mem_cons_self hsymbol⟩
      · exact ih [] item hitem
    · rw [if_neg hsymbol]
      exact ih _

theorem lowerInstruction_wellFormed {info : Isa.OpcodeInfo} {node : InstructionNode}
    {instruction : Instruction} (hinfo : Isa.findOpcode info.opcode = some info)
    (h : lowerInstruction info node = some instruction) : InstructionWellFormed instruction := by
  have hset : ∀ (i : Instruction) (operand : Operand), i.machine.opcode = info.opcode →
      i.symbol = none → (info.format = .regImm ∨ info.format = .jump) →
      InstructionWellFormed (setValue i operand) := by
    intro i operand hopcode hnone hformat
    unfold setValue
    split_ifs
    · exact ⟨info, by rw [← hinfo, ← hopcode], fun _ => ⟨hformat, rfl⟩⟩
    · exact ⟨info, by rw [← hinfo, ← hopcode], fun hsymbolic => by
        simp [Instruction.isSymbolic, hnone] at hsymbolic⟩
  unfold lowerInstruction at h
  cases hformat : info.format <;> rw [hformat] at h <;>
    simp only [Option.bind_eq_bind, Option.bind_eq_some_iff, Option.pure_def,
      Option.some.injEq] at h
  case none =>
    subst h
    exact ⟨info, hinfo, fun hsymbolic => by cases hsymbolic⟩
  case reg1 | sysImm =>
    obtain ⟨first, -, rfl⟩ := h
    exact ⟨info, hinfo, fun hsymbolic => by cases hsymbolic⟩
  case reg2 | mem =>
    obtain ⟨first, -, second, -, rfl⟩ := h
    exact ⟨info, hinfo, fun hsymbolic => by cases hsymbolic⟩
  case regImm =>
    obtain ⟨first, -, second, -, rfl⟩ := h
    exact hset _ _ rfl rfl (Or.inl hformat)
  case jump =>
    obtain ⟨first, -, rfl⟩ := h
    exact hset _ _ rfl rfl (Or.inr hformat)

/-- What the check of a data directive says of its symbols. -/
theorem width_of_checkData {directive : DirectiveNode} (h : Sema.checkData directive = []) :
    ∀ operand ∈ directive.operands, operand.type = .symbol →
      dataDirectiveWidth directive.type = 4 ∨ dataDirectiveWidth directive.type = 8 := by
  intro operand hoperand hsymbol
  unfold Sema.checkData at h
  dsimp only at h
  split_ifs at h
  have hcheck := List.flatMap_eq_nil_iff.mp h operand hoperand
  unfold Sema.checkDataOperand at hcheck
  have hvalue : Sema.isValueOperand operand = true := by simp [Sema.isValueOperand, hsymbol]
  rw [if_neg (by simp [hvalue])] at hcheck
  split_ifs at hcheck with hwidth
  by_cases hfour : dataDirectiveWidth directive.type = 4
  · exact Or.inl hfour
  · right
    have hne : (dataDirectiveWidth directive.type).toNat ≠ 4 := fun heq =>
      hfour (UInt32.toNat_inj.mp heq)
    by_contra height
    have hne' : (dataDirectiveWidth directive.type).toNat ≠ 8 := fun heq =>
      height (UInt32.toNat_inj.mp heq)
    exact hwidth ⟨hsymbol, hne', hne⟩

/-- What the check of `.align` says of its operand. -/
theorem alignment_of_checkDirective {directive : DirectiveNode} {first : Operand}
    (htype : directive.type = .align) (hfirst : directive.operands[0]? = some first)
    (h : Sema.checkDirective directive = []) :
    0 < first.immediate.toUInt64 ∧
      first.immediate.toUInt64 &&& (first.immediate.toUInt64 - 1) = 0 := by
  have hget : directive.operands.getD 0 {} = first := by
    rw [List.getD_eq_getElem?_getD, hfirst, Option.getD_some]
  unfold Sema.checkDirective at h
  rw [htype, hget] at h
  dsimp only at h
  by_cases hcount : Sema.requireOperandCount directive 1 1 = []
  · by_cases hpos : first.type ≠ .immediate ∨ first.immediate ≤ 0
    · simp [hcount, hpos] at h
    · by_cases hpower : first.immediate.toUInt64 &&& (first.immediate.toUInt64 - 1) = 0
      · refine ⟨?_, hpower⟩
        rw [not_or] at hpos
        rw [UInt64.pos_iff_ne_zero]
        intro hzero
        apply hpos.2
        have hinj : first.immediate.toUInt64 = (0 : Int64).toUInt64 := hzero
        rw [ByteOrder.toUInt64_inj.mp hinj]
        decide
      · simp [hcount, hpos, hpower] at h
  · rw [if_pos hcount] at h
    exact absurd h hcount

theorem lowerDirective_good {l l' : Lowerer} {directive : DirectiveNode}
    (hcheck : Sema.checkDirective directive = []) (h : lowerDirective l directive = some l')
    (hok : l'.failed = false) : l.failed = false ∧ (l.Good → l'.Good) := by
  unfold lowerDirective at h
  have hdata : Sema.checkData directive = [] →
      some (l.emitInitialised directive.location (directiveName directive.type)
        (dataItems directive.location (dataDirectiveWidth directive.type) [] directive.operands)) =
        some l' → l.failed = false ∧ (l.Good → l'.Good) := by
    intro hcheck h
    cases h
    exact ⟨Lowerer.failed_emitInitialised hok, fun hgood => hgood.emitInitialised
      (fun hkind => dataItems_wellFormed hkind (width_of_checkData hcheck) []) hok⟩
  cases htype : directive.type <;> rw [htype] at h <;> dsimp only at h
  case section_ =>
    obtain ⟨first, -, rfl⟩ := Option.map_eq_some_iff.mp h
    cases hkind : sectionKindFromName first.symbol with
    | none =>
      rw [hkind] at hok
      cases hok
    | some kind =>
      rw [hkind] at hok
      exact ⟨hok, fun hgood => ⟨hok, hgood.2.sectionFor kind⟩⟩
  case global | external | weak =>
    cases h
    exact ⟨hok, fun hgood => ⟨hok, hgood.2.1, hgood.2.2, hgood.2.3⟩⟩
  case byte | word | dword | qword =>
    rw [← htype] at h
    refine hdata ?_ h
    unfold Sema.checkDirective at hcheck
    rw [htype] at hcheck
    exact hcheck
  case asciz =>
    split_ifs at h with hbss
    · cases h
      simp [Lowerer.emitInitialised, hbss, Lowerer.error] at hok
    · obtain ⟨first, -, rfl⟩ := Option.map_eq_some_iff.mp h
      refine ⟨Lowerer.failed_emitInitialised hok, fun hgood => hgood.emitInitialised ?_ hok⟩
      intro hkind item hitem
      rw [List.mem_singleton] at hitem
      subst hitem
      exact hkind
  case align =>
    obtain ⟨first, hfirst, rfl⟩ := Option.map_eq_some_iff.mp h
    exact ⟨hok, fun hgood => hgood.emit (alignment_of_checkDirective htype hfirst hcheck)⟩
  case space =>
    obtain ⟨first, -, rfl⟩ := Option.map_eq_some_iff.mp h
    split_ifs at hok ⊢ with hfill
    · refine ⟨Lowerer.failed_emitInitialised hok, fun hgood => hgood.emitInitialised ?_ hok⟩
      intro hkind item hitem
      rw [List.mem_singleton] at hitem
      subst hitem
      exact fun _ => hkind
    · exact ⟨hok, fun hgood => hgood.emit fun hne => absurd hne hfill⟩

theorem lowerStatement_good {l l' : Lowerer} {statement : Statement}
    (hcheck : Sema.checkStatement statement = []) (h : lowerStatement l statement = some l')
    (hok : l'.failed = false) : l.failed = false ∧ (l.Good → l'.Good) := by
  cases statement with
  | label node =>
    cases h
    exact ⟨hok, fun hgood => hgood.emit trivial⟩
  | directive node => exact lowerDirective_good hcheck h hok
  | instruction node =>
    change lowerInstructionNode l node = some l' at h
    unfold lowerInstructionNode at h
    cases hinfo : Isa.findMnemonic node.mnemonic with
    | none =>
      rw [hinfo] at h
      cases h
      cases hok
    | some info =>
      rw [hinfo] at h
      dsimp only at h
      split_ifs at h with hkind
      · cases h
        cases hok
      · obtain ⟨instruction, hlower, rfl⟩ := Option.map_eq_some_iff.mp h
        refine ⟨hok, fun hgood => hgood.emit ⟨by simpa using hkind, ?_⟩⟩
        exact lowerInstruction_wellFormed (Isa.findOpcode_of_findMnemonic hinfo) hlower

/-- Lowering an accepted file gives a well-formed module. -/
theorem FrontEnd.wellFormed {m : Module} (h : FrontEnd m) : m.WellFormed := by
  obtain ⟨program, sourceName, diagnostics, diagnostics', haccepts, hlower⟩ := h
  unfold lower at hlower
  have hstart : (startLowerer sourceName diagnostics).Good := by
    have hempty : Module.WellFormed { sourceName } :=
      ⟨List.nodup_nil, by simp, by simp⟩
    exact ⟨rfl, hempty.sectionFor .text⟩
  have hrun : ∀ (statements : List Statement) (l l' : Lowerer),
      (∀ statement ∈ statements, Sema.checkStatement statement = []) →
      statements.foldlM lowerStatement l = some l' → l'.failed = false →
      l.failed = false ∧ (l.Good → l'.Good) := by
    intro statements
    induction statements with
    | nil =>
      intro l l' _ hfold hok
      cases hfold
      exact ⟨hok, id⟩
    | cons statement rest ih =>
      intro l l' hchecks hfold hok
      rw [List.foldlM_cons] at hfold
      obtain ⟨l₁, hstep, hrest⟩ := Option.bind_eq_some_iff.mp hfold
      obtain ⟨hok₁, hgood₁⟩ := ih l₁ l'
        (fun other hother => hchecks other (List.mem_cons_of_mem statement hother)) hrest hok
      obtain ⟨hok₀, hgood₀⟩ :=
        lowerStatement_good (hchecks statement List.mem_cons_self) hstep hok₁
      exact ⟨hok₀, fun hgood => hgood₁ (hgood₀ hgood)⟩
  cases hfold : program.statements.foldlM lowerStatement (startLowerer sourceName diagnostics) with
  | none =>
    rw [hfold] at hlower
    cases hlower
  | some l =>
    rw [hfold] at hlower
    dsimp only at hlower
    split_ifs at hlower with hfailed
    cases hlower
    exact ((hrun program.statements _ l (fun statement hs => Sema.accepted_statement haccepts hs)
      hfold (by simpa using hfailed)).2 hstart).2

end Ir
end MiniTool
