import MiniToolchain.Assembler.Passes
import MiniToolchain.Ir.Instructions
import MiniToolchain.Optimizer.Instructions

/-!
# What the assembler can encode

Analysis, lowering and the optimizer leave nothing for the encoder to reject, but for two things
that none of them looks at: the displacement of a `LOAD` or a `STORE`, and whether a register
operand names a register.

## Main definitions

* `Regular` — the encoder can object to the registers or a displacement only.
* `Fits` — it does not.
* `NeverRejects` — every instruction the second pass gets to is encoded.

## Main results

* `neverRejects_iff` — when the encoder rejects nothing.
* `rejected_displacement` — an accepted file with a displacement that is not encoded.
-/

namespace MiniTool
namespace Assembler

open Object AssemblyContext Ast

/-! ### Instructions -/

/-- The fields that the format does not use are zero, and an immediate that is no displacement of a
`LOAD` or a `STORE` is in range. -/
structure Shaped (format : Isa.Format) (machine : Isa.Instruction) : Prop where
  dst : (Isa.fieldsOf format).usesDst = false → machine.dst = .R0
  src : (Isa.fieldsOf format).usesSrc = false → machine.src = .R0
  imm : (Isa.fieldsOf format).usesImm = false → machine.imm = 0
  signed : format ≠ .mem → (Isa.fieldsOf format).usesImm = true →
    (Isa.fieldsOf format).immSigned = true →
    ByteOrder.fitsSigned machine.imm Isa.kImmediateBits = true
  unsigned : (Isa.fieldsOf format).usesImm = true → (Isa.fieldsOf format).immSigned = false →
    ¬(machine.imm < 0 ∨ ByteOrder.fitsUnsigned machine.imm.toUInt64 Isa.kImmediateBits = false)

/-- The encoder can object to the registers or a displacement only. -/
def Regular (i : Ir.Instruction) : Prop :=
  ∃ info, Isa.findOpcode i.machine.opcode = some info ∧ Shaped info.format (placeholder i) ∧
    (i.isSymbolic = true → info.format ≠ .mem)

/-- The registers are registers, and the displacement of a `LOAD` or a `STORE` fits its field. -/
def Fits (i : Ir.Instruction) : Prop :=
  Isa.isValidRegister i.machine.dst = true ∧ Isa.isValidRegister i.machine.src = true ∧
    (Isa.formatOf i.machine.opcode = some .mem →
      ByteOrder.fitsSigned i.machine.imm Isa.kImmediateBits = true)

theorem isValidRegister_iff {reg : Isa.Reg} :
    Isa.isValidRegister reg = true ↔ Isa.registerIndex reg < 16 := by
  unfold Isa.isValidRegister
  exact decide_eq_true_iff

/-- Encoding a regular instruction. -/
theorem encodable_iff_fits {i : Ir.Instruction} (h : Regular i) :
    (∃ w, Isa.encode (placeholder i) = .ok w) ↔ Fits i := by
  obtain ⟨info, hinfo, hshaped, hsymbolic⟩ := h
  obtain ⟨hopcode, hdst, hsrc⟩ := placeholder_fields i
  have hformat : Isa.formatOf i.machine.opcode = some info.format := by
    unfold Isa.formatOf
    rw [hinfo, Option.map_some]
  constructor
  · rintro ⟨w, hw⟩
    obtain ⟨info', hinfo', hcanonical, -⟩ := Isa.encode_eq_ok_iff.mp hw
    rw [hopcode] at hinfo'
    cases hinfo.symm.trans hinfo'
    refine ⟨?_, ?_, ?_⟩
    · rw [← hdst]
      exact isValidRegister_iff.mpr hcanonical.dstValid
    · rw [← hsrc]
      exact isValidRegister_iff.mpr hcanonical.srcValid
    · intro hmem
      have hmem : info.format = .mem := Option.some.inj (hformat.symm.trans hmem)
      have hplain : i.isSymbolic ≠ true := fun hsym => hsymbolic hsym hmem
      have hsame : placeholder i = i.machine := if_neg hplain
      have hsigned := hcanonical.signed (by rw [hmem]; rfl) (by rw [hmem]; rfl)
      rw [hsame] at hsigned
      exact (Isa.signedImm_iff _).mpr hsigned
  · rintro ⟨hdstValid, hsrcValid, hdisplacement⟩
    have hcanonical : Isa.Canonical (Isa.fieldsOf info.format) (placeholder i) := {
      dstValid := by
        rw [hdst]
        exact isValidRegister_iff.mp hdstValid
      srcValid := by
        rw [hsrc]
        exact isValidRegister_iff.mp hsrcValid
      dst := hshaped.dst
      src := hshaped.src
      imm := hshaped.imm
      signed := by
        intro huses hsigned
        apply (Isa.signedImm_iff _).mp
        by_cases hmem : info.format = .mem
        · have hplain : i.isSymbolic ≠ true := fun hsym => hsymbolic hsym hmem
          have hsame : placeholder i = i.machine := if_neg hplain
          rw [hsame]
          exact hdisplacement (by rw [hformat, hmem])
        · exact hshaped.signed hmem huses hsigned
      unsigned := fun huses hunsigned =>
        (Isa.unsignedImm_iff _).mp (hshaped.unsigned huses hunsigned) }
    exact Isa.exists_encode ⟨info, by rw [hopcode, hinfo], hcanonical⟩

/-! ### Lowering -/

/-- The registers of checked operands are registers, and a displacement fits its field. -/
def OperandsFit (info : Isa.OpcodeInfo) (first second : Operand) : Prop :=
  match info.format with
  | .none | .jump | .sysImm => True
  | .reg1 | .regImm => Isa.isValidRegister first.reg = true
  | .reg2 => Isa.isValidRegister first.reg = true ∧ Isa.isValidRegister second.reg = true
  | .mem =>
    Isa.isValidRegister first.reg = true ∧ Isa.isValidRegister second.reg = true ∧
      ByteOrder.fitsSigned (if info.opcode = .STORE then first else second).immediate
        Isa.kImmediateBits = true

def StatementFits : Statement → Prop
  | .instruction node => ∀ info, Isa.findMnemonic node.mnemonic = some info →
      OperandsFit info (node.operands.getD 0 {}) (node.operands.getD 1 {})
  | _ => True

/-- What lowering puts into the instruction it makes of two operands. -/
theorem lowerInstruction_eq {info : Isa.OpcodeInfo} {node : InstructionNode} {i : Ir.Instruction}
    (h : Ir.lowerInstruction info node = some i) :
    i.machine.opcode = info.opcode ∧
    match info.format with
    | .none => i.symbol = none ∧ i.machine = { opcode := info.opcode }
    | .reg1 => i.symbol = none ∧
        i.machine = { opcode := info.opcode, dst := (node.operands.getD 0 {}).reg }
    | .reg2 => i.symbol = none ∧ i.machine =
        { opcode := info.opcode, dst := (node.operands.getD 0 {}).reg
          src := (node.operands.getD 1 {}).reg }
    | .regImm => placeholder i =
        { opcode := info.opcode, dst := (node.operands.getD 0 {}).reg
          imm := if (node.operands.getD 1 {}).type = .symbol then 0
            else (node.operands.getD 1 {}).immediate } ∧
        i.machine.dst = (node.operands.getD 0 {}).reg ∧ i.machine.src = .R0
    | .mem => i.symbol = none ∧ i.machine =
        if info.opcode = .STORE then
          { opcode := info.opcode, dst := (node.operands.getD 0 {}).reg
            src := (node.operands.getD 1 {}).reg, imm := (node.operands.getD 0 {}).immediate }
        else
          { opcode := info.opcode, dst := (node.operands.getD 0 {}).reg
            src := (node.operands.getD 1 {}).reg, imm := (node.operands.getD 1 {}).immediate }
    | .jump => placeholder i =
        { opcode := info.opcode
          imm := if (node.operands.getD 0 {}).type = .symbol then 0
            else (node.operands.getD 0 {}).immediate } ∧
        i.machine.dst = .R0 ∧ i.machine.src = .R0
    | .sysImm => i.symbol = none ∧
        i.machine = { opcode := info.opcode, imm := (node.operands.getD 0 {}).immediate } := by
  have hget : ∀ {k : ℕ} {operand : Operand}, node.operands[k]? = some operand →
      node.operands.getD k {} = operand := by
    intro k operand hk
    rw [List.getD_eq_getElem?_getD, hk]
    rfl
  unfold Ir.lowerInstruction at h
  cases hformat : info.format <;> rw [hformat] at h <;>
    simp only [Option.bind_eq_bind, Option.bind_eq_some_iff, Option.pure_def,
      Option.some.injEq] at h
  case none =>
    subst h
    exact ⟨rfl, rfl, rfl⟩
  case reg1 =>
    obtain ⟨first, hfirst, rfl⟩ := h
    rw [hget hfirst]
    exact ⟨rfl, rfl, rfl⟩
  case reg2 =>
    obtain ⟨first, hfirst, second, hsecond, rfl⟩ := h
    rw [hget hfirst, hget hsecond]
    exact ⟨rfl, rfl, rfl⟩
  case regImm =>
    obtain ⟨first, hfirst, second, hsecond, rfl⟩ := h
    rw [hget hfirst, hget hsecond]
    unfold Ir.setValue
    by_cases hsymbol : second.type = .symbol
    · simp only [hsymbol, if_true, and_true, true_and]
      rfl
    · simp only [hsymbol, if_false, and_true, true_and]
      rfl
  case mem =>
    obtain ⟨first, hfirst, second, hsecond, rfl⟩ := h
    rw [hget hfirst, hget hsecond]
    by_cases hstore : info.opcode = .STORE
    · simp only [hstore, if_true, and_self]
    · simp only [hstore, if_false, and_self]
  case jump =>
    obtain ⟨first, hfirst, rfl⟩ := h
    rw [hget hfirst]
    unfold Ir.setValue
    by_cases hsymbol : first.type = .symbol
    · simp only [hsymbol, if_true, and_true, true_and]
      rfl
    · simp only [hsymbol, if_false, and_true, true_and]
      rfl
  case sysImm =>
    obtain ⟨first, hfirst, rfl⟩ := h
    rw [hget hfirst]
    exact ⟨rfl, rfl, rfl⟩

/-- The immediate of a checked literal or symbol. -/
theorem fitsSigned_of_value {operand : Operand} {what : String}
    (hvalue : Sema.isValueOperand operand = true)
    (hrange : Sema.checkSignedRange operand Isa.kImmediateBits what = []) :
    ByteOrder.fitsSigned (if operand.type = .symbol then 0 else operand.immediate)
      Isa.kImmediateBits = true := by
  split_ifs with hsymbol
  · decide
  · have himmediate : operand.type = .immediate := by
      unfold Sema.isValueOperand at hvalue
      simp only [Bool.or_eq_true, decide_eq_true_eq] at hvalue
      exact hvalue.resolve_right hsymbol
    unfold Sema.checkSignedRange at hrange
    rw [if_neg (not_not.mpr himmediate)] at hrange
    split_ifs at hrange with hfits
    exact hfits

/-- Checked operands become a regular instruction. -/
theorem regular_of_checkOperands {info : Isa.OpcodeInfo} {node : InstructionNode}
    {i : Ir.Instruction} (hinfo : Isa.findOpcode info.opcode = some info)
    (hcheck : Sema.checkOperands info (node.operands.getD 0 {}) (node.operands.getD 1 {}) = [])
    (h : Ir.lowerInstruction info node = some i) : Regular i := by
  obtain ⟨hopcode, hfields⟩ := lowerInstruction_eq h
  have hplain : i.symbol = none → placeholder i = i.machine ∧ i.isSymbolic ≠ true := by
    intro hnone
    have hnot : i.isSymbolic ≠ true := by simp [Ir.Instruction.isSymbolic, hnone]
    exact ⟨if_neg hnot, hnot⟩
  refine ⟨info, by rw [hopcode, hinfo], ?_⟩
  generalize node.operands.getD 0 {} = first at hcheck hfields
  generalize node.operands.getD 1 {} = second at hcheck hfields
  unfold Sema.checkOperands at hcheck
  cases hformat : info.format <;> rw [hformat] at hcheck hfields <;> dsimp only at hcheck hfields
  case none =>
    obtain ⟨hnone, hmachine⟩ := hfields
    rw [(hplain hnone).1, hmachine]
    exact ⟨⟨fun _ => rfl, fun _ => rfl, fun _ => rfl, fun _ h => absurd h (by decide),
      fun h => absurd h (by decide)⟩, fun _ => Isa.Format.noConfusion⟩
  case reg1 =>
    obtain ⟨hnone, hmachine⟩ := hfields
    rw [(hplain hnone).1, hmachine]
    exact ⟨⟨fun h => absurd h (by decide), fun _ => rfl, fun _ => rfl,
      fun _ h => absurd h (by decide), fun h => absurd h (by decide)⟩,
        fun _ => Isa.Format.noConfusion⟩
  case reg2 =>
    obtain ⟨hnone, hmachine⟩ := hfields
    rw [(hplain hnone).1, hmachine]
    exact ⟨⟨fun h => absurd h (by decide), fun h => absurd h (by decide), fun _ => rfl,
      fun _ h => absurd h (by decide), fun h => absurd h (by decide)⟩,
        fun _ => Isa.Format.noConfusion⟩
  case regImm =>
    obtain ⟨hmachine, -, -⟩ := hfields
    split_ifs at hcheck with hkind
    obtain ⟨hregister, hrange⟩ := List.append_eq_nil_iff.mp hcheck
    have hvalue : Sema.isValueOperand second = true := by
      by_contra hnot
      exact hkind ⟨hregister, by simpa using hnot⟩
    rw [hmachine]
    exact ⟨⟨fun h => absurd h (by decide), fun _ => rfl, fun h => absurd h (by decide),
      fun _ _ _ => fitsSigned_of_value hvalue hrange, fun _ h => absurd h (by decide)⟩,
        fun _ => Isa.Format.noConfusion⟩
  case mem =>
    obtain ⟨hnone, -⟩ := hfields
    refine ⟨⟨fun h => absurd h (by decide), fun h => absurd h (by decide),
      fun h => absurd h (by decide), fun hmem => absurd rfl hmem, fun _ h => absurd h (by decide)⟩,
        ?_⟩
    exact fun hsymbolic => absurd hsymbolic (hplain hnone).2
  case jump =>
    obtain ⟨hmachine, -, -⟩ := hfields
    split_ifs at hcheck with hvalue hrange
    · exact absurd hcheck hrange
    · rw [hmachine]
      have hfits := fitsSigned_of_value (by simpa using hvalue) (not_not.mp hrange)
      exact ⟨⟨fun _ => rfl, fun _ => rfl, fun h => absurd h (by decide), fun _ _ _ => hfits,
        fun _ h => absurd h (by decide)⟩, fun _ => Isa.Format.noConfusion⟩
  case sysImm =>
    obtain ⟨hnone, hmachine⟩ := hfields
    split_ifs at hcheck with htype hrange
    rw [(hplain hnone).1, hmachine]
    exact ⟨⟨fun _ => rfl, fun _ => rfl, fun h => absurd h (by decide),
      fun _ _ h => absurd h (by decide), fun _ _ => hrange⟩, fun _ => Isa.Format.noConfusion⟩

theorem fits_of_operandsFit {info : Isa.OpcodeInfo} {node : InstructionNode} {i : Ir.Instruction}
    (hinfo : Isa.findOpcode info.opcode = some info)
    (h : Ir.lowerInstruction info node = some i) :
    Fits i ↔ OperandsFit info (node.operands.getD 0 {}) (node.operands.getD 1 {}) := by
  obtain ⟨hopcode, hfields⟩ := lowerInstruction_eq h
  have hformat : Isa.formatOf i.machine.opcode = some info.format := by
    unfold Isa.formatOf
    rw [hopcode, hinfo, Option.map_some]
  have hzero : Isa.isValidRegister .R0 = true := by decide
  generalize node.operands.getD 0 {} = first at hfields ⊢
  generalize node.operands.getD 1 {} = second at hfields ⊢
  unfold Fits OperandsFit
  rw [hformat]
  cases hcase : info.format <;> rw [hcase] at hfields <;> dsimp only at hfields ⊢
  case none | reg1 | reg2 | sysImm =>
    obtain ⟨-, hmachine⟩ := hfields
    rw [hmachine]
    simp [hzero]
  case regImm | jump =>
    obtain ⟨-, hdst, hsrc⟩ := hfields
    rw [hdst, hsrc]
    simp [hzero]
  case mem =>
    obtain ⟨-, hmachine⟩ := hfields
    rw [hmachine]
    split_ifs <;> simp

/-! ### The optimizer -/

theorem closed_regular : Optimizer.Closed Regular where
  move := by
    intro i j hi _ hpush _
    obtain ⟨info, hinfo, hshaped, -⟩ := hi
    rw [hpush] at hinfo
    have hreg1 : info.format = .reg1 := by
      cases hinfo
      rfl
    -- a `PUSH` has no immediate, symbolic or not
    have himm := hshaped.imm (by rw [hreg1]; rfl)
    have hsame : (placeholder (Optimizer.toMov i j)).imm = (placeholder i).imm := by
      unfold placeholder Optimizer.toMov Ir.Instruction.isSymbolic
      dsimp only
      split_ifs <;> rfl
    exact ⟨_, rfl, ⟨nofun, nofun, fun _ => hsame.trans himm, nofun, nofun⟩, fun _ => nofun⟩
  value := by
    intro i value _ hsymbolic hfits
    have hplain : placeholder (Optimizer.toMovi i value) = (Optimizer.toMovi i value).machine :=
      if_neg (fun hsym => by
        have hsame : (Optimizer.toMovi i value).isSymbolic = i.isSymbolic := rfl
        rw [hsame, hsymbolic] at hsym
        cases hsym)
    refine ⟨_, rfl, ?_, fun _ => nofun⟩
    rw [hplain]
    exact ⟨nofun, fun _ => rfl, nofun, fun _ _ _ => hfits, nofun⟩

theorem closed_fits : Optimizer.Closed Fits where
  move := fun hi hj _ _ => ⟨hj.1, hi.1, nofun⟩
  value := fun hi _ _ => ⟨hi.1, rfl, nofun⟩

section

variable {program : Program} {sourceName : Str} {diagnostics diagnostics' : Diag.DiagnosticEngine}
  {m : Ir.Module}

/-- The instructions of an accepted file, optimised or not. -/
theorem regular_of_run (haccepts : Sema.Accepts program)
    (hlower : Ir.lower program sourceName diagnostics = .ok (m, diagnostics')) (oob : ℕ → Bool)
    (level : Optimizer.OptLevel) :
    ∀ s ∈ (Optimizer.run oob level m).1.sections, ∀ i, .instruction i ∈ s.items → Regular i := by
  apply closed_regular.instructions_run
  intro s hs i hi
  obtain ⟨statement, hmem, node, info, rfl, hinfo, hlowers⟩ :=
    (Ir.has_of_lower haccepts hlower i).mp ⟨s, hs, hi⟩
  have hcheck : Sema.checkInstruction node = [] := Sema.accepted_statement haccepts hmem
  unfold Sema.checkInstruction at hcheck
  rw [hinfo] at hcheck
  dsimp only at hcheck
  split_ifs at hcheck
  exact regular_of_checkOperands (Isa.findOpcode_of_findMnemonic hinfo) hcheck hlowers

/-- The instructions of a file whose operands fit. -/
theorem fits_of_run (haccepts : Sema.Accepts program)
    (hlower : Ir.lower program sourceName diagnostics = .ok (m, diagnostics'))
    (hfits : ∀ statement ∈ program.statements, StatementFits statement) (oob : ℕ → Bool)
    (level : Optimizer.OptLevel) :
    ∀ s ∈ (Optimizer.run oob level m).1.sections, ∀ i, .instruction i ∈ s.items → Fits i := by
  apply closed_fits.instructions_run
  intro s hs i hi
  obtain ⟨statement, hmem, node, info, rfl, hinfo, hlowers⟩ :=
    (Ir.has_of_lower haccepts hlower i).mp ⟨s, hs, hi⟩
  exact (fits_of_operandsFit (Isa.findOpcode_of_findMnemonic hinfo) hlowers).mpr
    (hfits _ hmem info hinfo)

end

/-! ### The second pass -/

/-- Every instruction the second pass passes to the encoder is encoded. -/
def NeverRejects (memory : ℕ) (m : Ir.Module) (diagnostics : Diag.DiagnosticEngine) : Prop :=
  ∀ done source index rest before i after c bytes,
    (orderedSections m).zipIdx = done ++ (source, index) :: rest →
    source.items = before ++ .instruction i :: after →
    secondPass memory m diagnostics done index before = .ok (c, bytes) →
      ∃ out, Isa.encodeInto (List.replicate Isa.kInstructionSize 0) (placeholder i) = .ok out

/-- The instructions fit, up to where a vector cannot hold `.text`. -/
def TextFits (memory : ℕ) (m : Ir.Module) (diagnostics : Diag.DiagnosticEngine) : Prop :=
  ∀ source before i after, m.findSection .text = some source →
    source.items = before ++ .instruction i :: after →
    (firstPass m diagnostics [] 0 source.items).2.offset.toNat ≤ capacity memory →
    endOf before ≤ capacity memory → Fits i

section

variable {memory : ℕ} {m : Ir.Module} {diagnostics : Diag.DiagnosticEngine} {source : Ir.Section}

/-- `.text` is the first section, unless it is empty. -/
theorem orderedSections_text (hfind : m.findSection .text = some source)
    (hitems : source.items ≠ []) :
    ∃ rest, orderedSections m = source :: rest ∧ ∀ s ∈ rest, s.kind ≠ .text := by
  have hempty : (!source.items.isEmpty) = true := by simpa using hitems
  refine ⟨([.rodata, .data, .bss] : List Ir.SectionKind).filterMap fun kind =>
    (m.findSection kind).filter fun source => !source.items.isEmpty, ?_, ?_⟩
  · unfold orderedSections
    show List.filterMap _ (Ir.SectionKind.text :: [.rodata, .data, .bss]) = _
    rw [List.filterMap_cons_some (b := source)]
    rw [hfind, Option.filter_some, if_pos hempty]
  · intro s hs htext
    obtain ⟨kind, hkind, hs⟩ := List.mem_filterMap.mp hs
    have hsome : m.findSection kind = some s := Option.eq_some_of_filter_eq_some hs
    have hthis : s.kind = kind := by simpa using List.find?_some hsome
    rw [← hthis, htext] at hkind
    revert hkind
    decide

/-- The size of the first section, as the first pass adds it up. -/
theorem size_beforeEmit {rest : List Ir.Section} (hordered : orderedSections m = source :: rest) :
    ((beforeEmit m diagnostics).object.sections.getD 0 {}).size =
      (firstPass m diagnostics [] 0 source.items).2.offset := by
  have hsizes : (beforeEmit m diagnostics).object.sections[0]?.map Section.size =
      some (firstPass m diagnostics [] 0 source.items).2.offset := by
    unfold beforeEmit
    rw [sections_applyBindings]
    unfold AssemblyContext.layoutAndDefineSymbols
    rw [hordered, List.zipIdx_cons, List.foldl_cons, sizes_layoutSections_lt (by omega),
      sections_layoutSection, if_pos rfl]
    have hget : (AssemblyContext.collectSections { diagnostics } m).object.sections[0]? =
        some (objectSection 0 source) := by
      show ((orderedSections m).mapIdx objectSection)[0]? = _
      rw [hordered, List.getElem?_mapIdx]
      rfl
    rw [hget]
    rfl
  obtain ⟨s, hs, hsize⟩ := Option.map_eq_some_iff.mp hsizes
  rw [List.getD_eq_getElem?_getD, hs]
  exact hsize

/-- When the second pass gets to an instruction of `.text`. -/
theorem secondPass_text (hfind : m.findSection .text = some source) {before : List Ir.Item}
    {i : Ir.Instruction} {after : List Ir.Item}
    (hitems : source.items = before ++ .instruction i :: after) :
    (∃ c bytes, secondPass memory m diagnostics [] 0 before = .ok (c, bytes)) ↔
      (firstPass m diagnostics [] 0 source.items).2.offset.toNat ≤ capacity memory ∧
        endOf before ≤ capacity memory := by
  have hne : source.items ≠ [] := by
    rw [hitems]
    exact List.append_ne_nil_of_right_ne_nil _ (List.cons_ne_nil _ _)
  obtain ⟨rest, hordered, -⟩ := orderedSections_text hfind hne
  have hpass : secondPass memory m diagnostics [] 0 before = (do
      allocate memory (firstPass m diagnostics [] 0 source.items).2.offset.toNat
      before.foldlM (emitItem memory 0) (beforeEmit m diagnostics, [])) := by
    rw [← size_beforeEmit hordered]
    rfl
  rw [hpass]
  constructor
  · rintro ⟨c, bytes, h⟩
    obtain ⟨⟨⟩, hsize, h⟩ := Checked.bind_eq_ok.mp h
    obtain ⟨-, hlength, hmax, -, -⟩ := emitItems_bytes (Nat.zero_le _) h
    have hend : bytes.length = endOf before := hlength
    exact ⟨allocate_eq_ok.mp hsize, hend ▸ hmax⟩
  · rintro ⟨hsize, hend⟩
    obtain ⟨⟨c, bytes⟩, h⟩ := @exists_emitItems memory 0 _ (beforeEmit m diagnostics) [] hend
    rw [allocate_eq_ok.mpr hsize]
    exact ⟨c, bytes, h⟩

/-- Instructions are in `.text`, which the second pass starts with. -/
theorem text_of_instruction {done rest : List (Ir.Section × ℕ)} {index : ℕ}
    (hsections : (orderedSections m).zipIdx = done ++ (source, index) :: rest)
    (htext : source.kind = .text) (hitems : source.items ≠ []) :
    m.findSection .text = some source ∧ done = [] ∧ index = 0 := by
  have hmem : source ∈ orderedSections m :=
    List.mem_of_getElem? (List.mem_zipIdx_iff_getElem?.mp (mem_of_done hsections).1)
  have hfind : m.findSection .text = some source := by
    obtain ⟨kind, -, hs⟩ := List.mem_filterMap.mp hmem
    have hsome : m.findSection kind = some source := Option.eq_some_of_filter_eq_some hs
    have hkind : source.kind = kind := by simpa using List.find?_some hsome
    rw [← hkind, htext] at hsome
    exact hsome
  obtain ⟨others, hordered, hother⟩ := orderedSections_text hfind hitems
  rw [hordered, List.zipIdx_cons] at hsections
  refine ⟨hfind, ?_⟩
  cases done with
  | nil =>
    cases hsections
    exact ⟨rfl, rfl⟩
  | cons entry done =>
    -- the sections after the first are not `.text`
    obtain ⟨-, hsections⟩ := List.cons.inj hsections
    have hin : (source, index) ∈ others.zipIdx 1 := by
      rw [hsections]
      exact List.mem_append_right _ List.mem_cons_self
    exact absurd htext (hother source (List.fst_mem_of_mem_zipIdx hin))

/-- The instructions that reach the encoder are those of `.text` that a vector has room for. -/
theorem neverRejects_iff_textFits (h : Produced m)
    (hregular : ∀ s ∈ m.sections, ∀ i, .instruction i ∈ s.items → Regular i) :
    NeverRejects memory m diagnostics ↔ TextFits memory m diagnostics := by
  have hencode : ∀ {s : Ir.Section}, s ∈ m.sections → ∀ {i : Ir.Instruction},
      .instruction i ∈ s.items → ((∃ out, Isa.encodeInto
        (List.replicate Isa.kInstructionSize 0) (placeholder i) = .ok out) ↔ Fits i) := by
    intro s hs i hi
    rw [← encodable_iff_fits (hregular s hs i hi)]
    constructor
    · rintro ⟨out, hout⟩
      obtain ⟨w, hw, -⟩ := (Isa.encodeInto_eq_ok List.length_replicate).mp hout
      exact ⟨w, hw⟩
    · rintro ⟨w, hw⟩
      exact ⟨_, (Isa.encodeInto_eq_ok List.length_replicate).mpr ⟨w, hw, rfl⟩⟩
  have hmem : ∀ {source : Ir.Section} {before : List Ir.Item} {i : Ir.Instruction}
      {after : List Ir.Item}, source.items = before ++ .instruction i :: after →
        .instruction i ∈ source.items := by
    intro source before i after hitems
    rw [hitems]
    exact List.mem_append_right _ List.mem_cons_self
  constructor
  · intro hnever source before i after hfind hitems hsize hend
    have hsource : source ∈ m.sections := List.mem_of_find?_eq_some hfind
    have hne : source.items ≠ [] := List.ne_nil_of_mem (hmem hitems)
    obtain ⟨rest, hordered, -⟩ := orderedSections_text hfind hne
    obtain ⟨c, bytes, hpass⟩ := (secondPass_text hfind hitems).mpr ⟨hsize, hend⟩
    refine (hencode hsource (hmem hitems)).mp
      (hnever [] source 0 (rest.zipIdx 1) before i after c bytes ?_ hitems hpass)
    rw [hordered]
    rfl
  · intro hfits done source index rest before i after c bytes hsections hitems hpass
    have hsource : source ∈ m.sections := mem_of_mem_orderedSections
      (List.mem_of_getElem? (List.mem_zipIdx_iff_getElem?.mp (mem_of_done hsections).1))
    have htext := (h.wellFormed.items _ hsource _ (hmem hitems)).1
    obtain ⟨hfind, rfl, rfl⟩ := text_of_instruction hsections htext
      (List.ne_nil_of_mem (hmem hitems))
    obtain ⟨hsize, hend⟩ := (secondPass_text hfind hitems).mp ⟨c, bytes, hpass⟩
    exact (hencode hsource (hmem hitems)).mpr (hfits source before i after hfind hitems hsize hend)

end

/-- A checked instruction statement is lowered to something. -/
theorem exists_lowerInstruction {info : Isa.OpcodeInfo} {node : InstructionNode}
    (hcount : node.operands.length = Isa.operandCount info.format) :
    ∃ i, Ir.lowerInstruction info node = some i := by
  have hget : ∀ {k : ℕ}, k < Isa.operandCount info.format → ∃ operand,
      node.operands[k]? = some operand :=
    fun hk => ⟨_, List.getElem?_eq_getElem (by omega)⟩
  unfold Ir.lowerInstruction
  cases hformat : info.format <;> rw [hformat] at hget <;>
    simp only [Option.bind_eq_bind, Option.pure_def]
  case none => exact ⟨_, rfl⟩
  case reg1 | jump | sysImm =>
    obtain ⟨first, hfirst⟩ := hget (k := 0) (by decide)
    rw [hfirst]
    exact ⟨_, rfl⟩
  case reg2 | regImm | mem =>
    obtain ⟨first, hfirst⟩ := hget (k := 0) (by decide)
    obtain ⟨second, hsecond⟩ := hget (k := 1) (by decide)
    rw [hfirst, hsecond]
    exact ⟨_, rfl⟩

/-- If the bytes of `.text` can be held, every instruction of the file gets to the encoder. -/
theorem statementFits_of_textFits {memory : ℕ} {program : Program} {sourceName : Str}
    {diagnostics diagnostics' engine : Diag.DiagnosticEngine} {m : Ir.Module}
    (haccepts : Sema.Accepts program)
    (hlower : Ir.lower program sourceName diagnostics = .ok (m, diagnostics'))
    (hsize : ∀ source, m.findSection .text = some source → endOf source.items ≤ capacity memory)
    (hfits : TextFits memory m engine) :
    ∀ statement ∈ program.statements, StatementFits statement := by
  have hproduced : Produced m :=
    ⟨m, fun _ => false, .O0, ⟨program, sourceName, diagnostics, diagnostics', haccepts, hlower⟩,
      rfl⟩
  intro statement hmem
  cases statement with
  | label node => trivial
  | directive node => trivial
  | instruction node =>
    intro info hinfo
    have hcheck : Sema.checkInstruction node = [] := Sema.accepted_statement haccepts hmem
    unfold Sema.checkInstruction at hcheck
    rw [hinfo] at hcheck
    dsimp only at hcheck
    split_ifs at hcheck with hcount
    obtain ⟨i, hi⟩ := exists_lowerInstruction (not_not.mp hcount)
    obtain ⟨s, hs, hin⟩ :=
      (Ir.has_of_lower haccepts hlower i).mpr ⟨_, hmem, node, info, rfl, hinfo, hi⟩
    have htext := (hproduced.wellFormed.items _ hs _ hin).1
    have hfind := findSection_of_mem hproduced.wellFormed hs
    rw [htext] at hfind
    obtain ⟨before, after, hitems⟩ := List.append_of_mem hin
    have hend := hsize s hfind
    have hbefore : endOf before ≤ endOf s.items := by
      unfold endOf
      rw [hitems, Emission.endOf_append]
      exact Emission.le_endOf Ir.Item.le_advance _ _
    have hlt : capacity memory < 2 ^ 64 := capacity_le.trans_lt (by decide)
    have hoffset : (firstPass m engine [] 0 s.items).2.offset = UInt64.ofNat (endOf s.items) := by
      have hfits : endOf (s.items ++ []) < 2 ^ 64 := by
        rw [List.append_nil]
        omega
      exact offset_firstPass hfits
    have hreserved : (firstPass m engine [] 0 s.items).2.offset.toNat ≤ capacity memory := by
      rw [hoffset, UInt64.toNat_ofNat_of_lt' (by simp only [UInt64.size]; omega)]
      exact hend
    have hone := hfits s before i after hfind hitems hreserved (hbefore.trans hend)
    exact (fits_of_operandsFit (Isa.findOpcode_of_findMnemonic hinfo) hi).mp hone

/-- **What the encoder rejects.**  It rejects nothing if and only if all instructions it gets fit,
and whatever the optimizer does, they fit when the operands of the file do.  If a vector can hold
`.text`, the operands of the file have to. -/
theorem neverRejects_iff {program : Program} {sourceName : Str}
    {diagnostics diagnostics' : Diag.DiagnosticEngine} {m : Ir.Module}
    (haccepts : Sema.Accepts program)
    (hlower : Ir.lower program sourceName diagnostics = .ok (m, diagnostics'))
    (memory : ℕ) (engine : Diag.DiagnosticEngine) :
    (∀ oob level, NeverRejects memory (Optimizer.run oob level m).1 engine ↔
      TextFits memory (Optimizer.run oob level m).1 engine) ∧
    ((∀ statement ∈ program.statements, StatementFits statement) →
      ∀ oob level, NeverRejects memory (Optimizer.run oob level m).1 engine) ∧
    ((∀ source, m.findSection .text = some source → endOf source.items ≤ capacity memory) →
      NeverRejects memory m engine → ∀ statement ∈ program.statements,
        StatementFits statement) := by
  have hfront : Ir.FrontEnd m := ⟨program, sourceName, diagnostics, diagnostics', haccepts, hlower⟩
  have hiff : ∀ oob level, NeverRejects memory (Optimizer.run oob level m).1 engine ↔
      TextFits memory (Optimizer.run oob level m).1 engine := by
    intro oob level
    exact neverRejects_iff_textFits ⟨m, oob, level, hfront, rfl⟩
      (regular_of_run haccepts hlower oob level)
  refine ⟨hiff, ?_, ?_⟩
  · intro hfits oob level
    refine (hiff oob level).mpr fun source before i after hfind hitems _ _ => ?_
    refine fits_of_run haccepts hlower hfits oob level source (List.mem_of_find?_eq_some hfind) i ?_
    rw [hitems]
    exact List.mem_append_right _ List.mem_cons_self
  · intro hsize hnever
    -- without optimisation the module is as it was lowered
    have hfits : TextFits memory m engine := (hiff (fun _ => false) .O0).mp hnever
    exact statementFits_of_textFits haccepts hlower hsize hfits

/-- `LOAD R0, [R1 + displacement]`. -/
def loadProgram (displacement : Int64) : Program where
  statements := [.instruction {
    mnemonic := str "LOAD"
    operands := [
      { type := .register, reg := .R0 },
      { type := .memory, reg := ⟨1⟩, immediate := displacement }] }]

/-- `loadProgram`, lowered. -/
def loadModule (displacement : Int64) : Ir.Module where
  sections := [
    { kind := .text, name := str ".text"
      items := [
        .instruction
        { machine := { opcode := .LOAD, dst := .R0, src := ⟨1⟩, imm := displacement } }] }]

/-- Analysis does not look at the displacement. -/
theorem accepts_load (displacement : Int64) : Sema.Accepts (loadProgram displacement) := by
  refine Sema.accepts_of_checks ?_ List.nodup_nil
  intro statement hstatement
  rw [List.mem_singleton.mp hstatement]
  rfl

theorem lower_load (displacement : Int64) :
    Ir.lower (loadProgram displacement) [] {} = .ok (loadModule displacement, {}) := rfl

/-- `LOAD R0, [R1 + 8]` is encoded after it has been optimised. -/
theorem neverRejects_load :
    NeverRejects kMaxSize (Optimizer.run (fun _ => false) .O1 (loadModule 8)).1 {} := by
  refine (neverRejects_iff (accepts_load 8) (lower_load 8) _ {}).2.1 ?_ _ _
  intro statement hstatement
  rw [List.mem_singleton.mp hstatement]
  intro info hinfo
  cases hinfo
  exact ⟨by decide, by decide, by decide⟩

/-- `LOAD R0, [R1 + 0x800000000000]` is accepted and lowered, and cannot be encoded. -/
theorem rejected_displacement : Sema.Accepts (loadProgram 0x800000000000) ∧
    Ir.lower (loadProgram 0x800000000000) [] {} = .ok (loadModule 0x800000000000, {}) ∧
    assemble kMaxSize (loadModule 0x800000000000) {} = .error (.failed "1 error(s) while assembling"
      { diagnostics := [
        Diag.error .invalidOperand {} "cannot encode LOAD: immediate out of range"] }) :=
  ⟨accepts_load _, lower_load _, by decide⟩

end Assembler
end MiniTool
