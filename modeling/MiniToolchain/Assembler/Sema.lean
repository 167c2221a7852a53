import MiniToolchain.Ast.Ast
import MiniToolchain.Diagnostics.Diagnostic
import MiniToolchain.Isa.Encoding

/-!
# Semantic analysis

The checks of one parsed file against the instruction set and the directive rules.  Each check
returns what it reports; every report is an error, so a program is accepted when nothing is
reported.

## Main definitions

* `checkInstruction`, `checkDirective`, `checkLabel`, `analyze`.

## Main results

* `accepted_statement` — in an accepted program every statement passes its check.
-/

namespace MiniTool
namespace Sema

open Ast Diag ByteOrder

/-- The section names the toolchain knows how to lay out. -/
def kSectionNames : List Str := [str ".text", str ".rodata", str ".data", str ".bss"]

def isKnownSection (name : Str) : Bool := kSectionNames.contains name

/-- Either spelling of a bit pattern is accepted. -/
def fitsInWidth (value : Int64) (bytes : ℕ) : Bool :=
  let bits := bytes * 8
  if bits ≥ 64 then true else fitsSigned value bits || fitsUnsigned value.toUInt64 bits

/-- Things that can produce a value for an immediate field. -/
def isValueOperand (operand : Operand) : Bool :=
  operand.type = .immediate || operand.type = .symbol

/-- A literal against a field width; the linker checks symbols. -/
def checkSignedRange (operand : Operand) (bits : ℕ) (what : String) : List Diagnostic :=
  if operand.type ≠ .immediate then []
  else if fitsSigned operand.immediate bits then []
  else [error .integerOverflow operand.location
    s!"{what} {operand.immediate} does not fit in {bits} signed bits"]

def requireKind (info : Isa.OpcodeInfo) (operand : Operand) (wanted : OperandType)
    (described : String) : List Diagnostic :=
  if operand.type ≠ wanted then
    [error .invalidOperand operand.location
      s!"{info.mnemonic} expects {described} here, found {operandTypeName operand.type}"]
  else []

/-- Operands whose number has been checked. -/
def checkOperands (info : Isa.OpcodeInfo) (first second : Operand) : List Diagnostic :=
  match info.format with
  | .none => []
  | .reg1 => requireKind info first .register "a register"
  | .reg2 =>
    requireKind info first .register "a register" ++ requireKind info second .register "a register"
  | .regImm =>
    let kind := requireKind info first .register "a register"
    if kind = [] ∧ isValueOperand second = false then
      [error .invalidOperand second.location
        s!"{info.mnemonic} expects an immediate or a symbol here, found {
          operandTypeName second.type}"]
    else kind ++ checkSignedRange second Isa.kImmediateBits "immediate"
  | .mem =>
    let store := info.opcode = .STORE
    let memory := if store then first else second
    let reg := if store then second else first
    let kind := requireKind info memory .memory "a '[base + disp]' memory operand"
    requireKind info reg .register "a register" ++
      if kind = [] then checkSignedRange memory Isa.kImmediateBits "displacement" else kind
  | .jump =>
    if isValueOperand first = false then
      [error .invalidOperand first.location
        s!"{info.mnemonic} expects a label or a displacement, found {operandTypeName first.type}"]
    else
      let range := checkSignedRange first Isa.kImmediateBits "displacement"
      if range ≠ [] then range
      else if first.type = .immediate ∧ first.immediate.toInt % Isa.kInstructionSize ≠ 0 then
        [error .invalidOperand first.location
          s!"branch displacement {first.immediate} is not a multiple of {Isa.kInstructionSize}"]
      else []
  | .sysImm =>
    if first.type ≠ .immediate then
      [error .invalidOperand first.location "SYSCALL expects a literal service number"]
    else if first.immediate < 0 ∨
        fitsUnsigned first.immediate.toUInt64 Isa.kImmediateBits = false then
      [error .integerOverflow first.location s!"syscall number {first.immediate} is out of range"]
    else []

def checkInstruction (node : InstructionNode) : List Diagnostic :=
  match Isa.findMnemonic node.mnemonic with
  | none =>
    [error .invalidOpcode node.location s!"unknown instruction '{node.mnemonic.text}'"]
  | some info =>
    let expected := Isa.operandCount info.format
    let given := node.operands.length
    let plural := if expected = 1 then "" else "s"
    let verb := if given = 1 then "was" else "were"
    if node.operands.length ≠ expected then
      [error .invalidOperand node.location
        s!"{info.mnemonic} takes {expected} operand{plural}, but {given} {verb} given"]
    else
      checkOperands info (node.operands.getD 0 {}) (node.operands.getD 1 {})

def requireOperandCount (directive : DirectiveNode) (least most : ℕ) : List Diagnostic :=
  let given := directive.operands.length
  let name := directiveName directive.type
  if given < least ∨ given > most then
    [error .invalidDirective directive.location
      (if least = most then s!"{name} takes exactly {least} operand(s), {given} given"
        else s!"{name} takes between {least} and {most} operands, {given} given")]
  else []

/-- One value of `.byte`, `.word`, `.dword` or `.qword`. -/
def checkDataOperand (name : String) (width : ℕ) (operand : Operand) : List Diagnostic :=
  if isValueOperand operand = false then
    [error .invalidDirective operand.location
      s!"{name} expects integers or symbol references, found {operandTypeName operand.type}"]
  else if operand.type = .symbol ∧ width ≠ 8 ∧ width ≠ 4 then
    [error .invalidRelocation operand.location
      s!"a symbol address needs .dword or .qword, not {name}"]
  else if operand.type = .immediate ∧ fitsInWidth operand.immediate width = false then
    [error .integerOverflow operand.location
      s!"{operand.immediate} does not fit in the {width} byte(s) of {name}"]
  else []

/-- `.global`, `.extern` and `.weak`. -/
def checkNames (directive : DirectiveNode) : List Diagnostic :=
  let name := directiveName directive.type
  if directive.operands = [] then
    [error .invalidDirective directive.location s!"{name} needs at least one symbol name"]
  else
    directive.operands.flatMap fun operand =>
      if operand.type ≠ .symbol ∨ operand.immediate ≠ 0 then
        [error .invalidDirective operand.location s!"{name} expects plain symbol names"]
      else []

/-- `.byte`, `.word`, `.dword` and `.qword`. -/
def checkData (directive : DirectiveNode) : List Diagnostic :=
  let name := directiveName directive.type
  if directive.operands = [] then
    [error .invalidDirective directive.location s!"{name} needs at least one value"]
  else
    directive.operands.flatMap
      (checkDataOperand name (dataDirectiveWidth directive.type).toNat)

def checkDirective (directive : DirectiveNode) : List Diagnostic :=
  let first := directive.operands.getD 0 {}
  match directive.type with
  | .section_ =>
    let count := requireOperandCount directive 1 1
    if count ≠ [] then count
    else if first.type ≠ .symbol then
      [error .invalidDirective first.location ".section expects a section name"]
    else if isKnownSection first.symbol = false then
      [error .invalidSectionReference first.location
        s!"unknown section '{first.symbol.text}'; expected .text, .rodata, .data or .bss"]
    else []
  | .global => checkNames directive
  | .external => checkNames directive
  | .weak => checkNames directive
  | .byte => checkData directive
  | .word => checkData directive
  | .dword => checkData directive
  | .qword => checkData directive
  | .asciz =>
    let count := requireOperandCount directive 1 1
    if count ≠ [] then count
    else if first.type ≠ .string then
      [error .invalidDirective first.location ".asciz expects a string literal"]
    else []
  | .align =>
    let count := requireOperandCount directive 1 1
    if count ≠ [] then count
    else if first.type ≠ .immediate ∨ first.immediate ≤ 0 then
      [error .invalidDirective first.location ".align expects a positive integer"]
    else
      let value := first.immediate.toUInt64
      if value &&& (value - 1) ≠ 0 then
        [error .invalidDirective first.location s!".align expects a power of two, found {value}"]
      else []
  | .space =>
    let count := requireOperandCount directive 1 2
    if count ≠ [] then count
    else
      (if first.type ≠ .immediate ∨ first.immediate < 0 then
        [error .invalidDirective first.location ".space expects a non-negative size"]
      else []) ++
      match directive.operands[1]? with
      | some fill =>
        if fill.type ≠ .immediate ∨ fitsInWidth fill.immediate 1 = false then
          [error .invalidDirective fill.location ".space fill value must be a single byte"]
        else []
      | none => []

/-- `labels` is where each label seen so far was defined. -/
def checkLabel (labels : List (Str × SourceLocation)) (label : LabelNode) : List Diagnostic :=
  match labels.lookup label.name with
  | some previous =>
    [{ severity := .error, code := .duplicateSymbol, location := label.location,
       message := s!"duplicate label '{label.name.text}'",
       notes := [{ location := previous, message := "previously defined here" }] }]
  | none => []

/-- Everything the analysis reports about the statements from here on. -/
def analyzeFrom (labels : List (Str × SourceLocation)) : List Statement → List Diagnostic
  | [] => []
  | .instruction node :: rest => checkInstruction node ++ analyzeFrom labels rest
  | .directive node :: rest => checkDirective node ++ analyzeFrom labels rest
  | .label node :: rest =>
    checkLabel labels node ++
      analyzeFrom
        (match labels.lookup node.name with
          | some _ => labels
          | none => (node.name, node.location) :: labels) rest

/-- Whether the program is free of errors, and the engine with what was found. -/
def analyze (diagnostics : DiagnosticEngine) (program : Program) : Bool × DiagnosticEngine :=
  let found := analyzeFrom [] program.statements
  (found.isEmpty, { diagnostics := diagnostics.diagnostics ++ found })

/-- The analysis finds no error. -/
def Accepts (program : Program) : Prop := analyzeFrom [] program.statements = []

instance (program : Program) : Decidable (Accepts program) :=
  inferInstanceAs (Decidable (_ = _))

theorem analyze_eq_true {diagnostics : DiagnosticEngine} {program : Program} :
    (analyze diagnostics program).1 = true ↔ Accepts program := by
  unfold analyze Accepts
  exact List.isEmpty_iff

/-! ### What acceptance says -/

/-- The check of one statement but for repeated labels. -/
def checkStatement : Statement → List Diagnostic
  | .instruction node => checkInstruction node
  | .directive node => checkDirective node
  | .label _ => []

/-- The labels a file defines, in order. -/
def labelNames (statements : List Statement) : List Str :=
  statements.filterMap fun statement =>
    match statement with
    | .label node => some node.name
    | _ => none

theorem analyzeFrom_eq_nil {labels : List (Str × SourceLocation)} {statements : List Statement}
    (h : analyzeFrom labels statements = []) :
    (∀ statement ∈ statements, checkStatement statement = []) ∧
      (labelNames statements).Nodup ∧ ∀ name ∈ labelNames statements,
        labels.lookup name = none := by
  induction statements generalizing labels with
  | nil => simp [labelNames]
  | cons statement rest ih =>
    cases statement with
    | instruction node =>
      obtain ⟨hcheck, hrest⟩ := List.append_eq_nil_iff.mp h
      obtain ⟨hall, hnodup, hnew⟩ := ih hrest
      exact ⟨List.forall_mem_cons.mpr ⟨hcheck, hall⟩, hnodup, hnew⟩
    | directive node =>
      obtain ⟨hcheck, hrest⟩ := List.append_eq_nil_iff.mp h
      obtain ⟨hall, hnodup, hnew⟩ := ih hrest
      exact ⟨List.forall_mem_cons.mpr ⟨hcheck, hall⟩, hnodup, hnew⟩
    | label node =>
      obtain ⟨hcheck, hrest⟩ := List.append_eq_nil_iff.mp h
      have hnone : labels.lookup node.name = none := by
        unfold checkLabel at hcheck
        cases hprev : labels.lookup node.name with
        | none => rfl
        | some previous =>
          rw [hprev] at hcheck
          cases hcheck
      rw [hnone] at hrest
      obtain ⟨hall, hnodup, hnew⟩ := ih hrest
      have hcons : labelNames (.label node :: rest) = node.name :: labelNames rest := rfl
      have hother : ∀ name ∈ labelNames rest, name ≠ node.name ∧ labels.lookup name = none := by
        intro name hname
        have := hnew name hname
        rw [List.lookup_cons] at this
        split at this
        · cases this
        · next hne => exact ⟨by simpa using hne, this⟩
      refine ⟨List.forall_mem_cons.mpr ⟨rfl, hall⟩, ?_, ?_⟩
      · rw [hcons, List.nodup_cons]
        exact ⟨fun hmem => (hother _ hmem).1 rfl, hnodup⟩
      · rw [hcons]
        intro name hname
        rcases List.mem_cons.mp hname with rfl | hname
        · exact hnone
        · exact (hother name hname).2

/-- Statements that pass their checks and define each label once are accepted. -/
theorem accepts_of_checks {statements : List Statement}
    (hchecks : ∀ statement ∈ statements, checkStatement statement = [])
    (hnodup : (labelNames statements).Nodup) : Accepts { statements } := by
  have hfrom : ∀ labels : List (Str × SourceLocation),
      (∀ name ∈ labelNames statements, labels.lookup name = none) →
      analyzeFrom labels statements = [] := by
    induction statements with
    | nil => exact fun labels _ => rfl
    | cons statement rest ih =>
      intro labels hnew
      obtain ⟨hcheck, hrest⟩ := List.forall_mem_cons.mp hchecks
      cases statement with
      | instruction node => exact List.append_eq_nil_iff.mpr ⟨hcheck, ih hrest hnodup labels hnew⟩
      | directive node => exact List.append_eq_nil_iff.mpr ⟨hcheck, ih hrest hnodup labels hnew⟩
      | label node =>
        have hcons : labelNames (.label node :: rest) = node.name :: labelNames rest := rfl
        rw [hcons] at hnodup hnew
        obtain ⟨hnot, hnodup⟩ := List.nodup_cons.mp hnodup
        have hnone := hnew node.name List.mem_cons_self
        have hcheckLabel : checkLabel labels node = [] := by
          unfold checkLabel
          rw [hnone]
        unfold analyzeFrom
        rw [hcheckLabel, hnone]
        apply ih hrest hnodup
        intro name hname
        rw [List.lookup_cons]
        have hne : (name == node.name) = false := by
          rw [beq_eq_false_iff_ne]
          rintro rfl
          exact hnot hname
        rw [hne]
        exact hnew name (List.mem_cons_of_mem _ hname)
  exact hfrom [] fun _ _ => rfl

theorem accepted_statement {program : Program} (h : Accepts program) {statement : Statement}
    (hmem : statement ∈ program.statements) : checkStatement statement = [] :=
  (analyzeFrom_eq_nil h).1 statement hmem

end Sema
end MiniTool
