import MiniToolchain.Assembler.RoundTrip
import MiniToolchain.Disassembler.Disassembler
import MiniToolchain.Linker.Image
import MiniToolchain.Optimizer.PassSpec

/-!
# Assembling a disassembled branch

The disassembler shows where a branch goes; the assembler takes a number behind a branch mnemonic
for the displacement.

## Main definitions

* `AssemblesBack` — the text of a word is rejected, or gives the word back.

## Main results

* `linked_of_holdsWord` — linking keeps a word without relocations.
* `assembles_back_iff` — the branches that are assembled back or rejected.
-/

namespace MiniTool
namespace Disassembler

open Lexer Isa MiniTool.Parser

/-! ### Text that is assembled back -/

/-- Linked so that its code is at the address, the object gives an image with the word there. -/
def LinkedTo (object : Object.ObjectFile) (address w : UInt64) : Prop :=
  ∀ (objects : List Object.ObjectFile) (options : Linker.LinkOptions) (i : ℕ)
    (executable : Executable), (∀ o ∈ objects, o.WellFormed) → objects[i]? = some object →
    Linker.sectionAddress options objects i 0 = some address →
    Linker.link objects options = .ok executable →
    executable.bytesAt address 8 = some (ByteOrder.littleEndian 8 w)

/-- The text, assembled as a file of its own with memory for an instruction, gives the word, also
where it is linked to the address; or it is rejected with a diagnostic. -/
def AssemblesBack (oob : ℕ → Bool) (text : Str) (address w : UInt64) : Prop :=
  ∀ (memory : ℕ) (sources : SourceManager) (file : FileId) (name : Str) (options : AssembleOptions),
    kInstructionSize ≤ memory → sources[file.toNat]? = some ⟨name, text⟩ →
    ∃ result diagnostics,
      assembleSource oob memory sources file {} options = some (result, diagnostics) ∧
      match result with
      | .ok result => HoldsWord result.object w ∧ LinkedTo result.object address w
      | .error _ => 0 < diagnostics.errorCount

/-- Linking keeps a word that has nothing to relocate. -/
theorem linked_of_holdsWord {object : Object.ObjectFile} {w : UInt64} (h : HoldsWord object w)
    (address : UInt64) : LinkedTo object address w := by
  intro objects options i executable hwf hobject haddress hlink
  obtain ⟨s, hsections, htype, hsize, hdata⟩ := h.code
  have hsection : object.sections[0]? = some s := by
    rw [hsections]
    rfl
  have hlength : s.size.toNat = 8 := by
    rw [hsize]
    rfl
  have hbytes := Linker.bytesAt_of_link hwf hlink hobject hsection (by rw [htype]; decide) haddress
    (show 0 < 8 by decide) (show 0 + 8 ≤ s.size.toNat by omega) (by
      rw [h.relocations]
      exact fun r hr => absurd hr List.not_mem_nil)
  have hzero : address + UInt64.ofNat 0 = address := UInt64.add_zero address
  have hresize : Linker.resize s.data s.size.toNat = ByteOrder.littleEndian 8 w := by
    unfold Linker.resize
    rw [hlength, hdata, ByteOrder.length_littleEndian, Nat.sub_self, List.replicate_zero,
      List.append_nil]
    exact List.take_of_length_le (le_of_eq (ByteOrder.length_littleEndian 8 w))
  rw [hzero, hresize] at hbytes
  rw [hbytes, Bounds.subspan_of_le (by rw [ByteOrder.length_littleEndian]), List.drop_zero,
    List.take_of_length_le (le_of_eq (ByteOrder.length_littleEndian 8 w))]

/-! ### Reading the text -/

theorem scans_blanks (n : ℕ) {ptr : Str} {shapes : List Shape} (h : Scans ptr shapes) :
    Scans (List.replicate n 32 ++ ptr) shapes := by
  induction n with
  | zero => exact h
  | succ n ih => exact scans_blank ih

theorem length_mnemonic : ∀ info ∈ kOpcodes, (str info.mnemonic).length < 8 := by decide

/-- The token of an address. -/
def addressShape (n : ℕ) : Shape :=
  if n < 2 ^ 63 then ⟨.integer, 48 :: 120 :: hexadecimal n, (UInt64.ofNat n).toInt64⟩
  else ⟨.error, 48 :: 120 :: hexadecimal n, 0⟩

/-- The tokens of a branch: its mnemonic and an address. -/
theorem scans_branch {info : OpcodeInfo} (hinfo : info ∈ kOpcodes) (n : ℕ) :
    Scans (str info.mnemonic ++ (List.replicate (8 - (str info.mnemonic).length) 32 ++
      48 :: 120 :: hexadecimal n)) [⟨.identifier, str info.mnemonic, 0⟩, addressShape n] := by
  obtain ⟨-, hword, htype⟩ := findMnemonic_of_mem info hinfo
  have hlength := length_mnemonic info hinfo
  obtain ⟨blanks, hblanks⟩ := Nat.exists_eq_succ_of_ne_zero
    (show 8 - (str info.mnemonic).length ≠ 0 by omega)
  have hnumber := reads_hex n stops_nil
  rw [List.append_nil] at hnumber
  have hne : (addressShape n).type ≠ .eof := by
    unfold addressShape
    split_ifs
    · exact nofun
    · exact nofun
  have hstops : Stops (List.replicate (8 - (str info.mnemonic).length) 32 ++
      48 :: 120 :: hexadecimal n) := by
    rw [hblanks, List.replicate_succ]
    exact stops_cons (by decide) _
  have hread := reads_word hword hstops
  rw [htype] at hread
  exact .token hread nofun (scans_blanks _ (.token hnumber hne (.done reads_end)))

/-- A malformed operand is reported, and the file is rejected. -/
theorem parse_malformed {head number eof : Token} (hhead : head.type = .identifier)
    (hnumber : number.type = .error) (heof : eof.type = .eof) :
    ∃ message p, parse { tokens := [head, number, eof] } = some (.error message, p) ∧
      0 < p.diagnostics.errorCount := by
  cases head
  cases number
  cases eof
  cases hhead
  cases hnumber
  cases heof
  exact ⟨_, _, rfl, Nat.zero_lt_one⟩

/-! ### Branches -/

/-- A branch of the opcode table with a displacement. -/
def branch (info : OpcodeInfo) (imm : Int64) : Instruction := { opcode := info.opcode, imm }

theorem opcode_of_jump : ∀ info ∈ kOpcodes, info.format = .jump →
    info.opcode ∈ [Opcode.JMP, .JE, .JNE, .JG, .JL, .JGE, .JLE, .CALL] := by decide

section

variable {info : OpcodeInfo}

/-- An encodable instruction of the format is such a branch. -/
theorem eq_branch {i : Instruction} {w : UInt64} (hencode : encode i = .ok w)
    (hinfo : findOpcode i.opcode = some info) (hformat : info.format = .jump) :
    i = branch info i.imm := by
  obtain ⟨info', hinfo', hc, -⟩ := encode_eq_ok_iff.mp hencode
  rw [hinfo] at hinfo'
  cases hinfo'
  rw [hformat] at hc
  have hopcode := opcode_of_findOpcode hinfo
  cases i with
  | mk opcode dst src imm =>
    have hdst : dst = .R0 := hc.dst rfl
    have hsrc : src = .R0 := hc.src rfl
    have hop : info.opcode = opcode := hopcode
    subst hdst hsrc hop
    rfl

/-- A displacement in range is encoded. -/
theorem encode_branch (hinfo : findOpcode info.opcode = some info) (hformat : info.format = .jump)
    {imm : Int64} (hlower : -2 ^ 47 ≤ imm.toInt) (hupper : imm.toInt < 2 ^ 47) :
    ∃ w, encode (branch info imm) = .ok w := by
  refine ⟨UInt64.ofNat (wordValue (branch info imm)),
    encode_eq_ok_iff.mpr ⟨info, hinfo, ?_, UInt64.toNat_ofNat_of_lt' ?_⟩⟩
  · rw [hformat]
    have hzero : registerIndex Reg.R0 < 16 := by decide
    exact ⟨hzero, hzero, fun _ => rfl, fun _ => rfl, nofun, fun _ _ => ⟨hlower, hupper⟩, nofun⟩
  · have hopcode := info.opcode.value.toNat_lt
    have hdst : registerIndex Reg.R0 = 0 := rfl
    unfold wordValue branch
    dsimp only [UInt64.size]
    rw [hdst]
    omega

/-- The optimizer leaves a branch with a displacement alone, on every level. -/
theorem run_branch (hinfo : info ∈ kOpcodes) (hformat : info.format = .jump) (oob : ℕ → Bool)
    (level : Optimizer.OptLevel) (name : Str) (imm : Int64) (location : SourceLocation) :
    (Optimizer.run oob level (oneInstruction name (branch info imm) location)).1 =
      oneInstruction name (branch info imm) location := by
  have hopcode := opcode_of_jump info hinfo hformat
  simp only [List.mem_cons, List.not_mem_nil, or_false] at hopcode
  unfold branch
  generalize info.opcode = opcode at hopcode
  let item : Ir.Instruction := { machine := { opcode, imm }, location }
  have hlive : ∀ {p : Ir.Instruction → Prop}, ¬p item →
      Optimizer.NoneLive p [Optimizer.fresh (.instruction item)] := by
    intro p hp slot hslot instruction hinstruction
    rw [List.mem_singleton.mp hslot] at hinstruction
    cases hinstruction
    exact hp
  have hmark : ∀ (bit : Bool) (stats : Optimizer.OptStats),
      Optimizer.markPasses bit [.instruction item] stats =
        { slots := [Optimizer.fresh (.instruction item)], stats, changed := false } := by
    intro bit stats
    have hlocal : Optimizer.markLocal [.instruction item] stats =
        { slots := [Optimizer.fresh (.instruction item)], stats, changed := false } := by
      rcases hopcode with rfl | rfl | rfl | rfl | rfl | rfl | rfl | rfl <;> rfl
    unfold Optimizer.markPasses
    rw [hlocal]
    apply Optimizer.markBlocks_eq_self
    · refine hlive (not_not.mpr ?_)
      intro flagsDead
      rcases hopcode with rfl | rfl | rfl | rfl | rfl | rfl | rfl | rfl <;> rfl
    · apply hlive
      rcases hopcode with rfl | rfl | rfl | rfl | rfl | rfl | rfl | rfl <;> exact nofun
    · apply hlive
      rcases hopcode with rfl | rfl | rfl | rfl | rfl | rfl | rfl | rfl <;> exact nofun
  have hitems : ∀ stats, (Optimizer.optimizeItems oob Optimizer.kMaxIterations
      [.instruction item] stats).1 = [.instruction item] := by
    intro stats
    unfold Optimizer.kMaxIterations Optimizer.optimizeItems Optimizer.runPasses
    dsimp only
    rw [hmark]
    rfl
  cases level with
  | O0 => rfl
  | O1 =>
    unfold Optimizer.run oneInstruction oneSection
    dsimp only
    rw [if_pos (by decide), Optimizer.optimizeSections, if_pos rfl]
    unfold Optimizer.optimizeSection Optimizer.optimizeSections
    dsimp only
    rw [hitems]

end

/-! ### The text of a branch, assembled -/

/-- The text of a branch: its mnemonic, blanks, and the address it goes to. -/
def branchText (info : OpcodeInfo) (target : UInt64) : Str :=
  str info.mnemonic ++ (List.replicate (8 - (str info.mnemonic).length) 32 ++
    48 :: 120 :: hexadecimal target.toNat)

section

variable {info : OpcodeInfo} {target : UInt64} {sources : SourceManager}
  {file : FileId} {name : Str}

/-- An address that is an `i64` is read as the operand. -/
theorem oneStatement_branch (hinfo : info ∈ kOpcodes) (htarget : target.toNat < 2 ^ 63)
    (file : FileId) :
    ∃ (operand : Ast.Operand) (location : SourceLocation), operand.type = .immediate ∧
      operand.immediate = target.toInt64 ∧ OneStatement (branchText info target) file
        { mnemonic := str info.mnemonic, operands := [operand], location } := by
  have hscans := scans_branch hinfo target.toNat
  obtain ⟨body, eof, htokens, heof, hbody⟩ := lexAll_of_scans hscans file
  obtain ⟨head, _, rfl, hhead, htail⟩ := List.map_eq_cons_iff.mp hbody
  obtain ⟨number, rfl, hnumber⟩ := List.map_eq_singleton_iff.mp htail
  unfold addressShape at hnumber
  rw [if_pos htarget] at hnumber
  simp only [shapeOf, Shape.mk.injEq, UInt64.ofNat_toNat] at hhead hnumber
  obtain ⟨hheadType, hheadText, -⟩ := hhead
  obtain ⟨hnumberType, -, hvalue⟩ := hnumber
  refine ⟨{ type := .immediate, immediate := number.intValue, location := number.location },
    head.location, rfl, hvalue, ⟨_, eof, htokens, heof, ?_, ?_⟩⟩
  · intro token htoken
    simp only [List.mem_append, List.mem_cons, List.not_mem_nil, or_false] at htoken
    rcases htoken with (rfl | rfl) | rfl
    · rw [hheadType]
      decide
    · rw [hnumberType]
      decide
    · rw [heof]
      decide
  · rw [← hheadText]
    exact .last
      (.statement (.instruction hheadType (.some (.one (.constant (Or.inl hnumberType))))))

/-- What the analysis checks of the operand of a branch. -/
theorem checkOperands_branch (hformat : info.format = .jump) {operand : Ast.Operand}
    (htype : operand.type = .immediate) (hmultiple : operand.immediate.toInt % 8 = 0)
    (second : Ast.Operand) :
    Sema.checkOperands info operand second =
      Sema.checkSignedRange operand kImmediateBits "displacement" := by
  have hvalue : Sema.isValueOperand operand = true := by
    unfold Sema.isValueOperand
    rw [htype]
    rfl
  have hrest : ¬(operand.type = .immediate ∧
      operand.immediate.toInt % (kInstructionSize : ℕ) ≠ 0) := fun h => h.2 hmultiple
  unfold Sema.checkOperands
  rw [hformat]
  dsimp only
  rw [if_neg (by rw [hvalue]; decide), if_neg hrest]
  split_ifs with hrange
  · rfl
  · exact (not_not.mp hrange).symm

/-- The value of the operand, when the address is an `i64`. -/
theorem toInt_target (htarget : target.toNat < 2 ^ 63) : target.toInt64.toInt = target.toNat := by
  have hvalue := ByteOrder.toInt_eq_ite target.toInt64
  rw [UInt64.toUInt64_toInt64] at hvalue
  rw [hvalue, if_pos htarget]

/-- **A small address is assembled as a displacement.** -/
theorem assembleSource_branch (hinfo : info ∈ kOpcodes) (hformat : info.format = .jump)
    (hmultiple : target.toNat % 8 = 0) (htarget : target.toNat < 2 ^ 47) (oob : ℕ → Bool)
    {memory : ℕ} (hmemory : kInstructionSize ≤ memory)
    (hsource : sources[file.toNat]? = some ⟨name, branchText info target⟩)
    (options : AssembleOptions) :
    ∃ result w, assembleSource oob memory sources file {} options = some (.ok result, {}) ∧
      encode (branch info target.toInt64) = .ok w ∧ HoldsWord result.object w := by
  have hword : target.toNat < 2 ^ 63 := by omega
  obtain ⟨operand, location, htype, himm, hstatement⟩ := oneStatement_branch hinfo hword file
  have hvalue := toInt_target hword
  have hfound : findOpcode info.opcode = some info := findOpcode_of_mem info hinfo
  obtain ⟨w, hencode⟩ := encode_branch hfound hformat (show -2 ^ 47 ≤ target.toInt64.toInt by omega)
    (by omega)
  have hchecks : Sema.checkOperands info operand {} = [] := by
    rw [checkOperands_branch hformat htype (by rw [himm, hvalue]; omega)]
    exact checkSignedRange_of_fits operand "displacement" (by rw [himm, hvalue]; omega)
  have hlower : Ir.lowerInstruction info
      { mnemonic := str info.mnemonic, operands := [operand], location } =
        some { machine := branch info target.toInt64, location } := by
    unfold Ir.lowerInstruction
    rw [hformat]
    simp [Ir.setValue, htype, himm, branch]
  have hkept := run_branch hinfo hformat oob options.optLevel name target.toInt64 location
  obtain ⟨result, hresult, hholds⟩ := assembleSource_accepted hmemory hsource hstatement
    (findMnemonic_of_mem info hinfo).1 (by rw [hformat]; rfl) hchecks hlower hkept hencode
  exact ⟨result, w, hresult, hencode, hholds⟩

/-- **Every other address is rejected**: it does not fit in the field, or is no `i64`. -/
theorem assembleSource_rejects_branch (hinfo : info ∈ kOpcodes) (hformat : info.format = .jump)
    (hmultiple : target.toNat % 8 = 0) (htarget : 2 ^ 47 ≤ target.toNat) (oob : ℕ → Bool)
    (memory : ℕ) (hsource : sources[file.toNat]? = some ⟨name, branchText info target⟩)
    (options : AssembleOptions) :
    ∃ error diagnostics, assembleSource oob memory sources file {} options =
      some (.error error, diagnostics) ∧ 0 < diagnostics.errorCount := by
  by_cases hword : target.toNat < 2 ^ 63
  · obtain ⟨operand, location, htype, himm, hstatement⟩ := oneStatement_branch hinfo hword file
    have hvalue := toInt_target hword
    have hrange : ¬ByteOrder.fitsSigned operand.immediate kImmediateBits = true := by
      rw [signedImm_iff, himm, hvalue]
      omega
    have hchecks : Sema.checkOperands info operand {} =
        [Diag.error .integerOverflow operand.location
          s!"displacement {operand.immediate} does not fit in {kImmediateBits} signed bits"] := by
      rw [checkOperands_branch hformat htype (by rw [himm, hvalue]; omega)]
      unfold Sema.checkSignedRange
      rw [if_neg (not_not.mpr htype), if_neg hrange]
      rfl
    exact ⟨_, _, assembleSource_rejected oob memory options hsource hstatement
      (findMnemonic_of_mem info hinfo).1 (by rw [hformat]; rfl) hchecks, Nat.zero_lt_one⟩
  · have hscans := scans_branch hinfo target.toNat
    obtain ⟨body, eof, htokens, heof, hbody⟩ := lexAll_of_scans hscans file
    obtain ⟨head, _, rfl, hhead, htail⟩ := List.map_eq_cons_iff.mp hbody
    obtain ⟨number, rfl, hnumber⟩ := List.map_eq_singleton_iff.mp htail
    unfold addressShape at hnumber
    rw [if_neg hword] at hnumber
    simp only [shapeOf, Shape.mk.injEq] at hhead hnumber
    obtain ⟨message, p, hparse, hcount⟩ := parse_malformed hhead.1 hnumber.1 heof
    refine ⟨.message message, p.diagnostics, ?_, hcount⟩
    have htokens : lexAll (branchText info target) file = [head, number, eof] := htokens
    unfold assembleSource
    simp only [hsource, htokens, hparse]

end

/-! ### Which branches are assembled back -/

theorem word_eq_of_holdsWord {o : Object.ObjectFile} {w w' : UInt64} (h : HoldsWord o w)
    (h' : HoldsWord o w') : w = w' := by
  obtain ⟨s, hsections, -, -, hdata⟩ := h.code
  obtain ⟨s', hsections', -, -, hdata'⟩ := h'.code
  rw [hsections, List.singleton_inj] at hsections'
  subst hsections'
  rw [hdata] at hdata'
  have hload := Binary.load_u64 w []
  rw [hdata', Binary.load_u64] at hload
  exact hload.symm

section

variable {i : Instruction} {w address : UInt64} {info : OpcodeInfo} {options : Options}

/-- The word of the text as the assembler reads it. -/
theorem text_of_branch (hencode : encode i = .ok w) (hjump : formatOf i.opcode = some .jump)
    (hoptions : options.showSymbols = false) (address : UInt64) (executable : Option Executable) :
    ∃ info ∈ kOpcodes, info.format = .jump ∧ i = branch info i.imm ∧
      formatInstruction options address i executable =
        branchText info (branchTarget address i.imm) := by
  unfold formatOf at hjump
  obtain ⟨info, hinfo, hformat⟩ := Option.map_eq_some_iff.mp hjump
  exact ⟨info, mem_of_findOpcode hinfo, hformat, eq_branch hencode hinfo hformat,
    formatInstruction_branch hoptions hinfo hformat address executable⟩

/-- The address is a multiple of the size of an instruction. -/
theorem branchTarget_mod (hmultiple : i.imm.toInt % 8 = 0) (haligned : address.toNat % 8 = 0) :
    (branchTarget address i.imm).toNat % 8 = 0 := by
  have hvalue := ByteOrder.toInt_eq_ite i.imm
  have height : (8 : UInt64).toNat = 8 := rfl
  unfold branchTarget
  rw [UInt64.toNat_add, UInt64.toNat_add, height]
  split_ifs at hvalue <;> omega

/-- The displacement is the address itself only where the next instruction has the address 0. -/
theorem imm_eq_target_iff : i.imm = (branchTarget address i.imm).toInt64 ↔ address + 8 = 0 := by
  unfold branchTarget
  constructor
  · intro h
    have hwords := congrArg Int64.toUInt64 h
    rw [UInt64.toUInt64_toInt64] at hwords
    have hsub := UInt64.add_sub_cancel (address + 8) i.imm.toUInt64
    rw [← hwords, UInt64.sub_self] at hsub
    exact hsub.symm
  · intro h
    rw [h, UInt64.zero_add, Int64.toInt64_toUInt64]

/-- The other word a small address is assembled to. -/
theorem not_assemblesBack (hencode : encode i = .ok w) (hjump : formatOf i.opcode = some .jump)
    (hmultiple : i.imm.toInt % 8 = 0) (haligned : address.toNat % 8 = 0)
    (hoptions : options.showSymbols = false) (executable : Option Executable) (oob : ℕ → Bool)
    (hsmall : (branchTarget address i.imm).toNat < 2 ^ 47) (hnext : address + 8 ≠ 0) :
    ¬AssemblesBack oob (formatInstruction options address i executable) address w := by
  obtain ⟨info, hinfo, hformat, hi, htext⟩ :=
    text_of_branch hencode hjump hoptions address executable
  rw [htext]
  intro h
  have hsource : [(⟨[], branchText info (branchTarget address i.imm)⟩ : SourceFile)][
      (0 : FileId).toNat]? = some ⟨[], branchText info (branchTarget address i.imm)⟩ := rfl
  obtain ⟨result, w', hresult, hencode', hholds'⟩ := assembleSource_branch hinfo hformat
    (branchTarget_mod hmultiple haligned) hsmall oob le_rfl hsource {}
  obtain ⟨back, diagnostics, hback, hsame⟩ := h _ _ 0 [] {} le_rfl hsource
  rw [hresult] at hback
  cases hback
  have hword := word_eq_of_holdsWord hsame.1 hholds'
  rw [← hword] at hencode'
  -- one word is the word of one instruction
  have hdecode := decode_encode hencode
  rw [decode_encode hencode'] at hdecode
  have himm := congrArg Instruction.imm (Except.ok.inj hdecode)
  exact hnext (imm_eq_target_iff.mp himm.symm)

/-- **Which branches are assembled back or rejected**: those whose target does not fit in the field,
and those in front of the address 0. -/
theorem assembles_back_iff (hencode : encode i = .ok w) (hjump : formatOf i.opcode = some .jump)
    (hmultiple : i.imm.toInt % 8 = 0) (haligned : address.toNat % 8 = 0)
    (hoptions : options.showSymbols = false) (executable : Option Executable) (oob : ℕ → Bool) :
    AssemblesBack oob (formatInstruction options address i executable) address w ↔
      address + 8 = 0 ∨ 2 ^ 47 ≤ (branchTarget address i.imm).toNat := by
  constructor
  · intro h
    by_contra hnot
    rw [not_or, not_le] at hnot
    exact not_assemblesBack hencode hjump hmultiple haligned hoptions executable oob hnot.2 hnot.1 h
  · intro h memory sources file name assembleOptions hmemory hsource
    obtain ⟨info, hinfo, hformat, hi, htext⟩ :=
      text_of_branch hencode hjump hoptions address executable
    rw [htext] at hsource
    have hmod := branchTarget_mod hmultiple haligned
    rcases lt_or_ge (branchTarget address i.imm).toNat (2 ^ 47) with hsmall | hlarge
    · -- the next address is 0, and the target is the displacement
      have hnext : address + 8 = 0 := h.resolve_right (not_le.mpr hsmall)
      obtain ⟨result, w', hresult, hencode', hholds⟩ :=
        assembleSource_branch hinfo hformat hmod hsmall oob hmemory hsource assembleOptions
      rw [← imm_eq_target_iff.mpr hnext, ← hi, hencode] at hencode'
      cases hencode'
      exact ⟨_, _, hresult, hholds, linked_of_holdsWord hholds address⟩
    · obtain ⟨error, diagnostics, hresult, hcount⟩ :=
        assembleSource_rejects_branch hinfo hformat hmod hlarge oob memory hsource
          assembleOptions
      exact ⟨_, _, hresult, hcount⟩

end

/-- `JMP` to the instruction after the next. -/
def skipOne : Instruction := { opcode := .JMP, imm := 8 }

theorem assembles_back_iff_skip :
    AssemblesBack (fun _ => false) (formatInstruction { showSymbols := false } 0x10000 skipOne none)
        0x10000 0x5000000000000008 ↔
      (0x10000 : UInt64) + 8 = 0 ∨ 2 ^ 47 ≤ (branchTarget 0x10000 skipOne.imm).toNat :=
  assembles_back_iff (by decide) (by decide) (by decide) (by decide) rfl none _

/-- At `0x10000` its text is `JMP     0x10010`, which is assembled without a diagnostic to a branch
that, at the same address, goes to `0x20018`. -/
theorem jump_goes_elsewhere :
    formatInstruction { showSymbols := false } 0x10000 skipOne none = str "JMP     0x10010" ∧
    (∃ result, assembleSource (fun _ => false) 8 [⟨str "jump.asm", str "JMP     0x10010"⟩] 0 {} {} =
        some (.ok result, {}) ∧ HoldsWord result.object 0x5000000000010010) ∧
    encode { opcode := .JMP, imm := 0x10010 } = .ok 0x5000000000010010 ∧
    branchTarget 0x10000 0x10010 = 0x20018 ∧
    ¬AssemblesBack (fun _ => false)
      (formatInstruction { showSymbols := false } 0x10000 skipOne none) 0x10000
      0x5000000000000008 := by
  have htext : branchText ⟨.JMP, "JMP", .jump, false, false, false, true, true⟩ 0x10010 =
      str "JMP     0x10010" := by decide
  obtain ⟨result, w, hresult, hencode, hholds⟩ := @assembleSource_branch
    ⟨.JMP, "JMP", .jump, false, false, false, true, true⟩ 0x10010
    [⟨str "jump.asm", str "JMP     0x10010"⟩] 0 (str "jump.asm") (by decide) rfl (by decide)
    (by decide) (fun _ => false) 8 le_rfl (by rw [htext]; rfl) {}
  have hw : w = 0x5000000000010010 := by
    have hword : encode (branch ⟨.JMP, "JMP", .jump, false, false, false, true, true⟩
      (0x10010 : UInt64).toInt64) = .ok 0x5000000000010010 := by decide
    rw [hencode] at hword
    exact Except.ok.inj hword
  rw [hw] at hholds
  exact ⟨by decide, ⟨result, hresult, hholds⟩, by decide, by decide,
    not_assemblesBack (by decide) (by decide) (by decide) (by decide) rfl none _ (by decide)
      (by decide)⟩

end Disassembler
end MiniTool
