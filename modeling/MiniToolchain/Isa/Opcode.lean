import MiniToolchain.Common.Types

/-!
# Opcodes and registers

`Opcode` and `Reg` are `enum class ... : u8`.  A cast can put any byte in either, and the encoder
and the decoder both guard against it, so the model keeps those values: an opcode is one of the
thirty-six enumerators or a byte that is none of them, and a register is its byte.

## Main definitions

* `Opcode`, `Opcode.value`, `Opcode.ofValue` — opcodes and their frozen numbers.
* `Format`, `OpcodeInfo`, `kOpcodes`, `findOpcode` — the opcode table and its lookup.
* `findMnemonic` — case-insensitive lookup by name.
* `Reg`, `isValidRegister`, `Reg.slot` — registers and their index in a register file.

## Main results

* `Opcode.value_ofValue`, `Opcode.ofValue_value` — opcodes are exactly the bytes.
-/

namespace MiniTool
namespace Isa

/-- The numbers of the defined opcodes, in ascending order. -/
def definedOpcodeValues : List UInt8 :=
  [0x00, 0x01, 0x02,
   0x10, 0x11, 0x12, 0x13, 0x14, 0x15, 0x16,
   0x20, 0x21, 0x22, 0x23, 0x24, 0x25, 0x26, 0x27,
   0x30, 0x31, 0x32, 0x33, 0x34, 0x35, 0x36,
   0x40, 0x41,
   0x50, 0x51, 0x52, 0x53, 0x54, 0x55, 0x56, 0x57, 0x58]

/-- `enum class Opcode : u8`: the enumerators, and the bytes a cast can make that are none of
them. -/
inductive Opcode where
  | NOP | HALT | SYSCALL
  | MOV | MOVI | LOAD | STORE | LEA | PUSH | POP
  | ADD | SUB | MUL | DIV | MOD | INC | DEC | NEG
  | AND | OR | XOR | NOT | SHL | SHR | SAR
  | CMP | TEST
  | JMP | JE | JNE | JG | JL | JGE | JLE | CALL | RET
  /-- A byte that names no opcode. -/
  | undefined (byte : UInt8) (h : byte ∉ definedOpcodeValues)
  deriving DecidableEq, Repr

instance : Inhabited Opcode := ⟨.NOP⟩

namespace Opcode

/-- The enumerators, in the order of their numbers. -/
def named : List Opcode :=
  [NOP, HALT, SYSCALL, MOV, MOVI, LOAD, STORE, LEA, PUSH, POP, ADD, SUB, MUL, DIV, MOD, INC, DEC,
   NEG, AND, OR, XOR, NOT, SHL, SHR, SAR, CMP, TEST, JMP, JE, JNE, JG, JL, JGE, JLE, CALL, RET]

/-- `static_cast<u8>(opcode)`. -/
def value : Opcode → UInt8
  | NOP => 0x00 | HALT => 0x01 | SYSCALL => 0x02
  | MOV => 0x10 | MOVI => 0x11 | LOAD => 0x12 | STORE => 0x13 | LEA => 0x14 | PUSH => 0x15
  | POP => 0x16
  | ADD => 0x20 | SUB => 0x21 | MUL => 0x22 | DIV => 0x23 | MOD => 0x24 | INC => 0x25
  | DEC => 0x26 | NEG => 0x27
  | AND => 0x30 | OR => 0x31 | XOR => 0x32 | NOT => 0x33 | SHL => 0x34 | SHR => 0x35 | SAR => 0x36
  | CMP => 0x40 | TEST => 0x41
  | JMP => 0x50 | JE => 0x51 | JNE => 0x52 | JG => 0x53 | JL => 0x54 | JGE => 0x55 | JLE => 0x56
  | CALL => 0x57 | RET => 0x58
  | undefined byte _ => byte

theorem map_value_named : named.map value = definedOpcodeValues := rfl

/-- `static_cast<Opcode>(byte)`. -/
def ofValue (byte : UInt8) : Opcode :=
  match h : named.find? fun opcode => opcode.value == byte with
  | some opcode => opcode
  | none => undefined byte (by
      rw [← map_value_named, List.mem_map]
      rintro ⟨opcode, hmem, hvalue⟩
      exact List.find?_eq_none.mp h opcode hmem (by simp [hvalue]))

/-- An enumerator, or a byte that names none. -/
theorem mem_named_or_undefined (opcode : Opcode) :
    opcode ∈ named ∨ ∃ byte h, opcode = undefined byte h := by
  cases opcode with
  | undefined byte h => exact Or.inr ⟨byte, h, rfl⟩
  | _ => exact Or.inl (by decide)

theorem value_injOn_named :
    ∀ a ∈ named, ∀ b ∈ named, a.value = b.value → a = b := by decide

theorem value_mem_of_mem_named {opcode : Opcode} (h : opcode ∈ named) :
    opcode.value ∈ definedOpcodeValues := by
  rw [← map_value_named]
  exact List.mem_map_of_mem h

theorem value_injective {a b : Opcode} (h : a.value = b.value) : a = b := by
  rcases mem_named_or_undefined a with ha | ⟨x, hx, rfl⟩ <;>
    rcases mem_named_or_undefined b with hb | ⟨y, hy, rfl⟩
  · exact value_injOn_named a ha b hb h
  · rw [show y = a.value from h.symm] at hy
    exact absurd (value_mem_of_mem_named ha) hy
  · rw [show x = b.value from h] at hx
    exact absurd (value_mem_of_mem_named hb) hx
  · simp only [value] at h
    subst h
    rfl

@[simp] theorem value_ofValue (byte : UInt8) : (ofValue byte).value = byte := by
  unfold ofValue
  split
  · next opcode h =>
    have := List.find?_some h
    simpa using this
  · rfl

@[simp] theorem ofValue_value (opcode : Opcode) : ofValue opcode.value = opcode :=
  value_injective (value_ofValue _)

end Opcode

/-- How the low 56 bits of an instruction word are interpreted. -/
inductive Format where
  | none | reg1 | reg2 | regImm | mem | jump | sysImm
  deriving DecidableEq, Repr, Inhabited

/-- Static metadata for one opcode. -/
structure OpcodeInfo where
  opcode : Opcode
  mnemonic : String
  format : Format
  /-- The instruction writes its `dst` register. -/
  writesDst : Bool := false
  /-- The instruction reads its `dst` register. -/
  readsDst : Bool := false
  /-- The instruction updates FLAGS. -/
  writesFlags : Bool := false
  /-- Control leaves the following instruction unconditionally. -/
  isTerminator : Bool := false
  /-- The instruction transfers control, conditionally or not. -/
  isBranch : Bool := false
  deriving DecidableEq

/-- Every opcode: opcode, mnemonic, format, writesDst, readsDst, writesFlags, isTerminator,
isBranch. -/
def kOpcodes : List OpcodeInfo :=
  [⟨.NOP, "NOP", .none, false, false, false, false, false⟩,
   ⟨.HALT, "HALT", .none, false, false, false, true, false⟩,
   ⟨.SYSCALL, "SYSCALL", .sysImm, false, false, false, false, false⟩,
   ⟨.MOV, "MOV", .reg2, true, false, false, false, false⟩,
   ⟨.MOVI, "MOVI", .regImm, true, false, false, false, false⟩,
   ⟨.LOAD, "LOAD", .mem, true, false, false, false, false⟩,
   ⟨.STORE, "STORE", .mem, false, true, false, false, false⟩,
   ⟨.LEA, "LEA", .regImm, true, false, false, false, false⟩,
   ⟨.PUSH, "PUSH", .reg1, false, true, false, false, false⟩,
   ⟨.POP, "POP", .reg1, true, false, false, false, false⟩,
   ⟨.ADD, "ADD", .reg2, true, true, true, false, false⟩,
   ⟨.SUB, "SUB", .reg2, true, true, true, false, false⟩,
   ⟨.MUL, "MUL", .reg2, true, true, true, false, false⟩,
   ⟨.DIV, "DIV", .reg2, true, true, true, false, false⟩,
   ⟨.MOD, "MOD", .reg2, true, true, true, false, false⟩,
   ⟨.INC, "INC", .reg1, true, true, true, false, false⟩,
   ⟨.DEC, "DEC", .reg1, true, true, true, false, false⟩,
   ⟨.NEG, "NEG", .reg1, true, true, true, false, false⟩,
   ⟨.AND, "AND", .reg2, true, true, true, false, false⟩,
   ⟨.OR, "OR", .reg2, true, true, true, false, false⟩,
   ⟨.XOR, "XOR", .reg2, true, true, true, false, false⟩,
   ⟨.NOT, "NOT", .reg1, true, true, false, false, false⟩,
   ⟨.SHL, "SHL", .reg2, true, true, true, false, false⟩,
   ⟨.SHR, "SHR", .reg2, true, true, true, false, false⟩,
   ⟨.SAR, "SAR", .reg2, true, true, true, false, false⟩,
   ⟨.CMP, "CMP", .reg2, false, true, true, false, false⟩,
   ⟨.TEST, "TEST", .reg2, false, true, true, false, false⟩,
   ⟨.JMP, "JMP", .jump, false, false, false, true, true⟩,
   ⟨.JE, "JE", .jump, false, false, false, false, true⟩,
   ⟨.JNE, "JNE", .jump, false, false, false, false, true⟩,
   ⟨.JG, "JG", .jump, false, false, false, false, true⟩,
   ⟨.JL, "JL", .jump, false, false, false, false, true⟩,
   ⟨.JGE, "JGE", .jump, false, false, false, false, true⟩,
   ⟨.JLE, "JLE", .jump, false, false, false, false, true⟩,
   ⟨.CALL, "CALL", .jump, false, false, false, false, true⟩,
   ⟨.RET, "RET", .none, false, false, false, true, true⟩]

/-- Metadata lookup; `none` for a byte that names no opcode. -/
def findOpcode (opcode : Opcode) : Option OpcodeInfo :=
  kOpcodes.find? fun info => info.opcode = opcode

/-- `std::toupper` in the C locale. -/
def upper (c : UInt8) : UInt8 := if 97 ≤ c ∧ c ≤ 122 then c - 32 else c

/-- Mnemonic lookup, case-insensitive. -/
def findMnemonic (mnemonic : Str) : Option OpcodeInfo :=
  kOpcodes.find? fun info => mnemonic.map upper = str info.mnemonic

/-- Canonical mnemonic, or `???` for an unknown opcode. -/
def opcodeName (opcode : Opcode) : String :=
  match findOpcode opcode with
  | some info => info.mnemonic
  | none => "???"

/-- Number of explicit operands implied by the format. -/
def operandCount : Format → ℕ
  | .none => 0
  | .reg1 | .jump | .sysImm => 1
  | .reg2 | .regImm => 2
  | .mem => 2

/-- A lookup returns the row of the opcode it was asked for. -/
theorem opcode_of_findOpcode {opcode : Opcode} {info : OpcodeInfo}
    (h : findOpcode opcode = some info) : info.opcode = opcode := by
  simpa using List.find?_some h

theorem mem_of_findOpcode {opcode : Opcode} {info : OpcodeInfo}
    (h : findOpcode opcode = some info) : info ∈ kOpcodes := List.mem_of_find?_eq_some h

theorem findOpcode_of_mem : ∀ info ∈ kOpcodes, findOpcode info.opcode = some info := by decide

/-- A mnemonic names a row of the table. -/
theorem findOpcode_of_findMnemonic {mnemonic : Str} {info : OpcodeInfo}
    (h : findMnemonic mnemonic = some info) : findOpcode info.opcode = some info :=
  findOpcode_of_mem info (List.mem_of_find?_eq_some h)

/-! ### Registers -/

/-- `enum class Reg : u8`: the sixteen general-purpose registers are the bytes below 16. -/
structure Reg where
  index : UInt8
  deriving DecidableEq, Repr, Inhabited

abbrev kRegisterCount : ℕ := 16

/-- The register whose number is `n`. -/
def Reg.ofNat (n : ℕ) : Reg := ⟨UInt8.ofNat n⟩

/-- `Reg::R0`. -/
def Reg.R0 : Reg := ⟨0⟩

def registerIndex (reg : Reg) : ℕ := reg.index.toNat

/-- True if `reg` holds one of the 16 architectural register numbers. -/
def isValidRegister (reg : Reg) : Bool := registerIndex reg < kRegisterCount

instance neZero_sixteen : NeZero 16 := ⟨by decide⟩

/-- The entry of a sixteen-element array a register names.  Every use in the machine is guarded by
a check that the register is valid; an index past the array has no meaning in the source. -/
def Reg.slot (reg : Reg) : Fin 16 := Fin.ofNat 16 (registerIndex reg)

/-- Valid registers name different slots. -/
theorem Reg.slot_injective {a b : Reg} (ha : isValidRegister a) (hb : isValidRegister b)
    (h : a.slot = b.slot) : a = b := by
  simp only [isValidRegister, decide_eq_true_eq] at ha hb
  simp only [slot, Fin.ofNat, Fin.mk.injEq, Nat.mod_eq_of_lt ha, Nat.mod_eq_of_lt hb] at h
  cases a with
  | mk a =>
    cases b with
    | mk b =>
      have hab : a = b := UInt8.toNat_inj.mp h
      rw [hab]

end Isa
end MiniTool
