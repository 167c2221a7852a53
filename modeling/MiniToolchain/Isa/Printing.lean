import MiniToolchain.Common.Binary
import MiniToolchain.Isa.Encoding
import MiniToolchain.Isa.Registers
import Mathlib.Data.Nat.Digits.Defs

/-!
# Printing instructions

The text of one instruction, as the disassembler and the tools show it.

## Main definitions

* `decimal`, `signedDecimal`, `hexadecimal` — numbers as `std::format` prints them.
* `toString` — the text of an instruction.
* `Printed`, `printedOperands` — its operands, one by one.

## Main results

* `toString_eq` — except for branches, the text is the mnemonic and the operands.
-/

namespace MiniTool
namespace Isa

/-- A number in decimal. -/
def decimal (n : ℕ) : Str :=
  if n = 0 then [48] else (Nat.digits 10 n).reverse.map fun digit => UInt8.ofNat (48 + digit)

/-- A number in upper-case hexadecimal. -/
def hexadecimal (n : ℕ) : Str := str (Binary.hexText 0 n)

/-- The absolute value, negated through `u64`. -/
def magnitude (value : Int64) : UInt64 :=
  if value < 0 then ~~~value.toUInt64 + 1 else value.toUInt64

/-- A signed number in decimal. -/
def signedDecimal (value : Int64) : Str :=
  (if value < 0 then str "-" else []) ++ decimal (magnitude value).toNat

def signOf (value : Int64) : Str := if value < 0 then str "-" else str "+"

def toString (instruction : Instruction) : Str :=
  match findOpcode instruction.opcode with
  | none => str ".word 0x" ++ str (Binary.hexText 2 instruction.opcode.value.toNat) ++ str "..."
  | some info =>
    let name := str info.mnemonic
    let dst := str (registerName instruction.dst)
    let src := str (registerName instruction.src)
    match info.format with
    | .none => name
    | .reg1 => name ++ str " " ++ dst
    | .reg2 => name ++ str " " ++ dst ++ str ", " ++ src
    | .regImm => name ++ str " " ++ dst ++ str ", " ++ signedDecimal instruction.imm
    | .mem =>
      let sign := signOf instruction.imm
      let magnitude := decimal (magnitude instruction.imm).toNat
      if instruction.opcode = .STORE then
        name ++ str " [" ++ dst ++ str " " ++ sign ++ str " " ++ magnitude ++ str "], " ++ src
      else
        name ++ str " " ++ dst ++ str ", [" ++ src ++ str " " ++ sign ++ str " " ++ magnitude ++
          str "]"
    | .jump =>
      name ++ str " ." ++ (if instruction.imm < 0 then [] else str "+") ++
        signedDecimal instruction.imm
    | .sysImm => name ++ str " " ++ signedDecimal instruction.imm

/-! ### Operands -/

/-- An operand as it is printed. -/
inductive Printed
  | reg (r : Reg)
  | imm (value : Int64)
  | mem (base : Reg) (displacement : Int64)
  deriving DecidableEq

def Printed.text : Printed → Str
  | .reg r => str (registerName r)
  | .imm value => signedDecimal value
  | .mem base displacement =>
    str "[" ++ (str (registerName base) ++ (str " " ++ (signOf displacement ++ (str " " ++
      (decimal (magnitude displacement).toNat ++ str "]")))))

/-- The operands after the first, each behind a comma. -/
def moreText : List Printed → Str
  | [] => []
  | operand :: rest => str ", " ++ (operand.text ++ moreText rest)

/-- The operands, behind a blank. -/
def operandsText : List Printed → Str
  | [] => []
  | operand :: rest => str " " ++ (operand.text ++ moreText rest)

def printedOperands (info : OpcodeInfo) (instruction : Instruction) : List Printed :=
  match info.format with
  | .none => []
  | .reg1 => [.reg instruction.dst]
  | .reg2 => [.reg instruction.dst, .reg instruction.src]
  | .regImm => [.reg instruction.dst, .imm instruction.imm]
  | .mem =>
    if instruction.opcode = .STORE then
      [.mem instruction.dst instruction.imm, .reg instruction.src]
    else [.reg instruction.dst, .mem instruction.src instruction.imm]
  | .jump => []
  | .sysImm => [.imm instruction.imm]

theorem toString_eq {instruction : Instruction} {info : OpcodeInfo}
    (hinfo : findOpcode instruction.opcode = some info) (hformat : info.format ≠ .jump) :
    toString instruction =
      str info.mnemonic ++ operandsText (printedOperands info instruction) := by
  have hopen : str " [" = str " " ++ str "[" := by decide
  have hclose : str "], " = str "]" ++ str ", " := by decide
  have hcomma : str ", [" = str ", " ++ str "[" := by decide
  unfold toString printedOperands
  rw [hinfo]
  dsimp only
  cases hcase : info.format with
  | jump => exact absurd hcase hformat
  | none => simp [operandsText]
  | reg1 => simp [operandsText, moreText, Printed.text]
  | reg2 => simp [operandsText, moreText, Printed.text]
  | regImm => simp [operandsText, moreText, Printed.text]
  | mem =>
    dsimp only
    split_ifs
    · simp only [operandsText, moreText, Printed.text, hopen, hclose, List.append_assoc,
        List.append_nil]
    · simp only [operandsText, moreText, Printed.text, hcomma, List.append_assoc, List.append_nil]
  | sysImm => simp [operandsText, moreText, Printed.text]

end Isa
end MiniTool
