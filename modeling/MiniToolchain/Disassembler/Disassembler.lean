import MiniToolchain.Executable.Executable
import MiniToolchain.Isa.Printing

/-!
# The disassembler

The line for one instruction.  A branch is shown with the address it goes to, by name if one is
known.

## Main definitions

* `Options`, `describeTarget`, `formatInstruction`.

## Main results

* `formatInstruction_branch` — the line for a branch without symbol names.
-/

namespace MiniTool
namespace Disassembler

open Executable Isa

structure Options where
  /-- Resolve branch targets to symbol names. -/
  showSymbols : Bool := true

/-- An address, as a symbol reference when one starts exactly there or covers it. -/
def describeTarget (address : UInt64) (executable : Option Executable) : Str :=
  let number := str "0x" ++ hexadecimal address.toNat
  match executable with
  | none => number
  | some executable =>
    match executable.symbols.find? fun symbol => symbol.address = address with
    | some symbol => symbol.name ++ str " (" ++ number ++ str ")"
    | none =>
      match executable.symbolContaining address with
      | none => number
      | some containing =>
        if containing.address ≠ address then
          containing.name ++ str "+" ++ decimal (address - containing.address).toNat ++ str " (" ++
            number ++ str ")"
        else number

/-- `{:<8}`: a text with blanks behind it, up to a width. -/
def leftAligned (text : Str) : Str := text ++ List.replicate (8 - text.length) 32

/-- One line, without the newline. -/
def formatInstruction (options : Options) (address : UInt64) (instruction : Instruction)
    (executable : Option Executable) : Str :=
  match findOpcode instruction.opcode with
  | none => toString instruction
  | some info =>
    if info.format = .jump then
      let target := branchTarget address instruction.imm
      leftAligned (str info.mnemonic) ++
        if options.showSymbols then describeTarget target executable
        else str "0x" ++ hexadecimal target.toNat
    else toString instruction

/-- The mnemonic, blanks, and the address. -/
theorem formatInstruction_branch {options : Options} (hoptions : options.showSymbols = false)
    {instruction : Instruction} {info : OpcodeInfo}
    (hinfo : findOpcode instruction.opcode = some info) (hformat : info.format = .jump)
    (address : UInt64) (executable : Option Executable) :
    formatInstruction options address instruction executable =
      str info.mnemonic ++ (List.replicate (8 - (str info.mnemonic).length) 32 ++
        48 :: 120 :: hexadecimal (branchTarget address instruction.imm).toNat) := by
  have hzero : str "0x" = [48, 120] := by decide
  unfold formatInstruction leftAligned
  rw [hinfo]
  dsimp only
  rw [if_pos hformat, if_neg (by rw [hoptions]; decide), hzero, List.append_assoc]
  rfl

end Disassembler
end MiniTool
