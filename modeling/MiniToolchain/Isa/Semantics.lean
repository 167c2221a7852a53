import MiniToolchain.Isa.Opcode

/-!
# Arithmetic and flags

The one implementation of what an arithmetic instruction computes, shared by the machine and by the
constant folder.

## Main definitions

* `computeFlags`, `evaluateBinary`, `evaluateUnary` — values and FLAGS.
* `readsFlags`, `branchTaken` — the conditional branches.

-/

namespace MiniTool
namespace Isa

abbrev kZeroFlag : UInt64 := 1
abbrev kSignFlag : UInt64 := 2
abbrev kCarryFlag : UInt64 := 4
abbrev kOverflowFlag : UInt64 := 8
/-- Every bit outside this mask reads as zero. -/
abbrev kFlagsMask : UInt64 := kZeroFlag ||| kSignFlag ||| kCarryFlag ||| kOverflowFlag

inductive AluError
  /-- DIV or MOD with a zero divisor. -/
  | divisionByZero
  /-- The opcode is not an ALU operation. -/
  | notArithmetic
  deriving DecidableEq, Repr

structure AluResult where
  /-- The value written to the destination.  Ignored for CMP and TEST. -/
  value : UInt64
  flags : UInt64
  /-- False for CMP and TEST. -/
  writesValue : Bool := true
  /-- False for NOT. -/
  writesFlags : Bool := true
  deriving DecidableEq, Repr

/-- `flag` if `b` holds, no bit otherwise. -/
def flagIf (b : Prop) [Decidable b] (flag : UInt64) : UInt64 := if b then flag else 0

def zeroAndSign (result : UInt64) : UInt64 :=
  flagIf (result = 0) kZeroFlag ||| flagIf (result >>> 63 ≠ 0) kSignFlag

/-- Logical operations clear CF and OF. -/
def logical (result : UInt64) : AluResult := { value := result, flags := zeroAndSign result }

/-- ZF and SF from the result, CF and OF for an addition or a subtraction of `b` from `a`. -/
def computeFlags (result a b : UInt64) (isSubtraction : Bool) : UInt64 :=
  if isSubtraction then
    zeroAndSign result ||| flagIf (a < b) kCarryFlag |||
      flagIf (((a ^^^ b) &&& (a ^^^ result)) >>> 63 ≠ 0) kOverflowFlag
  else
    zeroAndSign result ||| flagIf (result < a) kCarryFlag |||
      flagIf ((~~~(a ^^^ b) &&& (a ^^^ result)) >>> 63 ≠ 0) kOverflowFlag

def isBinaryAlu : Opcode → Bool
  | .ADD | .SUB | .MUL | .DIV | .MOD | .AND | .OR | .XOR | .SHL | .SHR | .SAR | .CMP | .TEST => true
  | _ => false

def isUnaryAlu : Opcode → Bool
  | .INC | .DEC | .NEG | .NOT => true
  | _ => false

/-- A two-operand ALU opcode, `a` the destination value and `b` the source value. -/
def evaluateBinary (opcode : Opcode) (a b : UInt64) : Except AluError AluResult :=
  match opcode with
  | .ADD =>
    let result := a + b
    .ok { value := result, flags := computeFlags result a b false }
  | .SUB =>
    let result := a - b
    .ok { value := result, flags := computeFlags result a b true }
  | .MUL =>
    let result := a * b
    .ok { value := result,
          flags := zeroAndSign result ||| flagIf (a ≠ 0 ∧ result / a ≠ b) kCarryFlag }
  | .DIV =>
    if b = 0 then .error .divisionByZero
    else
      let lhs := a.toInt64
      let rhs := b.toInt64
      -- INT64_MIN / -1 wraps to INT64_MIN
      let result := if rhs = -1 then ~~~a + 1 else (lhs / rhs).toUInt64
      .ok { value := result, flags := zeroAndSign result }
  | .MOD =>
    if b = 0 then .error .divisionByZero
    else
      let lhs := a.toInt64
      let rhs := b.toInt64
      let result := if rhs = -1 then 0 else (lhs % rhs).toUInt64
      .ok { value := result, flags := zeroAndSign result }
  | .AND => .ok (logical (a &&& b))
  | .OR => .ok (logical (a ||| b))
  | .XOR => .ok (logical (a ^^^ b))
  | .SHL =>
    let count := b &&& 63
    let result := if count = 0 then a else a <<< count
    .ok { value := result,
          flags := zeroAndSign result |||
            flagIf (count ≠ 0 ∧ (a >>> (64 - count)) &&& 1 ≠ 0) kCarryFlag }
  | .SHR =>
    let count := b &&& 63
    let result := if count = 0 then a else a >>> count
    .ok { value := result,
          flags := zeroAndSign result |||
            flagIf (count ≠ 0 ∧ (a >>> (count - 1)) &&& 1 ≠ 0) kCarryFlag }
  | .SAR =>
    let count := b &&& 63
    -- the arithmetic shift, built from unsigned operations
    let sign := if a >>> 63 ≠ 0 then (~~~(0 : UInt64)) <<< (64 - count) else 0
    let result := if count = 0 then a else (a >>> count) ||| sign
    .ok { value := result,
          flags := zeroAndSign result |||
            flagIf (count ≠ 0 ∧ (a >>> (count - 1)) &&& 1 ≠ 0) kCarryFlag }
  | .CMP =>
    let result := a - b
    .ok { value := a, flags := computeFlags result a b true, writesValue := false }
  | .TEST =>
    let result := a &&& b
    .ok { value := a, flags := zeroAndSign result, writesValue := false }
  | _ => .error .notArithmetic

/-- A one-operand ALU opcode. -/
def evaluateUnary (opcode : Opcode) (a : UInt64) : Except AluError AluResult :=
  match opcode with
  | .INC =>
    let result := a + 1
    .ok { value := result, flags := computeFlags result a 1 false }
  | .DEC =>
    let result := a - 1
    .ok { value := result, flags := computeFlags result a 1 true }
  | .NEG =>
    let result := ~~~a + 1
    .ok { value := result, flags := computeFlags result 0 a true }
  -- the only ALU instruction that leaves FLAGS alone
  | .NOT => .ok { value := ~~~a, flags := 0, writesFlags := false }
  | _ => .error .notArithmetic

/-- True for the conditional jumps. -/
def readsFlags : Opcode → Bool
  | .JE | .JNE | .JG | .JL | .JGE | .JLE => true
  | _ => false

/-- Whether a branch is taken; true for JMP and CALL, false for what is not a branch. -/
def branchTaken (opcode : Opcode) (flags : UInt64) : Bool :=
  let zero : Bool := flags &&& kZeroFlag ≠ 0
  let sign : Bool := flags &&& kSignFlag ≠ 0
  let overflow : Bool := flags &&& kOverflowFlag ≠ 0
  match opcode with
  | .JMP | .CALL => true
  | .JE => zero
  | .JNE => !zero
  | .JG => !zero && sign == overflow
  | .JL => sign != overflow
  | .JGE => sign == overflow
  | .JLE => zero || sign != overflow
  | _ => false

end Isa
end MiniTool
