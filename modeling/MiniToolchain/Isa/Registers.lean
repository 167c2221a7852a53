import MiniToolchain.Isa.Opcode

/-!
# Names of registers

## Main definitions

* `registerName`, `parseRegister` — the canonical spelling, and what is accepted.

## Main results

* `parseRegister_registerName` — the canonical spelling is accepted.
-/

namespace MiniTool
namespace Isa

def kNames : List String :=
  ["R0", "R1", "R2", "R3", "R4", "R5", "R6", "R7", "R8", "R9", "R10", "R11", "R12", "R13", "R14",
   "R15"]

/-- The ABI roles. -/
def kFramePointer : Reg := ⟨13⟩

def kReturnValue : Reg := ⟨14⟩

/-- Canonical spelling, or `R?` for an out-of-range value. -/
def registerName (reg : Reg) : String :=
  if !isValidRegister reg then "R?" else kNames.getD (registerIndex reg) ""

/-- The value of a string of decimal digits, if it is one. -/
def decimalValue : List UInt8 → ℕ → Option ℕ
  | [], value => some value
  | c :: rest, value =>
    if c < 48 || c > 57 then none else decimalValue rest (value * 10 + (c - 48).toNat)

/-- `R0` to `R15` and the aliases `FP` and `RV`, in either case, without leading zeros. -/
def parseRegister (text : Str) : Option Reg :=
  if text.map upper = str "FP" then some kFramePointer
  else if text.map upper = str "RV" then some kReturnValue
  else if text.length < 2 || text.length > 3 || upper (text.getD 0 0) ≠ 82 then none
  else
    let digits := text.drop 1
    if digits.length > 1 && digits.getD 0 0 = 48 then none
    else
      match decimalValue digits 0 with
      | none => none
      | some value => if value ≥ kRegisterCount then none else some (Reg.ofNat value)

theorem parseRegister_registerName_ofNat :
    ∀ n < 16, parseRegister (str (registerName (Reg.ofNat n))) = some (Reg.ofNat n) := by
  decide

theorem parseRegister_registerName {reg : Reg} (h : isValidRegister reg = true) :
    parseRegister (str (registerName reg)) = some reg := by
  have hlt : registerIndex reg < 16 := by simpa [isValidRegister] using h
  have hreg : Reg.ofNat (registerIndex reg) = reg := by
    cases reg with
    | mk index => simp [Reg.ofNat, registerIndex]
  rw [← hreg]
  exact parseRegister_registerName_ofNat _ hlt

end Isa
end MiniTool
