import MiniToolchain.Isa.Encoding
import MiniToolchain.Lib.Bounds
import MiniToolchain.Object.Object

/-!
# Applying relocations

Patches a field of a section once the address it refers to is known.

## Main definitions

* `RelocationError`, `relocatedValue`, `applyRelocation`.

## Main results

* `applyRelocation_ne_none` — the field is never taken from outside the section.
* `applyRelocation_eq_ok` — what a relocation that succeeds does.

`none` is a field taken from outside the section.
-/

namespace MiniTool
namespace Object

open ByteOrder Isa Bounds

inductive RelocationError
  | outOfBounds
  | overflow
  | unalignedInstructionField
  | notAnInstruction
  deriving DecidableEq, Repr

def relocationErrorName : RelocationError → String
  | .outOfBounds => "relocation offset is outside its section"
  | .overflow => "relocated value does not fit the field"
  | .unalignedInstructionField => "instruction-field relocation is not 8-byte aligned"
  | .notAnInstruction => "instruction-field relocation does not point at an instruction"

/-- The value of the field, with the arithmetic of `u64`. -/
def relocatedValue (type : RelocationType) (symbolAddress : UInt64) (addend : Int64)
    (place : UInt64) : Int64 :=
  let target := symbolAddress + addend.toUInt64
  match type with
  | .abs32 => target.toInt64
  | .abs64 => target.toInt64
  | .imm48 => target.toInt64
  | .pcrel32 => (target - place).toInt64
  | .pcrel48 => branchDisplacement place target

/-- The new contents of an instruction field.  The word is decoded rather than patched, which shows
that it is an instruction. -/
def patchInstruction (field : List UInt8) (offset : UInt64) (value : Int64) :
    Except RelocationError (List UInt8) :=
  if offset % UInt64.ofNat kInstructionSize ≠ 0 then .error .unalignedInstructionField
  else if !fitsSigned value kImmediateBits then .error .overflow
  else
    match decodeFrom field with
    | .error _ => .error .notAnInstruction
    | .ok decoded =>
      match encodeInto field { decoded with imm := value } with
      | .error _ => .error .overflow
      | .ok patched => .ok patched

/-- The new contents of a field. -/
def patchField (type : RelocationType) (field : List UInt8) (offset : UInt64) (value : Int64) :
    Except RelocationError (List UInt8) :=
  match type with
  | .abs32 =>
    if !fitsUnsigned value.toUInt64 32 then .error .overflow
    else .ok (store 4 field value.toUInt64)
  | .abs64 => .ok (store 8 field value.toUInt64)
  | .pcrel32 =>
    if !fitsSigned value 32 then .error .overflow
    else .ok (store 4 field (value.toUInt64 &&& 0xFFFFFFFF))
  | .imm48 => patchInstruction field offset value
  | .pcrel48 => patchInstruction field offset value

def applyRelocation (data : List UInt8) (sectionAddress : UInt64) (relocation : Relocation)
    (symbolAddress : UInt64) : Option (Except RelocationError (List UInt8)) :=
  let width := relocationWidth relocation.type
  let offset := relocation.offset.toNat
  if offset > data.length ∨ width > data.length - offset then some (.error .outOfBounds)
  else
    let place := sectionAddress + relocation.offset
    let value := relocatedValue relocation.type symbolAddress relocation.addend place
    (subspan data offset width).map fun field =>
      match patchField relocation.type field relocation.offset value with
      | .error e => .error e
      | .ok patched => .ok (replaceAt data offset patched)

/-! ### What a relocation does -/

theorem length_patchField {type : RelocationType} {field patched : List UInt8} {offset : UInt64}
    {value : Int64} (hfield : field.length = relocationWidth type)
    (h : patchField type field offset value = .ok patched) :
    patched.length = relocationWidth type := by
  have hinstruction : ∀ {field patched : List UInt8}, field.length = 8 →
      patchInstruction field offset value = .ok patched → patched.length = 8 := by
    intro field patched hfield h
    unfold patchInstruction at h
    split_ifs at h
    split at h
    · cases h
    · split at h
      · cases h
      · next hencode =>
        cases h
        obtain ⟨w, -, rfl⟩ := (encodeInto_eq_ok hfield).mp hencode
        exact length_littleEndian 8 w
  unfold patchField at h
  cases type with
  | abs32 =>
    dsimp only at h
    split_ifs at h
    cases h
    exact (length_store hfield.ge _).trans hfield
  | abs64 =>
    cases h
    exact (length_store hfield.ge _).trans hfield
  | pcrel32 =>
    dsimp only at h
    split_ifs at h
    cases h
    exact (length_store hfield.ge _).trans hfield
  | imm48 => exact hinstruction hfield h
  | pcrel48 => exact hinstruction hfield h

section

variable {data : List UInt8} {sectionAddress symbolAddress : UInt64} {relocation : Relocation}

/-- The field is never taken from outside the section. -/
theorem applyRelocation_ne_none :
    applyRelocation data sectionAddress relocation symbolAddress ≠ none := by
  unfold applyRelocation
  dsimp only
  split_ifs with h
  · nofun
  · rw [subspan_of_le (by omega)]
    nofun

/-- A relocation whose field lies in the section is not out of bounds. -/
theorem applyRelocation_ne_outOfBounds
    (h : relocation.offset.toNat + relocationWidth relocation.type ≤ data.length) :
    applyRelocation data sectionAddress relocation symbolAddress ≠ some (.error .outOfBounds) := by
  have hpatch : ∀ type field offset value,
      patchField type field offset value ≠ .error .outOfBounds := by
    intro type field offset value
    have hinstruction : patchInstruction field offset value ≠ .error .outOfBounds := by
      unfold patchInstruction
      split_ifs
      · nofun
      · nofun
      · split
        · nofun
        · split <;> nofun
    unfold patchField
    cases type with
    | abs32 =>
      dsimp only
      split_ifs <;> nofun
    | abs64 => nofun
    | pcrel32 =>
      dsimp only
      split_ifs <;> nofun
    | imm48 => exact hinstruction
    | pcrel48 => exact hinstruction
  unfold applyRelocation
  dsimp only
  rw [if_neg (by omega), subspan_of_le h]
  simp only [Option.map_some, ne_eq, Option.some.injEq]
  split
  · next e he =>
    intro heq
    cases heq
    exact hpatch _ _ _ _ he
  · nofun

/-- What a relocation that succeeds does: it replaces its field. -/
theorem applyRelocation_eq_ok {result : List UInt8}
    (h : applyRelocation data sectionAddress relocation symbolAddress = some (.ok result)) :
    ∃ field patched,
      subspan data relocation.offset.toNat (relocationWidth relocation.type) = some field ∧
      patchField relocation.type field relocation.offset (relocatedValue relocation.type
        symbolAddress relocation.addend (sectionAddress + relocation.offset)) = .ok patched ∧
      patched.length = relocationWidth relocation.type ∧
      result = replaceAt data relocation.offset.toNat patched := by
  unfold applyRelocation at h
  dsimp only at h
  split_ifs at h with hout
  · cases h
  rw [Option.map_eq_some_iff] at h
  obtain ⟨field, hfield, hresult⟩ := h
  split at hresult
  · cases hresult
  · next patched hpatch =>
    cases hresult
    exact ⟨field, patched, hfield, hpatch,
      length_patchField (length_of_subspan hfield) hpatch, rfl⟩

theorem length_of_applyRelocation {result : List UInt8}
    (h : applyRelocation data sectionAddress relocation symbolAddress = some (.ok result)) :
    result.length = data.length := by
  obtain ⟨field, patched, hfield, -, hlength, rfl⟩ := applyRelocation_eq_ok h
  exact length_replaceAt (by rw [hlength]; exact (subspan_eq_some.mp hfield).1)

end

end Object
end MiniTool
