import MiniToolchain.Common.ByteOrder
import MiniToolchain.Isa.Opcode
import Mathlib.Logic.Equiv.Defs

/-!
# Instruction encoding

The one implementation of instruction words, shared by the assembler, the disassembler and the
machine.  An instruction is eight little-endian bytes:

    63        56 55    52 51    48 47                          0
    |  opcode   |  dst   |  src   |  immediate / displacement  |

## Main definitions

* `Instruction` — a decoded instruction.
* `fieldsOf` — which fields a format gives a meaning.
* `encode`, `decode`, `encodeInto`, `decodeFrom` — words and buffers.
* `branchTarget`, `branchDisplacement` — the arithmetic of relative branches.

## Main results

* `decode_encode`, `encode_decode` — the codec is a bijection between the encodable instructions and
  the accepted words.
* `encode_eq_ok_iff`, `decode_eq_ok_iff` — what is encodable and what is accepted, field by field.
-/

namespace MiniTool
namespace Isa

open ByteOrder

/-- A decoded instruction.  Fields the format does not use are zero. -/
structure Instruction where
  opcode : Opcode := .NOP
  dst : Reg := .R0
  src : Reg := .R0
  /-- Immediate, displacement or syscall number; zero-extended only for `Format.sysImm`. -/
  imm : Int64 := 0
  deriving DecidableEq, Repr, Inhabited

/-- The format of `opcode`, if it is defined. -/
def formatOf (opcode : Opcode) : Option Format := (findOpcode opcode).map (·.format)

abbrev kInstructionSize : ℕ := 8
abbrev kOpcodeShift : UInt64 := 56
abbrev kDstShift : UInt64 := 52
abbrev kSrcShift : UInt64 := 48
abbrev kImmediateBits : ℕ := 48
abbrev kImmediateMask : UInt64 := ((1 : UInt64) <<< 48) - 1
abbrev kRegisterMask : UInt64 := 0xF

inductive EncodeError where
  | unknownOpcode
  | invalidRegister
  | immediateOutOfRange
  /-- A field unused by this instruction's format was non-zero. -/
  | nonCanonicalOperand
  /-- The destination buffer is smaller than `kInstructionSize`. -/
  | bufferTooSmall
  deriving DecidableEq, Repr

inductive DecodeError where
  | unknownOpcode
  /-- A register field must be zero for this format but was not. -/
  | reservedRegisterFieldSet
  /-- The immediate field must be zero for this format but was not. -/
  | reservedImmediateFieldSet
  /-- Fewer than `kInstructionSize` bytes were available. -/
  | truncated
  deriving DecidableEq, Repr

def encodeErrorName : EncodeError → String
  | .unknownOpcode => "unknown opcode"
  | .invalidRegister => "invalid register"
  | .immediateOutOfRange => "immediate out of range"
  | .nonCanonicalOperand => "non-canonical operand field"
  | .bufferTooSmall => "buffer too small"

def decodeErrorName : DecodeError → String
  | .unknownOpcode => "unknown opcode"
  | .reservedRegisterFieldSet => "reserved register field set"
  | .reservedImmediateFieldSet => "reserved immediate field set"
  | .truncated => "truncated instruction"

/-- Per-format description of which fields carry meaning. -/
structure FieldUse where
  usesDst : Bool := false
  usesSrc : Bool := false
  usesImm : Bool := false
  immSigned : Bool := true
  deriving DecidableEq

def fieldsOf : Format → FieldUse
  | .none => ⟨false, false, false, true⟩
  | .reg1 => ⟨true, false, false, true⟩
  | .reg2 => ⟨true, true, false, true⟩
  | .regImm => ⟨true, false, true, true⟩
  | .mem => ⟨true, true, true, true⟩
  | .jump => ⟨false, false, true, true⟩
  | .sysImm => ⟨false, false, true, false⟩

/-- The word with the given fields. -/
def packWord (opcode : UInt8) (dst src : ℕ) (immBits : UInt64) : UInt64 :=
  (opcode.toUInt64 <<< kOpcodeShift) ||| (UInt64.ofNat dst <<< kDstShift)
    ||| (UInt64.ofNat src <<< kSrcShift) ||| immBits

/-- Encodes one instruction into its 64-bit word. -/
def encode (instruction : Instruction) : Except EncodeError UInt64 :=
  match findOpcode instruction.opcode with
  | none => .error .unknownOpcode
  | some info =>
    let fields := fieldsOf info.format
    if !isValidRegister instruction.dst || !isValidRegister instruction.src then
      .error .invalidRegister
    else if !fields.usesDst && instruction.dst ≠ .R0 then .error .nonCanonicalOperand
    else if !fields.usesSrc && instruction.src ≠ .R0 then .error .nonCanonicalOperand
    else if !fields.usesImm && instruction.imm ≠ 0 then .error .nonCanonicalOperand
    else if fields.usesImm && fields.immSigned && !fitsSigned instruction.imm kImmediateBits then
      .error .immediateOutOfRange
    else if fields.usesImm && !fields.immSigned && (instruction.imm < 0 ||
        !fitsUnsigned instruction.imm.toUInt64 kImmediateBits) then
      .error .immediateOutOfRange
    else
      let immBits := if fields.usesImm then instruction.imm.toUInt64 &&& kImmediateMask else 0
      .ok (packWord instruction.opcode.value (registerIndex instruction.dst)
        (registerIndex instruction.src) immBits)

/-- The immediate of a word whose format is known. -/
def immediateOf (fields : FieldUse) (immBits : UInt64) : Int64 :=
  if fields.usesImm then
    if fields.immSigned then signExtend immBits kImmediateBits else immBits.toInt64
  else 0

/-- Decodes one 64-bit word. -/
def decode (word : UInt64) : Except DecodeError Instruction :=
  let opcode := Opcode.ofValue ((word >>> kOpcodeShift) &&& 0xFF).toUInt8
  match findOpcode opcode with
  | none => .error .unknownOpcode
  | some info =>
    let fields := fieldsOf info.format
    let dstBits := (word >>> kDstShift) &&& kRegisterMask
    let srcBits := (word >>> kSrcShift) &&& kRegisterMask
    let immBits := word &&& kImmediateMask
    if !fields.usesDst && dstBits ≠ 0 then .error .reservedRegisterFieldSet
    else if !fields.usesSrc && srcBits ≠ 0 then .error .reservedRegisterFieldSet
    else if !fields.usesImm && immBits ≠ 0 then .error .reservedImmediateFieldSet
    else
      .ok {
        opcode := opcode
        dst := ⟨dstBits.toUInt8⟩
        src := ⟨srcBits.toUInt8⟩
        imm := immediateOf fields immBits }

/-- Encodes into the first eight bytes of a buffer; on success, the new contents of the buffer. -/
def encodeInto (out : List UInt8) (instruction : Instruction) : Except EncodeError (List UInt8) :=
  if out.length < kInstructionSize then .error .bufferTooSmall
  else
    match encode instruction with
    | .error e => .error e
    | .ok word => .ok (store 8 out word)

/-- Decodes from a little-endian byte buffer of at least eight bytes. -/
def decodeFrom (bytes : List UInt8) : Except DecodeError Instruction :=
  if bytes.length < kInstructionSize then .error .truncated
  else decode (load 8 bytes)

/-- A displacement is relative to the address of the instruction following the branch. -/
def branchTarget (instructionAddress : UInt64) (displacement : Int64) : UInt64 :=
  instructionAddress + 8 + displacement.toUInt64

/-- Inverse of `branchTarget`. -/
def branchDisplacement (instructionAddress target : UInt64) : Int64 :=
  (target - (instructionAddress + 8)).toInt64

theorem branchTarget_branchDisplacement (p t : UInt64) :
    branchTarget p (branchDisplacement p t) = t := by
  simp only [branchTarget, branchDisplacement, UInt64.toUInt64_toInt64]
  grind

theorem branchDisplacement_branchTarget (p : UInt64) (imm : Int64) :
    branchDisplacement p (branchTarget p imm) = imm := by
  have hsub : branchTarget p imm - (p + 8) = imm.toUInt64 := by
    simp only [branchTarget]
    grind
  rw [branchDisplacement, hsub]
  exact Int64.toInt64_toUInt64 imm

/-! ### Word fields as numbers -/

theorem packWord_toNat (opcode : UInt8) {dst src : ℕ} {imm : UInt64} (hd : dst < 16)
    (hs : src < 16) (hi : imm.toNat < 2 ^ 48) :
    (packWord opcode dst src imm).toNat
      = opcode.toNat * 2 ^ 56 + (dst * 2 ^ 52 + (src * 2 ^ 48 + imm.toNat)) := by
  have hop := opcode.toNat_lt
  have h1 : (opcode.toUInt64 <<< kOpcodeShift).toNat = opcode.toNat <<< 56 := by
    rw [UInt64.toNat_shiftLeft, UInt8.toNat_toUInt64]
    show opcode.toNat <<< 56 % 2 ^ 64 = _
    rw [Nat.mod_eq_of_lt]
    rw [Nat.shiftLeft_eq]
    omega
  have h2 : (UInt64.ofNat dst <<< kDstShift).toNat = dst <<< 52 := by
    rw [UInt64.toNat_shiftLeft, UInt64.toNat_ofNat_of_lt' (by simp [UInt64.size]; omega)]
    show dst <<< 52 % 2 ^ 64 = _
    rw [Nat.mod_eq_of_lt]
    rw [Nat.shiftLeft_eq]
    omega
  have h3 : (UInt64.ofNat src <<< kSrcShift).toNat = src <<< 48 := by
    rw [UInt64.toNat_shiftLeft, UInt64.toNat_ofNat_of_lt' (by simp [UInt64.size]; omega)]
    show src <<< 48 % 2 ^ 64 = _
    rw [Nat.mod_eq_of_lt]
    rw [Nat.shiftLeft_eq]
    omega
  rw [packWord, UInt64.toNat_or, UInt64.toNat_or, UInt64.toNat_or, h1, h2, h3, Nat.or_assoc,
    Nat.or_assoc, ← Nat.shiftLeft_add_eq_or_of_lt (a := src) hi,
    ← Nat.shiftLeft_add_eq_or_of_lt (a := dst) (i := 52) (by rw [Nat.shiftLeft_eq]; omega),
    ← Nat.shiftLeft_add_eq_or_of_lt (a := opcode.toNat) (i := 56)
      (by rw [Nat.shiftLeft_eq, Nat.shiftLeft_eq]; omega)]
  simp only [Nat.shiftLeft_eq]

theorem opcodeBits_toNat (word : UInt64) :
    ((word >>> kOpcodeShift) &&& 0xFF).toUInt8.toNat = word.toNat / 2 ^ 56 := by
  have hw := word.toNat_lt
  rw [UInt64.toNat_toUInt8, UInt64.toNat_and, UInt64.toNat_shiftRight]
  show (word.toNat >>> 56 &&& (2 ^ 8 - 1)) % 2 ^ 8 = _
  rw [Nat.and_two_pow_sub_one_eq_mod, Nat.shiftRight_eq_div_pow]
  omega

theorem dstBits_toNat (word : UInt64) :
    ((word >>> kDstShift) &&& kRegisterMask).toNat = word.toNat / 2 ^ 52 % 16 := by
  rw [UInt64.toNat_and, UInt64.toNat_shiftRight]
  show word.toNat >>> 52 &&& (2 ^ 4 - 1) = _
  rw [Nat.and_two_pow_sub_one_eq_mod, Nat.shiftRight_eq_div_pow]

theorem srcBits_toNat (word : UInt64) :
    ((word >>> kSrcShift) &&& kRegisterMask).toNat = word.toNat / 2 ^ 48 % 16 := by
  rw [UInt64.toNat_and, UInt64.toNat_shiftRight]
  show word.toNat >>> 48 &&& (2 ^ 4 - 1) = _
  rw [Nat.and_two_pow_sub_one_eq_mod, Nat.shiftRight_eq_div_pow]

theorem immBits_toNat (word : UInt64) :
    (word &&& kImmediateMask).toNat = word.toNat % 2 ^ 48 := by
  rw [UInt64.toNat_and]
  show word.toNat &&& (2 ^ 48 - 1) = _
  rw [Nat.and_two_pow_sub_one_eq_mod]

/-! ### Canonical instructions -/

/-- The instruction uses exactly the fields its format gives a meaning, in range. -/
structure Canonical (fields : FieldUse) (i : Instruction) : Prop where
  dstValid : registerIndex i.dst < 16
  srcValid : registerIndex i.src < 16
  dst : fields.usesDst = false → i.dst = .R0
  src : fields.usesSrc = false → i.src = .R0
  imm : fields.usesImm = false → i.imm = 0
  signed : fields.usesImm = true → fields.immSigned = true →
    -2 ^ 47 ≤ i.imm.toInt ∧ i.imm.toInt < 2 ^ 47
  unsigned : fields.usesImm = true → fields.immSigned = false →
    0 ≤ i.imm.toInt ∧ i.imm.toInt < 2 ^ 48

/-- The word an instruction spells, as a number. -/
def wordValue (i : Instruction) : ℕ :=
  i.opcode.value.toNat * 2 ^ 56 +
    (registerIndex i.dst * 2 ^ 52 + (registerIndex i.src * 2 ^ 48 + (i.imm.toInt % 2 ^ 48).toNat))

/-- `w` is the word of the canonical instruction `i`. -/
def Encodes (i : Instruction) (w : UInt64) : Prop :=
  ∃ info, findOpcode i.opcode = some info ∧ Canonical (fieldsOf info.format) i ∧
    w.toNat = wordValue i

theorem maskedImm_toNat (imm : Int64) :
    (imm.toUInt64 &&& kImmediateMask).toNat = (imm.toInt % 2 ^ 48).toNat := by
  rw [immBits_toNat, toInt_eq_ite]
  split_ifs <;> omega

/-- The immediate bits `encode` writes, whether or not the format has an immediate. -/
theorem immBits_of_canonical {fields : FieldUse} {i : Instruction} (h : Canonical fields i) :
    (if fields.usesImm then i.imm.toUInt64 &&& kImmediateMask else 0).toNat
      = (i.imm.toInt % 2 ^ 48).toNat := by
  split_ifs with himm
  · exact maskedImm_toNat i.imm
  · rw [h.imm (by simpa using himm)]
    rfl

/-- The value range of a signed immediate. -/
theorem signedImm_iff (imm : Int64) :
    fitsSigned imm kImmediateBits = true ↔ -2 ^ 47 ≤ imm.toInt ∧ imm.toInt < 2 ^ 47 :=
  fitsSigned_iff (by decide)

/-- The value range of an unsigned immediate is checked in two parts. -/
theorem unsignedImm_iff (imm : Int64) :
    ¬(imm < 0 ∨ fitsUnsigned imm.toUInt64 kImmediateBits = false) ↔
      0 ≤ imm.toInt ∧ imm.toInt < 2 ^ 48 := by
  have hzero : (0 : Int64).toInt = 0 := rfl
  have hbits := imm.toUInt64.toNat_lt
  rw [not_or, Int64.lt_iff_toInt_lt, hzero, Bool.not_eq_false, fitsUnsigned_iff (by decide),
    toInt_eq_ite]
  show _ ∧ _ < 2 ^ 48 ↔ _
  split_ifs <;> omega

/-- Exactly the canonical instructions encode, each to its own word. -/
theorem encode_eq_ok_iff {i : Instruction} {w : UInt64} : encode i = .ok w ↔ Encodes i w := by
  cases hinfo : findOpcode i.opcode with
  | none => simp [encode, Encodes, hinfo]
  | some info =>
    simp only [encode, Encodes, hinfo, Option.some.injEq, exists_eq_left']
    generalize fieldsOf info.format = fields
    generalize hbits : (if fields.usesImm then i.imm.toUInt64 &&& kImmediateMask else 0) = bits
    constructor
    · intro h
      split_ifs at h with hvalid hdst hsrc himm hsigned hunsigned
      have hc : Canonical fields i := by
        simp only [isValidRegister, Bool.or_eq_true, Bool.not_eq_true', decide_eq_false_iff_not,
          not_or, not_not] at hvalid
        refine ⟨hvalid.1, hvalid.2, fun hu => ?_, fun hu => ?_, fun hu => ?_, fun hu hs => ?_,
          fun hu hs => ?_⟩
        · simpa [hu] using hdst
        · simpa [hu] using hsrc
        · simpa [hu] using himm
        · have hfit : fitsSigned i.imm kImmediateBits = true := by simpa [hu, hs] using hsigned
          exact (signedImm_iff i.imm).mp hfit
        · refine (unsignedImm_iff i.imm).mp ?_
          simpa [hu, hs] using hunsigned
      simp only [Except.ok.injEq] at h
      have himmBits : bits.toNat = (i.imm.toInt % 2 ^ 48).toNat := hbits ▸ immBits_of_canonical hc
      refine ⟨hc, ?_⟩
      rw [← h, packWord_toNat _ hc.dstValid hc.srcValid (by omega), himmBits]
      rfl
    · rintro ⟨hc, hw⟩
      have hsigned : ¬((fields.usesImm && fields.immSigned && !fitsSigned i.imm kImmediateBits)
          = true) := by
        simp only [Bool.and_eq_true, Bool.not_eq_true', not_and, Bool.not_eq_false]
        rintro ⟨hu, hs⟩
        exact (signedImm_iff i.imm).mpr (hc.signed hu hs)
      have hunsigned : ¬((fields.usesImm && !fields.immSigned && (decide (i.imm < 0) ||
          !fitsUnsigned i.imm.toUInt64 kImmediateBits)) = true) := by
        simp only [Bool.and_eq_true, Bool.not_eq_true', Bool.or_eq_true, decide_eq_true_eq, not_and]
        rintro ⟨hu, hs⟩
        exact (unsignedImm_iff i.imm).mpr (hc.unsigned hu hs)
      have himmBits : bits.toNat = (i.imm.toInt % 2 ^ 48).toNat := hbits ▸ immBits_of_canonical hc
      have hd := hc.dstValid
      have hs := hc.srcValid
      rw [if_neg (by simp [isValidRegister, hd, hs]),
        if_neg (by simpa using hc.dst), if_neg (by simpa using hc.src),
        if_neg (by simpa using hc.imm), if_neg hsigned, if_neg hunsigned, Except.ok.injEq,
        ← UInt64.toNat_inj, hw, packWord_toNat _ hd hs (by omega), himmBits]
      rfl

/-- A canonical instruction encodes. -/
theorem exists_encode {i : Instruction}
    (h : ∃ info, findOpcode i.opcode = some info ∧ Canonical (fieldsOf info.format) i) :
    ∃ w, encode i = .ok w := by
  obtain ⟨info, hinfo, hcanonical⟩ := h
  have hopcode := i.opcode.value.toNat_lt
  have hdst := hcanonical.dstValid
  have hsrc := hcanonical.srcValid
  have himm : (i.imm.toInt % 2 ^ 48).toNat < 2 ^ 48 := by omega
  have hlt : wordValue i < UInt64.size := by
    simp only [wordValue, UInt64.size]
    omega
  exact ⟨UInt64.ofNat (wordValue i), encode_eq_ok_iff.mpr
    ⟨info, hinfo, hcanonical, UInt64.toNat_ofNat_of_lt' hlt⟩⟩

/-! ### What a word decodes to -/

theorem immediateOf_toInt (fields : FieldUse) {bits : UInt64} (hlt : bits.toNat < 2 ^ 48) :
    (immediateOf fields bits).toInt =
      if fields.usesImm then
        if fields.immSigned ∧ 2 ^ 47 ≤ bits.toNat then (bits.toNat : ℤ) - 2 ^ 48
        else (bits.toNat : ℤ)
      else 0 := by
  unfold immediateOf
  split_ifs with himm hsigned hhigh hhigh
  · rw [signExtend_toInt (by decide) (by decide) hlt, if_neg (by omega)]
  · have hsmall : bits.toNat < 2 ^ 47 := by
      have := not_and.mp hhigh hsigned
      omega
    rw [signExtend_toInt (by decide) (by decide) hlt, if_pos hsmall]
  · exact absurd hhigh.1 hsigned
  · rw [toInt_eq_ite, UInt64.toUInt64_toInt64, if_pos (by omega)]
  · rfl

/-- A decoded immediate is in the range of its format and spells the bits it came from. -/
theorem immediateOf_spec (fields : FieldUse) {bits : UInt64} (hlt : bits.toNat < 2 ^ 48)
    (hzero : fields.usesImm = false → bits = 0) :
    (immediateOf fields bits).toInt % 2 ^ 48 = bits.toNat ∧
      (fields.immSigned = true → -2 ^ 47 ≤ (immediateOf fields bits).toInt ∧
        (immediateOf fields bits).toInt < 2 ^ 47) ∧
      (fields.immSigned = false → 0 ≤ (immediateOf fields bits).toInt ∧
        (immediateOf fields bits).toInt < 2 ^ 48) := by
  rw [immediateOf_toInt fields hlt]
  cases himm : fields.usesImm with
  | false => simp [hzero himm]
  | true =>
    cases hsigned : fields.immSigned with
    | false =>
      simp only [if_true, Bool.false_eq_true, false_and, if_false, false_implies, true_and,
        true_implies]
      omega
    | true =>
      simp only [if_true, true_and, true_implies, Bool.true_eq_false, false_implies, and_true]
      split_ifs <;> omega

/-- An immediate is determined by its bits. -/
theorem eq_immediateOf {fields : FieldUse} {i : Instruction} (hc : Canonical fields i)
    {bits : UInt64} (hbits : (bits.toNat : ℤ) = i.imm.toInt % 2 ^ 48) :
    immediateOf fields bits = i.imm := by
  have hlt : bits.toNat < 2 ^ 48 := by omega
  rw [← Int64.toInt_inj, immediateOf_toInt fields hlt]
  cases himm : fields.usesImm with
  | false => simp [hc.imm himm]
  | true =>
    cases hsigned : fields.immSigned with
    | false =>
      have := hc.unsigned himm hsigned
      simp only [if_true, Bool.false_eq_true, false_and, if_false]
      omega
    | true =>
      have := hc.signed himm hsigned
      simp only [if_true, true_and]
      split_ifs <;> omega

theorem toUInt8_eq_of_toNat {x : UInt64} {b : UInt8} (h : x.toNat = b.toNat) : x.toUInt8 = b := by
  rw [← UInt8.toNat_inj, UInt64.toNat_toUInt8, h]
  exact Nat.mod_eq_of_lt b.toNat_lt

/-- Exactly the words of canonical instructions decode. -/
theorem decode_eq_ok_iff {w : UInt64} {i : Instruction} : decode w = .ok i ↔ Encodes i w := by
  have hw := w.toNat_lt
  have hop := opcodeBits_toNat w
  have hd := dstBits_toNat w
  have hs := srcBits_toNat w
  have hm := immBits_toNat w
  simp only [decode]
  generalize ((w >>> kOpcodeShift) &&& 0xFF).toUInt8 = opBits at hop ⊢
  generalize (w >>> kDstShift) &&& kRegisterMask = dstBits at hd ⊢
  generalize (w >>> kSrcShift) &&& kRegisterMask = srcBits at hs ⊢
  generalize w &&& kImmediateMask = immBits at hm ⊢
  constructor
  · intro h
    split at h
    · cases h
    · next info hinfo =>
      split_ifs at h with h1 h2 h3
      have himm : (fieldsOf info.format).usesImm = false → immBits = 0 := by
        intro hu
        simpa [hu] using h3
      have hlt : immBits.toNat < 2 ^ 48 := by omega
      obtain ⟨hmod, hsigned, hunsigned⟩ := immediateOf_spec (fieldsOf info.format) hlt himm
      have hdn : (dstBits.toUInt8).toNat = dstBits.toNat := by
        rw [UInt64.toNat_toUInt8]
        omega
      have hsn : (srcBits.toUInt8).toNat = srcBits.toNat := by
        rw [UInt64.toNat_toUInt8]
        omega
      cases h
      refine ⟨info, hinfo, ⟨?_, ?_, fun hu => ?_, fun hu => ?_, fun hu => ?_, fun _ => hsigned,
        fun _ => hunsigned⟩, ?_⟩
      · rw [registerIndex, hdn]
        omega
      · rw [registerIndex, hsn]
        omega
      · have hz : dstBits = 0 := by simpa [hu] using h1
        rw [hz]
        rfl
      · have hz : srcBits = 0 := by simpa [hu] using h2
        rw [hz]
        rfl
      · simp [immediateOf, hu]
      · simp only [wordValue, registerIndex, hdn, hsn, Opcode.value_ofValue]
        omega
  · rintro ⟨info, hinfo, hc, hword⟩
    simp only [wordValue] at hword
    have hdlt := hc.dstValid
    have hslt := hc.srcValid
    have hopcode : Opcode.ofValue opBits = i.opcode := by
      have hval : opBits = i.opcode.value := UInt8.toNat_inj.mp (by omega)
      rw [hval, Opcode.ofValue_value]
    have hdst : dstBits.toUInt8 = i.dst.index :=
      toUInt8_eq_of_toNat (by simp only [registerIndex] at hword hdlt hslt ⊢; omega)
    have hsrc : srcBits.toUInt8 = i.src.index :=
      toUInt8_eq_of_toNat (by simp only [registerIndex] at hword hdlt hslt ⊢; omega)
    have himm : immediateOf (fieldsOf info.format) immBits = i.imm := eq_immediateOf hc (by omega)
    have hdz : (fieldsOf info.format).usesDst = false → dstBits = 0 := by
      intro hu
      rw [← UInt64.toNat_inj, show dstBits.toNat = registerIndex i.dst by omega, hc.dst hu]
      rfl
    have hsz : (fieldsOf info.format).usesSrc = false → srcBits = 0 := by
      intro hu
      rw [← UInt64.toNat_inj, show srcBits.toNat = registerIndex i.src by omega, hc.src hu]
      rfl
    have hiz : (fieldsOf info.format).usesImm = false → immBits = 0 := by
      intro hu
      have hzero := hc.imm hu
      rw [hzero, show (0 : Int64).toInt = 0 from rfl] at hword
      rw [← UInt64.toNat_inj, UInt64.toNat_zero]
      omega
    rw [hopcode, hinfo]
    simp only
    rw [if_neg (by simpa using hdz), if_neg (by simpa using hsz), if_neg (by simpa using hiz), himm,
      hdst, hsrc]

/-! ### The codec -/

theorem decode_encode {i : Instruction} {w : UInt64} (h : encode i = .ok w) : decode w = .ok i :=
  decode_eq_ok_iff.mpr (encode_eq_ok_iff.mp h)

theorem encode_decode {w : UInt64} {i : Instruction} (h : decode w = .ok i) : encode i = .ok w :=
  encode_eq_ok_iff.mpr (decode_eq_ok_iff.mp h)

/-- Encoding into a field of one instruction fills it. -/
theorem encodeInto_eq_ok {field bytes : List UInt8} {i : Instruction}
    (hfield : field.length = kInstructionSize) :
    encodeInto field i = .ok bytes ↔ ∃ w, encode i = .ok w ∧ bytes = littleEndian 8 w := by
  have hdrop : field.drop 8 = [] := List.drop_eq_nil_of_le (le_of_eq hfield)
  unfold encodeInto store
  rw [if_neg (by omega), hdrop]
  cases encode i with
  | error e => simp
  | ok w => simp [eq_comm]

/-- A stored instruction is decoded again. -/
theorem decodeFrom_littleEndian {i : Instruction} {w : UInt64} (h : encode i = .ok w) :
    decodeFrom (littleEndian 8 w) = .ok i := by
  have hload := @load_littleEndian_append 8 (by omega) w w.toNat_lt []
  rw [List.append_nil] at hload
  unfold decodeFrom
  rw [if_neg (by rw [length_littleEndian]; decide), hload]
  exact decode_encode h

/-- What is decoded can be encoded. -/
theorem encodes_of_decodeFrom {field : List UInt8} {i : Instruction}
    (h : decodeFrom field = .ok i) : ∃ w, Encodes i w := by
  unfold decodeFrom at h
  split_ifs at h
  exact ⟨_, decode_eq_ok_iff.mp h⟩

/-- A word the decoder accepts. -/
abbrev AcceptedWord := { w : UInt64 // ∃ i, decode w = .ok i }

/-- An instruction the encoder accepts. -/
abbrev EncodableInstruction := { i : Instruction // ∃ w, encode i = .ok w }

/-- The instruction of an accepted word. -/
def AcceptedWord.instruction (w : AcceptedWord) : EncodableInstruction :=
  match h : decode w.1 with
  | .ok i => ⟨i, w.1, encode_decode h⟩
  | .error _ => absurd w.2 (by simp [h])

/-- The word of an encodable instruction. -/
def EncodableInstruction.word (i : EncodableInstruction) : AcceptedWord :=
  match h : encode i.1 with
  | .ok w => ⟨w, i.1, decode_encode h⟩
  | .error _ => absurd i.2 (by simp [h])

theorem AcceptedWord.decode_eq (w : AcceptedWord) : decode w.1 = .ok w.instruction.1 := by
  unfold instruction
  split
  · next i h => exact h
  · next e h => exact absurd w.2 (by simp [h])

theorem EncodableInstruction.encode_eq (i : EncodableInstruction) : encode i.1 = .ok i.word.1 := by
  unfold word
  split
  · next w h => exact h
  · next e h => exact absurd i.2 (by simp [h])

/-- Accepted words and encodable instructions are in one-to-one correspondence. -/
def codecEquiv : AcceptedWord ≃ EncodableInstruction where
  toFun := AcceptedWord.instruction
  invFun := EncodableInstruction.word
  left_inv := fun w => by
    have h := encode_decode w.decode_eq
    rw [w.instruction.encode_eq, Except.ok.injEq] at h
    exact Subtype.ext h
  right_inv := fun i => by
    have h := decode_encode i.encode_eq
    rw [i.word.decode_eq, Except.ok.injEq] at h
    exact Subtype.ext h

/-- **The instruction codec is a bijection**, on words and through byte buffers. -/
theorem codec_bijection :
    (∀ i w, encode i = .ok w → decode w = .ok i) ∧
    (∀ w i, decode w = .ok i → encode i = .ok w) ∧
    (∀ out i, 8 ≤ out.length →
      encodeInto out i
        = (encode i).map fun w => LittleEndian.toBytes 8 w.toNat ++ out.drop 8) ∧
    (∀ bytes, 8 ≤ bytes.length →
      decodeFrom bytes = decode (UInt64.ofNat (LittleEndian.ofBytes (bytes.take 8)))) ∧
    ∃ e : AcceptedWord ≃ EncodableInstruction,
      (∀ w, decode w.1 = .ok (e w).1) ∧ ∀ i, encode i.1 = .ok (e.symm i).1 := by
  refine ⟨fun _ _ => decode_encode, fun _ _ => encode_decode, fun out i hout => ?_,
    fun bytes hbytes => ?_, codecEquiv, AcceptedWord.decode_eq, EncodableInstruction.encode_eq⟩
  · rw [encodeInto, if_neg (Nat.not_lt.mpr hout)]
    cases encode i with
    | error e => rfl
    | ok w => simp [Except.map, store, littleEndian_eq_toBytes]
  · rw [decodeFrom, if_neg (Nat.not_lt.mpr hbytes), load_eq_ofBytes (by omega) hbytes]

end Isa
end MiniTool
