import MiniToolchain.Object.Relocation

/-!
# Relocation in place

The buffer a relocation patches is handed over and written to, so that a relocation that fails could
have left it half patched.  Here the buffer is a state: every store is a step, and what is returned
comes with the buffer at that point.

## Main definitions

* `encodeInPlace`, `patchInPlace`, `applyRelocationInPlace` — the stores, one after another.
* `Applicable` — what a relocation needs to succeed.
* `Holds` — what the patched field holds.

## Main results

* `applyRelocationInPlace_eq` — the state is the old buffer or the new one, and nothing in between.
* `patchField_isOk`, `holds_of_patchField` — when a field can be patched, and what it holds then.
-/

namespace MiniTool
namespace Object

open ByteOrder Isa Bounds

/-! ### The stores -/

/-- `encodeInto`, with the buffer after it. -/
def encodeInPlace (out : List UInt8) (instruction : Instruction) :
    Except EncodeError Unit × List UInt8 :=
  if out.length < kInstructionSize then (.error .bufferTooSmall, out)
  else
    match encode instruction with
    | .error e => (.error e, out)
    | .ok word => (.ok (), store 8 out word)

/-- The two instruction types. -/
def patchInstructionInPlace (field : List UInt8) (offset : UInt64) (value : Int64) :
    Except RelocationError Unit × List UInt8 :=
  if offset % UInt64.ofNat kInstructionSize ≠ 0 then (.error .unalignedInstructionField, field)
  else if !fitsSigned value kImmediateBits then (.error .overflow, field)
  else
    match decodeFrom field with
    | .error _ => (.error .notAnInstruction, field)
    | .ok decoded =>
      match encodeInPlace field { decoded with imm := value } with
      | (.error _, field) => (.error .overflow, field)
      | (.ok (), field) => (.ok (), field)

/-- The switch over the type, with the field after it. -/
def patchInPlace (type : RelocationType) (field : List UInt8) (offset : UInt64) (value : Int64) :
    Except RelocationError Unit × List UInt8 :=
  match type with
  | .abs32 =>
    if !fitsUnsigned value.toUInt64 32 then (.error .overflow, field)
    else (.ok (), store 4 field value.toUInt64)
  | .abs64 => (.ok (), store 8 field value.toUInt64)
  | .pcrel32 =>
    if !fitsSigned value 32 then (.error .overflow, field)
    else (.ok (), store 4 field (value.toUInt64 &&& 0xFFFFFFFF))
  | .imm48 => patchInstructionInPlace field offset value
  | .pcrel48 => patchInstructionInPlace field offset value

/-- `applyRelocation`, with the buffer after it; `none` is a field taken from outside the
section. -/
def applyRelocationInPlace (data : List UInt8) (sectionAddress : UInt64) (relocation : Relocation)
    (symbolAddress : UInt64) : Option (Except RelocationError Unit × List UInt8) :=
  let width := relocationWidth relocation.type
  let offset := relocation.offset.toNat
  if offset > data.length ∨ width > data.length - offset then some (.error .outOfBounds, data)
  else
    let place := sectionAddress + relocation.offset
    let value := relocatedValue relocation.type symbolAddress relocation.addend place
    (subspan data offset width).map fun field =>
      let (result, field) := patchInPlace relocation.type field relocation.offset value
      (result, replaceAt data offset field)

/-! ### All or nothing -/

theorem encodeInPlace_eq (out : List UInt8) (instruction : Instruction) :
    encodeInPlace out instruction = match encodeInto out instruction with
      | .error e => (.error e, out)
      | .ok out => (.ok (), out) := by
  unfold encodeInPlace encodeInto
  split_ifs
  · rfl
  · cases encode instruction <;> rfl

theorem patchInPlace_eq (type : RelocationType) (field : List UInt8) (offset : UInt64)
    (value : Int64) :
    patchInPlace type field offset value = match patchField type field offset value with
      | .error e => (.error e, field)
      | .ok field => (.ok (), field) := by
  have hinstruction : patchInstructionInPlace field offset value =
      match patchInstruction field offset value with
      | .error e => (.error e, field)
      | .ok field => (.ok (), field) := by
    unfold patchInstructionInPlace patchInstruction
    split_ifs
    · rfl
    · rfl
    · cases decodeFrom field with
      | error e => rfl
      | ok decoded =>
        dsimp only
        rw [encodeInPlace_eq]
        cases encodeInto field { decoded with imm := value } <;> rfl
  unfold patchInPlace patchField
  cases type with
  | abs32 =>
    dsimp only
    split_ifs <;> rfl
  | abs64 => rfl
  | pcrel32 =>
    dsimp only
    split_ifs <;> rfl
  | imm48 => exact hinstruction
  | pcrel48 => exact hinstruction

theorem replaceAt_field {data field : List UInt8} {offset count : ℕ}
    (h : subspan data offset count = some field) : replaceAt data offset field = data := by
  obtain ⟨hle, rfl⟩ := subspan_eq_some.mp h
  have hlength : ((data.drop offset).take count).length = count := length_of_subspan h
  unfold replaceAt
  rw [hlength, List.append_assoc, ← List.drop_drop, List.take_append_drop, List.take_append_drop]

/-- The buffer after a relocation is the old one or the new one, and nothing in between. -/
theorem applyRelocationInPlace_eq (data : List UInt8) (sectionAddress : UInt64)
    (relocation : Relocation) (symbolAddress : UInt64) :
    applyRelocationInPlace data sectionAddress relocation symbolAddress =
      (applyRelocation data sectionAddress relocation symbolAddress).map fun result =>
        match result with
        | .error e => (.error e, data)
        | .ok data => (.ok (), data) := by
  unfold applyRelocationInPlace applyRelocation
  dsimp only
  split_ifs
  · rfl
  · cases hfield : subspan data relocation.offset.toNat (relocationWidth relocation.type) with
    | none => rfl
    | some field =>
      rw [Option.map_some, Option.map_some, Option.map_some, patchInPlace_eq]
      cases patchField relocation.type field relocation.offset _ with
      | error e =>
        dsimp only
        rw [replaceAt_field hfield]
      | ok patched => rfl

/-! ### What a field needs and what it holds -/

/-- The value `S + A`, with the arithmetic of `u64`. -/
def targetOf (relocation : Relocation) (symbolAddress : UInt64) : UInt64 :=
  symbolAddress + relocation.addend.toUInt64

/-- The offset names an instruction that can carry the value in the place of its immediate. -/
def Carries (field : List UInt8) (offset : UInt64) (value : Int64) : Prop :=
  offset.toNat % kInstructionSize = 0 ∧ -2 ^ 47 ≤ value.toInt ∧ value.toInt < 2 ^ 47 ∧
    ∃ decoded, decodeFrom field = .ok decoded ∧ ∃ w, encode { decoded with imm := value } = .ok w

/-- The value fits the field. -/
def Fits (type : RelocationType) (field : List UInt8) (offset target place : UInt64) : Prop :=
  match type with
  | .abs32 => target.toNat < 2 ^ 32
  | .abs64 => True
  | .pcrel32 => -2 ^ 31 ≤ (target - place).toInt64.toInt ∧ (target - place).toInt64.toInt < 2 ^ 31
  | .imm48 => Carries field offset target.toInt64
  | .pcrel48 => Carries field offset (branchDisplacement place target)

/-- An instruction keeps everything but its immediate. -/
def Patched (field field' : List UInt8) (imm : Int64 → Prop) : Prop :=
  ∃ i i', decodeFrom field = .ok i ∧ decodeFrom field' = .ok i' ∧ i'.opcode = i.opcode ∧
    i'.dst = i.dst ∧ i'.src = i.src ∧ imm i'.imm

/-- The field holds the value of the type's formula, and has lost nothing of it. -/
def Holds (type : RelocationType) (field field' : List UInt8) (target place : UInt64) : Prop :=
  match type with
  | .abs32 => load 4 field' = target
  | .abs64 => load 8 field' = target
  | .pcrel32 => signExtend (load 4 field') 32 = (target - place).toInt64
  | .imm48 => Patched field field' fun imm => imm = target.toInt64
  | .pcrel48 => Patched field field' fun imm => branchTarget place imm = target

section

variable {field patched : List UInt8} {offset : UInt64} {value : Int64}

/-- An instruction is patched exactly when it can carry the value. -/
theorem patchInstruction_eq_ok (hfield : field.length = 8) :
    patchInstruction field offset value = .ok patched ↔
      offset.toNat % kInstructionSize = 0 ∧ -2 ^ 47 ≤ value.toInt ∧ value.toInt < 2 ^ 47 ∧
        ∃ decoded, decodeFrom field = .ok decoded ∧
          ∃ w, encode { decoded with imm := value } = .ok w ∧ patched = littleEndian 8 w := by
  have haligned : offset % UInt64.ofNat kInstructionSize = 0 ↔
      offset.toNat % kInstructionSize = 0 := by
    rw [← UInt64.toNat_inj, UInt64.toNat_mod]
    rfl
  have hfits := signedImm_iff value
  unfold patchInstruction
  split_ifs with hunaligned hrange
  · exact ⟨nofun, fun h => absurd (haligned.mpr h.1) hunaligned⟩
  · have hrange' : ¬(-2 ^ 47 ≤ value.toInt ∧ value.toInt < 2 ^ 47) := by
      rw [← hfits]
      simpa using hrange
    exact ⟨nofun, fun h => absurd ⟨h.2.1, h.2.2.1⟩ hrange'⟩
  · have hrange' : -2 ^ 47 ≤ value.toInt ∧ value.toInt < 2 ^ 47 := by
      rw [← hfits]
      simpa using hrange
    have hunaligned' := haligned.mp (not_not.mp hunaligned)
    cases decodeFrom field with
    | error e => exact ⟨nofun, fun ⟨_, _, _, _, h, _⟩ => nomatch h⟩
    | ok decoded =>
      dsimp only
      cases hinto : encodeInto field { decoded with imm := value } with
      | error e =>
        constructor
        · exact nofun
        · rintro ⟨-, -, -, _, ⟨⟩, w, hw, -⟩
          rw [(encodeInto_eq_ok hfield).mpr ⟨w, hw, rfl⟩] at hinto
          cases hinto
      | ok bytes =>
        obtain ⟨w, hw, rfl⟩ := (encodeInto_eq_ok hfield).mp hinto
        constructor
        · rintro ⟨⟩
          exact ⟨hunaligned', hrange'.1, hrange'.2, _, rfl, w, hw, rfl⟩
        · rintro ⟨-, -, -, _, ⟨⟩, w', hw', rfl⟩
          rw [hw] at hw'
          cases hw'
          rfl

theorem isOk_patchInstruction (hfield : field.length = 8) :
    (∃ patched, patchInstruction field offset value = .ok patched) ↔
      Carries field offset value := by
  constructor
  · rintro ⟨patched, h⟩
    obtain ⟨haligned, hlo, hhi, decoded, hdecode, w, hw, -⟩ := (patchInstruction_eq_ok hfield).mp h
    exact ⟨haligned, hlo, hhi, decoded, hdecode, w, hw⟩
  · rintro ⟨haligned, hlo, hhi, decoded, hdecode, w, hw⟩
    exact ⟨_, (patchInstruction_eq_ok hfield).mpr ⟨haligned, hlo, hhi, decoded,
      hdecode, w, hw, rfl⟩⟩

theorem patched_of_patchInstruction (hfield : field.length = 8)
    (h : patchInstruction field offset value = .ok patched) :
    Patched field patched fun imm => imm = value := by
  obtain ⟨-, -, -, decoded, hdecode, w, hw, rfl⟩ := (patchInstruction_eq_ok hfield).mp h
  exact ⟨decoded, _, hdecode, decodeFrom_littleEndian hw, rfl, rfl, rfl, rfl⟩

/-- The low 32 bits of a value in the signed range, extended, are the value. -/
theorem signExtend_low (hlo : -2 ^ 31 ≤ value.toInt) (hhi : value.toInt < 2 ^ 31) :
    signExtend (value.toUInt64 &&& 0xFFFFFFFF) 32 = value := by
  have hbits := value.toUInt64.toNat_lt
  have hlow : (value.toUInt64 &&& 0xFFFFFFFF).toNat = value.toUInt64.toNat % 2 ^ 32 := by
    rw [UInt64.toNat_and]
    exact Nat.and_two_pow_sub_one_eq_mod value.toUInt64.toNat 32
  have hvalue := toInt_eq_ite value
  rw [← Int64.toInt_inj, signExtend_toInt (by norm_num) (by norm_num) (by omega), hlow]
  split_ifs at hvalue ⊢ <;> omega

end

section

variable {type : RelocationType} {field patched : List UInt8} {offset symbolAddress place : UInt64}
  {addend : Int64}

/-- A field can be patched exactly when the value fits it. -/
theorem isOk_patchField (hfield : field.length = relocationWidth type) :
    (∃ patched, patchField type field offset (relocatedValue type symbolAddress addend place) =
      .ok patched) ↔ Fits type field offset (symbolAddress + addend.toUInt64) place := by
  cases type with
  | abs32 =>
    have hfits := @fitsUnsigned_iff (symbolAddress + addend.toUInt64) 32 (by norm_num)
    show (∃ patched, (if !fitsUnsigned (symbolAddress + addend.toUInt64).toInt64.toUInt64 32 then _
      else _) = Except.ok patched) ↔ (symbolAddress + addend.toUInt64).toNat < 2 ^ 32
    rw [UInt64.toUInt64_toInt64, ← hfits]
    cases fitsUnsigned (symbolAddress + addend.toUInt64) 32 with
    | true => exact ⟨fun _ => rfl, fun _ => ⟨_, rfl⟩⟩
    | false => exact ⟨fun ⟨_, h⟩ => (nomatch h), nofun⟩
  | abs64 => exact ⟨fun _ => trivial, fun _ => ⟨_, rfl⟩⟩
  | pcrel32 =>
    have hfits := @fitsSigned_iff (symbolAddress + addend.toUInt64 - place).toInt64 32 (by norm_num)
    show (∃ patched, (if !fitsSigned (symbolAddress + addend.toUInt64 - place).toInt64 32 then _
      else _) = Except.ok patched) ↔ -2 ^ (32 - 1) ≤ _ ∧ _ < (2 : ℤ) ^ (32 - 1)
    rw [← hfits]
    cases fitsSigned (symbolAddress + addend.toUInt64 - place).toInt64 32 with
    | true => exact ⟨fun _ => rfl, fun _ => ⟨_, rfl⟩⟩
    | false => exact ⟨fun ⟨_, h⟩ => (nomatch h), nofun⟩
  | imm48 => exact isOk_patchInstruction hfield
  | pcrel48 => exact isOk_patchInstruction hfield

/-- A patched field holds its value. -/
theorem holds_of_patchField (hfield : field.length = relocationWidth type)
    (h : patchField type field offset (relocatedValue type symbolAddress addend place) =
      .ok patched) : Holds type field patched (symbolAddress + addend.toUInt64) place := by
  have hfits := (isOk_patchField hfield).mp ⟨patched, h⟩
  cases type with
  | abs32 =>
    unfold patchField at h
    dsimp only at h
    split_ifs at h
    cases h
    show load 4 (littleEndian 4 (symbolAddress + addend.toUInt64).toInt64.toUInt64 ++ _) = _
    rw [UInt64.toUInt64_toInt64]
    exact load_littleEndian_append (by norm_num) hfits _
  | abs64 =>
    cases h
    show load 8 (littleEndian 8 (symbolAddress + addend.toUInt64).toInt64.toUInt64 ++ _) = _
    rw [UInt64.toUInt64_toInt64]
    exact load_littleEndian_append (by norm_num) (UInt64.toNat_lt _) _
  | pcrel32 =>
    unfold patchField at h
    dsimp only at h
    split_ifs at h
    cases h
    obtain ⟨hlo, hhi⟩ := hfits
    show signExtend (load 4 (littleEndian 4
      ((symbolAddress + addend.toUInt64 - place).toInt64.toUInt64 &&& 0xFFFFFFFF) ++ _)) 32 = _
    have hlow : ((symbolAddress + addend.toUInt64 - place).toInt64.toUInt64 &&& 0xFFFFFFFF).toNat <
        256 ^ 4 := by
      rw [UInt64.toNat_and]
      exact (Nat.and_le_right).trans_lt (by decide)
    rw [load_littleEndian_append (by norm_num) hlow]
    exact signExtend_low hlo hhi
  | imm48 => exact patched_of_patchInstruction hfield h
  | pcrel48 =>
    obtain ⟨i, i', hdecode, hdecode', hopcode, hdst, hsrc, himm⟩ :=
      patched_of_patchInstruction hfield h
    refine ⟨i, i', hdecode, hdecode', hopcode, hdst, hsrc, ?_⟩
    rw [himm]
    exact branchTarget_branchDisplacement place _

end

/-! ### Failures -/

/-- A field of an instruction is aligned and holds one. -/
def Reads (type : RelocationType) (field : List UInt8) (offset : UInt64) : Prop :=
  type = .imm48 ∨ type = .pcrel48 → offset.toNat % kInstructionSize = 0 ∧ ∃ i,
    decodeFrom field = .ok i

section

variable {type : RelocationType} {field patched : List UInt8} {offset : UInt64} {value : Int64}

theorem reads_of_patchField (hfield : field.length = relocationWidth type)
    (h : patchField type field offset value = .ok patched) : Reads type field offset := by
  intro htype
  have hinstruction : field.length = 8 → patchInstruction field offset value = .ok patched →
      offset.toNat % kInstructionSize = 0 ∧ ∃ i, decodeFrom field = .ok i := by
    intro hlength hpatch
    obtain ⟨haligned, -, -, decoded, hdecode, -⟩ := (patchInstruction_eq_ok hlength).mp hpatch
    exact ⟨haligned, decoded, hdecode⟩
  rcases htype with rfl | rfl
  · exact hinstruction hfield h
  · exact hinstruction hfield h

/-- A field that can be read fails to be patched only because the value does not fit it. -/
theorem overflow_of_patchField (hreads : Reads type field offset) {e : RelocationError}
    (h : patchField type field offset value = .error e) : e = .overflow := by
  have hinstruction : offset.toNat % kInstructionSize = 0 ∧ (∃ i, decodeFrom field = .ok i) →
      patchInstruction field offset value = .error e → e = .overflow := by
    rintro ⟨haligned, decoded, hdecode⟩ hpatch
    have hmod : offset % UInt64.ofNat kInstructionSize = 0 := by
      rw [← UInt64.toNat_inj, UInt64.toNat_mod]
      exact haligned
    unfold patchInstruction at hpatch
    rw [if_neg (not_not.mpr hmod), hdecode] at hpatch
    split_ifs at hpatch
    · cases hpatch
      rfl
    · dsimp only at hpatch
      split at hpatch
      · cases hpatch
        rfl
      · cases hpatch
  unfold patchField at h
  cases type with
  | abs32 =>
    dsimp only at h
    split_ifs at h
    cases h
    rfl
  | abs64 => cases h
  | pcrel32 =>
    dsimp only at h
    split_ifs at h
    cases h
    rfl
  | imm48 => exact hinstruction (hreads (Or.inl rfl)) h
  | pcrel48 => exact hinstruction (hreads (Or.inr rfl)) h

end

/-! ### A relocation -/

/-- What a relocation needs: its field inside the buffer, and a value that fits it. -/
def Applicable (data : List UInt8) (sectionAddress : UInt64) (relocation : Relocation)
    (symbolAddress : UInt64) : Prop :=
  ∃ field,
    subspan data relocation.offset.toNat (relocationWidth relocation.type) = some field ∧
      Fits relocation.type field relocation.offset (targetOf relocation symbolAddress)
        (sectionAddress + relocation.offset)

/-- The new buffer: the field holds its value, and no byte outside of it has changed. -/
structure Relocated (data data' : List UInt8) (sectionAddress : UInt64) (relocation : Relocation)
    (symbolAddress : UInt64) : Prop where
  length_eq : data'.length = data.length
  outside : ∀ i, i < relocation.offset.toNat ∨
    relocation.offset.toNat + relocationWidth relocation.type ≤ i → data'[i]? = data[i]?
  holds : ∃ field field',
    subspan data relocation.offset.toNat (relocationWidth relocation.type) = some field ∧
      subspan data' relocation.offset.toNat (relocationWidth relocation.type) = some field' ∧
      Holds relocation.type field field' (targetOf relocation symbolAddress)
        (sectionAddress + relocation.offset)

theorem isOk_applyRelocation {data : List UInt8} {sectionAddress : UInt64} {relocation : Relocation}
    {symbolAddress : UInt64} :
    (∃ data', applyRelocation data sectionAddress relocation symbolAddress = some (.ok data')) ↔
      Applicable data sectionAddress relocation symbolAddress := by
  constructor
  · rintro ⟨data', h⟩
    obtain ⟨field, patched, hfield, hpatch, -, -⟩ := applyRelocation_eq_ok h
    exact ⟨field, hfield, (isOk_patchField (length_of_subspan hfield)).mp ⟨patched, hpatch⟩⟩
  · rintro ⟨field, hfield, hfits⟩
    obtain ⟨patched, hpatch⟩ := (isOk_patchField (length_of_subspan hfield)).mpr hfits
    have hinside := (subspan_eq_some.mp hfield).1
    unfold applyRelocation
    dsimp only
    rw [if_neg (by omega), hfield, Option.map_some, hpatch]
    exact ⟨_, rfl⟩

theorem relocated_of_applyRelocation {data data' : List UInt8} {sectionAddress : UInt64}
    {relocation : Relocation} {symbolAddress : UInt64}
    (h : applyRelocation data sectionAddress relocation symbolAddress = some (.ok data')) :
    Relocated data data' sectionAddress relocation symbolAddress := by
  obtain ⟨field, patched, hfield, hpatch, hlength, rfl⟩ := applyRelocation_eq_ok h
  have hinside := (subspan_eq_some.mp hfield).1
  have hpatched : relocation.offset.toNat + patched.length ≤ data.length := by
    rw [hlength]
    exact hinside
  refine ⟨length_replaceAt hpatched, ?_, field, patched, hfield, ?_,
    holds_of_patchField (length_of_subspan hfield) hpatch⟩
  · intro i hi
    rw [← hlength] at hi
    exact getElem?_replaceAt hpatched hi
  · rw [← hlength]
    exact subspan_replaceAt hpatched

/-- A relocation succeeds exactly when its field lies in the buffer and the value fits it; then the
field holds the value and nothing else has changed, and otherwise the buffer is as it was. -/
theorem applyRelocation_atomic (data : List UInt8) (sectionAddress : UInt64)
    (relocation : Relocation) (symbolAddress : UInt64) :
    ∃ result data', applyRelocationInPlace data sectionAddress relocation symbolAddress =
        some (result, data') ∧
      (result = .ok () ↔ Applicable data sectionAddress relocation symbolAddress) ∧
      (result = .ok () → Relocated data data' sectionAddress relocation symbolAddress) ∧
      (∀ e, result = .error e → data' = data) := by
  rw [applyRelocationInPlace_eq, ← isOk_applyRelocation]
  cases happly : applyRelocation data sectionAddress relocation symbolAddress with
  | none => exact absurd happly applyRelocation_ne_none
  | some outcome =>
    cases outcome with
    | error e =>
      refine ⟨.error e, data, rfl, ⟨nofun, ?_⟩, nofun, fun _ _ => rfl⟩
      rintro ⟨data', h⟩
      cases h
    | ok data' =>
      exact ⟨.ok (), data', rfl, ⟨fun _ => ⟨data', rfl⟩, fun _ => rfl⟩,
        fun _ => relocated_of_applyRelocation happly, nofun⟩

/-- The same for a field inside the buffer. -/
theorem overflow_of_applyRelocation {data field : List UInt8} {sectionAddress : UInt64}
    {relocation : Relocation} {symbolAddress : UInt64}
    (hfield : subspan data relocation.offset.toNat (relocationWidth relocation.type) = some field)
    (hreads : Reads relocation.type field relocation.offset) {e : RelocationError}
    (h : applyRelocation data sectionAddress relocation symbolAddress = some (.error e)) :
    e = .overflow := by
  have hinside := (subspan_eq_some.mp hfield).1
  unfold applyRelocation at h
  dsimp only at h
  rw [if_neg (by omega), hfield, Option.map_some, Option.some_inj] at h
  split at h
  · next hpatch =>
    cases h
    exact overflow_of_patchField hreads hpatch
  · cases h

end Object
end MiniTool
