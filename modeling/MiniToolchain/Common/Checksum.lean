import MiniToolchain.Common.Types
import MiniToolchain.Lib.Crc

/-!
# CRC-32

The reflected CRC-32 both file formats protect their contents with: a table lookup for each byte.

## Main definitions

* `crc32` — by table, as the source has it.
* `crc32Serial` — bit by bit.

## Main results

* `toBitVec_crcUpdate` — a table lookup is eight steps of the shift register.
* `crc32_set_ne` — a change to one byte of the data changes the checksum.
* `crc32_spec` — the checksum is CRC-32, and a change inside four consecutive bytes changes it.
-/

namespace MiniTool

/-- One bit of a table entry. -/
def crcStep (value : UInt32) : UInt32 :=
  if value &&& 1 ≠ 0 then (0xEDB88320 : UInt32) ^^^ (value >>> 1) else value >>> 1

/-- The table entry of a byte: eight steps. -/
def crcEntry (i : ℕ) : UInt32 := (List.range 8).foldl (fun value _ => crcStep value)
    (UInt32.ofNat i)

/-- `makeTable()`. -/
def kTable : List UInt32 := (List.range 256).map crcEntry

/-- The body of the loop over the bytes. -/
def crcUpdate (state : UInt32) (byte : UInt8) : UInt32 :=
  kTable.getD ((state ^^^ byte.toUInt32) &&& 0xFF).toNat 0 ^^^ (state >>> 8)

def crc32 (data : List UInt8) : UInt32 := data.foldl crcUpdate 0xFFFFFFFF ^^^ 0xFFFFFFFF

example : crc32 (str "123456789") = 0xCBF43926 := by decide +kernel

/-! ### The shift register -/

/-- The polynomial of the table, as bits. -/
abbrev kPolynomial : BitVec 32 := 0xEDB88320#32

theorem toBitVec_crcStep (value : UInt32) :
    (crcStep value).toBitVec = Crc.step kPolynomial value.toBitVec := by
  have hlow : value &&& 1 ≠ 0 ↔ value.toBitVec.getLsbD 0 = true := by
    rw [ne_eq, ← UInt32.toBitVec_inj, UInt32.toBitVec_and]
    show ¬(value.toBitVec &&& 1#32 = 0#32) ↔ _
    rw [BitVec.and_one_eq_setWidth_ofBool_getLsbD]
    cases value.toBitVec.getLsbD 0 <;> decide
  have hshift : (value >>> 1).toBitVec = value.toBitVec >>> 1 := by
    rw [UInt32.toBitVec_shiftRight]; rfl
  unfold crcStep Crc.step
  by_cases h : value &&& 1 ≠ 0
  · rw [if_pos h, if_pos (hlow.mp h), UInt32.toBitVec_xor, hshift]
    rfl
  · rw [if_neg h, if_neg (hlow.not.mp h), hshift]

theorem toBitVec_crcSteps (n : ℕ) (value : UInt32) :
    ((List.range n).foldl (fun value _ => crcStep value) value).toBitVec =
      (Crc.step kPolynomial)^[n] value.toBitVec := by
  induction n with
  | zero => rfl
  | succ n ih =>
    rw [List.range_succ, List.foldl_append, Function.iterate_succ_apply', ← ih]
    exact toBitVec_crcStep _

theorem kTable_getD {i : ℕ} (hi : i < 256) : kTable.getD i 0 = crcEntry i := by
  simp [kTable, List.getD_eq_getElem?_getD, hi]

theorem and_ff_eq_setWidth (x : BitVec 32) : x &&& 0xFF#32 = (x.setWidth 8).setWidth 32 := by
  apply BitVec.eq_of_toNat_eq
  rw [BitVec.toNat_and, BitVec.toNat_setWidth, BitVec.toNat_setWidth]
  show x.toNat &&& (2 ^ 8 - 1) = _
  rw [Nat.and_two_pow_sub_one_eq_mod]
  omega

theorem toBitVec_crcUpdate (state : UInt32) (byte : UInt8) :
    (crcUpdate state byte).toBitVec = Crc.feed kPolynomial state.toBitVec byte.toBitVec := by
  have hindex : ((state ^^^ byte.toUInt32) &&& 0xFF).toNat < 256 := by
    rw [UInt32.toNat_and]
    exact Nat.lt_succ_of_le Nat.and_le_right
  have hshift : (state >>> 8).toBitVec = state.toBitVec >>> 8 := by
    rw [UInt32.toBitVec_shiftRight]
    rfl
  rw [crcUpdate, kTable_getD hindex, Crc.feed_eq_table, UInt32.toBitVec_xor, crcEntry,
    toBitVec_crcSteps, UInt32.ofNat_toNat, UInt32.toBitVec_and, UInt32.toBitVec_xor, hshift,
    ← and_ff_eq_setWidth]
  rfl

theorem toBitVec_foldl_crcUpdate (state : UInt32) (data : List UInt8) :
    (data.foldl crcUpdate state).toBitVec =
      Crc.register kPolynomial state.toBitVec (data.map UInt8.toBitVec) := by
  induction data generalizing state with
  | nil => rfl
  | cons byte data ih => rw [List.foldl_cons, ih, toBitVec_crcUpdate]; rfl

/-- A change to one byte changes the checksum. -/
theorem crc32_set_ne {data : List UInt8} {k : ℕ} (hk : k < data.length) {byte : UInt8}
    (hne : byte ≠ data[k]) : crc32 (data.set k byte) ≠ crc32 data := by
  intro h
  have hstate := congrArg UInt32.toBitVec ((UInt32.xor_left_inj _).mp h)
  rw [toBitVec_foldl_crcUpdate, toBitVec_foldl_crcUpdate, List.map_set] at hstate
  refine Crc.register_ne_of_set (by decide) (by decide) _ (by simpa using hk) ?_ hstate
  rw [List.getElem_map]
  exact fun heq => hne (UInt8.toBitVec_inj.mp heq)

/-! ### Bit by bit, and bursts -/

/-- The reflected CRC-32 of a message of bits, each byte from its lowest bit. -/
def crc32Serial (data : List UInt8) : BitVec 32 :=
  Crc.serial kPolynomial 0xFFFFFFFF#32 (data.flatMap fun byte => Crc.bits byte.toBitVec) ^^^
    0xFFFFFFFF#32

example : crc32Serial (str "123456789") = 0xCBF43926#32 := by decide +kernel

theorem toBitVec_crc32 (data : List UInt8) : (crc32 data).toBitVec = crc32Serial data := by
  rw [crc32, UInt32.toBitVec_xor, toBitVec_foldl_crcUpdate,
    Crc.register_eq_serial kPolynomial (by decide), List.flatMap_map]
  rfl

theorem crc32_append_ne {front l l' back : List UInt8} (hlength : l.length = l'.length)
    (hle : l.length ≤ 4) (hne : l ≠ l') :
    crc32 (front ++ l ++ back) ≠ crc32 (front ++ l' ++ back) := by
  intro h
  have hstate := congrArg UInt32.toBitVec ((UInt32.xor_left_inj _).mp h)
  rw [toBitVec_foldl_crcUpdate, toBitVec_foldl_crcUpdate] at hstate
  rw [List.map_append, List.map_append, List.map_append, List.map_append] at hstate
  refine Crc.register_ne_of_window (by decide) (by decide) _ ?_ ?_ ?_ hstate
  · rw [List.length_map, List.length_map, hlength]
  · rw [List.length_map]
    omega
  · intro hmap
    exact hne (List.map_inj_right (fun _ _ => UInt8.toBitVec_inj.mp) |>.mp hmap)

/-- The checksum is the reflected CRC-32, and it tells messages apart that differ only inside four
consecutive bytes. -/
theorem crc32_spec (data : List UInt8) : (crc32 data).toBitVec = crc32Serial data ∧
    ∀ data' k, data'.length = data.length →
      (∀ i, i < k ∨ k + 4 ≤ i → data'[i]? = data[i]?) → data' ≠ data →
      crc32 data' ≠ crc32 data := by
  refine ⟨toBitVec_crc32 data, fun data' k hlength houtside hne => ?_⟩
  have hsplit : ∀ l : List UInt8, l.take k ++ (l.drop k).take 4 ++ l.drop (k + 4) = l := by
    intro l
    rw [← List.drop_drop, List.append_assoc, List.take_append_drop, List.take_append_drop]
  -- the messages agree before the window and behind it
  have hfront : data'.take k = data.take k := by
    apply List.ext_getElem?
    intro i
    rw [List.getElem?_take, List.getElem?_take]
    split_ifs with hi
    · exact houtside i (.inl hi)
    · rfl
  have hback : data'.drop (k + 4) = data.drop (k + 4) := by
    apply List.ext_getElem?
    intro i
    rw [List.getElem?_drop, List.getElem?_drop]
    exact houtside _ (.inr (Nat.le_add_right _ _))
  have hwindow : (data'.drop k).take 4 ≠ (data.drop k).take 4 := by
    intro heq
    rw [← hsplit data', ← hsplit data, hfront, hback, heq] at hne
    exact hne rfl
  rw [← hsplit data', ← hsplit data, hfront, hback]
  refine crc32_append_ne ?_ ?_ hwindow
  · rw [List.length_take, List.length_take, List.length_drop, List.length_drop, hlength]
  · exact List.length_take_le _ _

/-- Four bytes of six are overwritten. -/
theorem crc32_spec_overwritten : crc32 [1, 9, 9, 9, 9, 6] ≠ crc32 [1, 2, 3, 4, 5, 6] := by
  refine (crc32_spec [1, 2, 3, 4, 5, 6]).2 [1, 9, 9, 9, 9, 6] 1 rfl (fun i hi => ?_) (by decide)
  rcases hi with hbefore | hbehind
  · obtain rfl : i = 0 := by omega
    rfl
  · obtain ⟨j, rfl⟩ := Nat.exists_eq_add_of_le' hbehind
    cases j with
    | zero => rfl
    | succ j => rfl

end MiniTool
