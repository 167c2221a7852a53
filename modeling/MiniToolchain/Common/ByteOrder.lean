import MiniToolchain.Common.Types
import MiniToolchain.Lib.LittleEndian

/-!
# Byte order

All binary formats are little-endian.  `store` and `load` are the only ways integers move in and
out of byte buffers; a `u16`, `u32` or `u64` is widened to a `u64` and moved byte by byte.

## Main definitions

* `byteAt`, `littleEndian`, `store` — the bytes of a word, and writing them to the front of a
  buffer.
* `load` — the word at the front of a buffer.
* `signExtend`, `fitsSigned`, `fitsUnsigned` — two's complement in a given number of bits.

## Main results

* `littleEndian_eq_toBytes`, `load_eq_ofBytes` — the shifts and masks of the code compute the
  library's `LittleEndian.toBytes` and `LittleEndian.ofBytes`.
* `load_littleEndian_append` — a stored word is read back, whatever follows it.
-/

namespace MiniTool
namespace ByteOrder

/-- `(wide >> (8 * i)) & 0xFF`, the byte the `i`-th turn of the loop of `store` writes. -/
def byteAt (wide : UInt64) (i : ℕ) : UInt8 := ((wide >>> UInt64.ofNat (8 * i)) &&& 0xFF).toUInt8

/-- The `width` bytes of a word. -/
def littleEndian (width : ℕ) (wide : UInt64) : List UInt8 := (List.range width).map (byteAt wide)

/-- Writes a word little-endian into the first `width` bytes of `out`. -/
def store (width : ℕ) (out : List UInt8) (wide : UInt64) : List UInt8 :=
  littleEndian width wide ++ out.drop width

/-- Reads a word from the first `width` bytes of `bytes`. -/
def load (width : ℕ) (bytes : List UInt8) : UInt64 :=
  (List.range width).foldl
    (fun wide i => wide ||| (bytes.getD i 0).toUInt64 <<< UInt64.ofNat (8 * i)) 0

/-- Sign-extends the low `bits` of `value`; `0 < bits ≤ 64`. -/
def signExtend (value : UInt64) (bits : ℕ) : Int64 :=
  if bits ≥ 64 then value.toInt64
  else
    let mask : UInt64 := (1 <<< UInt64.ofNat bits) - 1
    let sign : UInt64 := 1 <<< UInt64.ofNat (bits - 1)
    let truncated := value &&& mask
    ((truncated ^^^ sign) - sign).toInt64

/-- True if `value` is representable in `bits` bits of two's complement. -/
def fitsSigned (value : Int64) (bits : ℕ) : Bool :=
  bits ≥ 64 || (-(2 ^ (bits - 1) : ℤ) ≤ value.toInt && value.toInt ≤ (2 ^ (bits - 1) : ℤ) - 1)

/-- True if `value` is representable in `bits` bits unsigned. -/
def fitsUnsigned (value : UInt64) (bits : ℕ) : Bool :=
  bits ≥ 64 || value.toNat < 2 ^ bits

/-! ### Two's complement -/

/-- A 64-bit signed integer in terms of its bits. -/
theorem toInt_eq_ite (x : Int64) :
    x.toInt = if x.toUInt64.toNat < 2 ^ 63 then (x.toUInt64.toNat : ℤ)
      else (x.toUInt64.toNat : ℤ) - 2 ^ 64 := by
  have hcond := BitVec.toInt_eq_toNat_cond x.toBitVec
  have hbits : x.toBitVec.toNat = x.toUInt64.toNat := rfl
  rw [hbits] at hcond
  rw [← Int64.toInt_toBitVec, hcond]
  split_ifs <;> omega

theorem toUInt64_inj {x y : Int64} : x.toUInt64 = y.toUInt64 ↔ x = y := by
  constructor
  · intro h
    rw [← Int64.toInt_inj, toInt_eq_ite, toInt_eq_ite, h]
  · exact congrArg _

theorem fitsSigned_iff {value : Int64} {bits : ℕ} (hbits : bits < 64) :
    fitsSigned value bits = true ↔
      -(2 ^ (bits - 1) : ℤ) ≤ value.toInt ∧ value.toInt < (2 ^ (bits - 1) : ℤ) := by
  simp only [fitsSigned, ge_iff_le, Bool.or_eq_true, Bool.and_eq_true, decide_eq_true_eq]
  constructor
  · rintro (h | ⟨h1, h2⟩)
    · omega
    · exact ⟨h1, by omega⟩
  · rintro ⟨h1, h2⟩
    exact Or.inr ⟨h1, by omega⟩

theorem fitsUnsigned_iff {value : UInt64} {bits : ℕ} (hbits : bits < 64) :
    fitsUnsigned value bits = true ↔ value.toNat < 2 ^ bits := by
  simp only [fitsUnsigned, ge_iff_le, Bool.or_eq_true, decide_eq_true_eq]
  constructor
  · rintro (h | h)
    · omega
    · exact h
  · exact Or.inr

/-- Flipping bit `n` of a number below `2 ^ (n + 1)`. -/
theorem xor_two_pow {a n : ℕ} (h : a < 2 ^ (n + 1)) :
    a ^^^ 2 ^ n = if a < 2 ^ n then a + 2 ^ n else a - 2 ^ n := by
  have hpos : 0 < 2 ^ n := Nat.two_pow_pos n
  have hlow : (a ^^^ 2 ^ n) % 2 ^ n = a % 2 ^ n := by
    rw [Nat.xor_mod_two_pow, Nat.mod_self, Nat.xor_zero]
  have hhigh : (a ^^^ 2 ^ n) / 2 ^ n = a / 2 ^ n ^^^ 1 := by
    rw [Nat.xor_div_two_pow, Nat.div_self hpos]
  have hsplit := Nat.div_add_mod (a ^^^ 2 ^ n) (2 ^ n)
  rw [hlow, hhigh] at hsplit
  rw [pow_succ] at h
  split_ifs with hlt
  · rw [Nat.div_eq_of_lt hlt, Nat.mod_eq_of_lt hlt, Nat.zero_xor, mul_one] at hsplit
    omega
  · have hone : a / 2 ^ n = 1 :=
      Nat.div_eq_of_lt_le (by omega) (by omega)
    have hmod := Nat.div_add_mod a (2 ^ n)
    rw [hone, mul_one] at hmod
    rw [hone, Nat.xor_self, mul_zero] at hsplit
    omega

/-- Sign extension reads the low `bits` bits as two's complement. -/
theorem signExtend_toInt {value : UInt64} {bits : ℕ} (hpos : 0 < bits) (hbits : bits < 64)
    (hvalue : value.toNat < 2 ^ bits) :
    (signExtend value bits).toInt
      = if value.toNat < 2 ^ (bits - 1) then (value.toNat : ℤ)
        else (value.toNat : ℤ) - 2 ^ bits := by
  obtain ⟨n, rfl⟩ : ∃ n, bits = n + 1 := ⟨bits - 1, by omega⟩
  have hn : (2 : ℕ) ^ (n + 1) ≤ 2 ^ 63 := Nat.pow_le_pow_right (by omega) (by omega)
  have hsign : ((1 : UInt64) <<< UInt64.ofNat n).toNat = 2 ^ n := by
    rw [UInt64.toNat_shiftLeft, UInt64.toNat_ofNat', Nat.mod_eq_of_lt (a := n) (by omega),
      Nat.mod_eq_of_lt (a := n) (by omega), UInt64.toNat_one, Nat.one_shiftLeft,
      Nat.mod_eq_of_lt]
    rw [pow_succ] at hn
    omega
  have hmask : (((1 : UInt64) <<< UInt64.ofNat (n + 1)) - 1).toNat = 2 ^ (n + 1) - 1 := by
    have hone : ((1 : UInt64) <<< UInt64.ofNat (n + 1)).toNat = 2 ^ (n + 1) := by
      rw [UInt64.toNat_shiftLeft, UInt64.toNat_ofNat', Nat.mod_eq_of_lt (a := n + 1) (by omega),
        Nat.mod_eq_of_lt (a := n + 1) (by omega), UInt64.toNat_one, Nat.one_shiftLeft,
        Nat.mod_eq_of_lt (by omega)]
    have hge := Nat.two_pow_pos (n + 1)
    rw [UInt64.toNat_sub, hone, UInt64.toNat_one]
    omega
  have htrunc : (value &&& ((1 <<< UInt64.ofNat (n + 1)) - 1)).toNat = value.toNat := by
    rw [UInt64.toNat_and, hmask, Nat.and_two_pow_sub_one_eq_mod, Nat.mod_eq_of_lt hvalue]
  have hxor := xor_two_pow hvalue
  have hlt := Nat.two_pow_pos n
  rw [pow_succ] at hn hvalue
  unfold signExtend
  rw [if_neg (by omega), toInt_eq_ite, UInt64.toUInt64_toInt64, Nat.add_sub_cancel,
    UInt64.toNat_sub, UInt64.toNat_xor, htrunc, hsign, hxor]
  have hcast : (2 : ℤ) ^ (n + 1) = ((2 ^ n * 2 : ℕ) : ℤ) := by
    push_cast
    exact pow_succ _ _
  rw [hcast]
  split_ifs <;> omega

/-! ### Storing and loading -/

theorem byteAt_eq {wide : UInt64} {i : ℕ} (hi : i < 8) :
    byteAt wide i = UInt8.ofNat (wide.toNat / 256 ^ i) := by
  have hshift : (UInt64.ofNat (8 * i)).toNat % 64 = 8 * i := by
    rw [UInt64.toNat_ofNat']
    omega
  have hpow : (2 : ℕ) ^ (8 * i) = 256 ^ i := pow_mul 2 8 i
  rw [← UInt8.toNat_inj, byteAt, UInt64.toNat_toUInt8, UInt64.toNat_and, UInt64.toNat_shiftRight,
    hshift, Nat.shiftRight_eq_div_pow, hpow, UInt8.toNat_ofNat']
  have hmask : (0xFF : UInt64).toNat = 2 ^ 8 - 1 := rfl
  rw [hmask, Nat.and_two_pow_sub_one_eq_mod]
  omega

theorem littleEndian_eq_toBytes {width : ℕ} (hw : width ≤ 8) (wide : UInt64) :
    littleEndian width wide = LittleEndian.toBytes width wide.toNat := by
  apply List.map_congr_left
  intro i hi
  exact byteAt_eq (by have := List.mem_range.mp hi; omega)

@[simp] theorem length_littleEndian (width : ℕ) (wide : UInt64) :
    (littleEndian width wide).length = width := by simp [littleEndian]

@[simp] theorem length_store {width : ℕ} {out : List UInt8} (h : width ≤ out.length)
    (wide : UInt64) : (store width out wide).length = out.length := by
  simp only [store, List.length_append, length_littleEndian, List.length_drop]
  omega

/-- The loop of `load` accumulates the number the first `width` bytes spell. -/
theorem load_toNat {width : ℕ} {bytes : List UInt8} (hw : width ≤ 8)
    (hlen : width ≤ bytes.length) :
    (load width bytes).toNat = LittleEndian.ofBytes (bytes.take width) := by
  induction width with
  | zero => rfl
  | succ n ih =>
    have hn : n < bytes.length := by omega
    have hprev := ih (by omega) (by omega)
    have hlt : (load n bytes).toNat < 2 ^ (8 * n) := by
      have hbound := LittleEndian.ofBytes_lt (bytes.take n)
      rw [List.length_take_of_le (by omega)] at hbound
      rw [hprev, pow_mul]
      simpa using hbound
    have hshift : (UInt64.ofNat (8 * n)).toNat % 64 = 8 * n := by
      rw [UInt64.toNat_ofNat']
      omega
    have hbyte : (bytes[n]).toNat < 2 ^ 8 := bytes[n].toNat_lt
    have hfit : (bytes[n]).toNat <<< (8 * n) < 2 ^ 64 := by
      rw [Nat.shiftLeft_eq]
      calc (bytes[n]).toNat * 2 ^ (8 * n) < 2 ^ 8 * 2 ^ (8 * n) :=
            Nat.mul_lt_mul_of_pos_right hbyte (Nat.two_pow_pos _)
        _ = 2 ^ (8 + 8 * n) := (pow_add _ _ _).symm
        _ ≤ 2 ^ 64 := Nat.pow_le_pow_right (by omega) (by omega)
    have hstep : load (n + 1) bytes
        = load n bytes ||| (bytes.getD n 0).toUInt64 <<< UInt64.ofNat (8 * n) := by
      simp only [load, List.range_succ, List.foldl_append, List.foldl_cons, List.foldl_nil]
    rw [hstep, UInt64.toNat_or, UInt64.toNat_shiftLeft, hshift, UInt8.toNat_toUInt64,
      List.getD_eq_getElem _ _ hn, Nat.mod_eq_of_lt hfit, Nat.or_comm,
      ← Nat.shiftLeft_add_eq_or_of_lt hlt, List.take_succ_eq_append_getElem hn,
      LittleEndian.ofBytes_append, List.length_take_of_le (by omega), hprev, Nat.shiftLeft_eq,
      pow_mul]
    simp only [LittleEndian.ofBytes_cons, LittleEndian.ofBytes_nil]
    ring

theorem load_lt {width : ℕ} {bytes : List UInt8} (hwidth : width ≤ 8)
    (hlen : width ≤ bytes.length) : (load width bytes).toNat < 256 ^ width := by
  rw [load_toNat hwidth hlen]
  have hlt := LittleEndian.ofBytes_lt (bytes.take width)
  rwa [List.length_take_of_le hlen] at hlt

theorem load_eq_ofBytes {width : ℕ} {bytes : List UInt8} (hw : width ≤ 8)
    (hlen : width ≤ bytes.length) :
    load width bytes = UInt64.ofNat (LittleEndian.ofBytes (bytes.take width)) := by
  rw [← load_toNat hw hlen, UInt64.ofNat_toNat]

/-- A stored word is read back, whatever follows it. -/
theorem load_littleEndian_append {width : ℕ} (hw : width ≤ 8) {wide : UInt64}
    (hwide : wide.toNat < 256 ^ width) (rest : List UInt8) :
    load width (littleEndian width wide ++ rest) = wide := by
  rw [← UInt64.toNat_inj, load_toNat hw (by simp), List.take_left' (by simp),
    littleEndian_eq_toBytes hw, LittleEndian.ofBytes_toBytes_of_lt hwide]

/-- Reading the first `width` bytes and storing them again changes nothing. -/
theorem littleEndian_load {width : ℕ} {bytes : List UInt8} (hw : width ≤ 8)
    (hlen : width ≤ bytes.length) : littleEndian width (load width bytes) = bytes.take width := by
  rw [littleEndian_eq_toBytes hw, load_toNat hw hlen,
    LittleEndian.toBytes_ofBytes (List.length_take_of_le hlen)]

end ByteOrder
end MiniTool
