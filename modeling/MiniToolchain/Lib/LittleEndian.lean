import Mathlib.Data.List.Basic
import Mathlib.Tactic.Ring

/-!
# Little-endian byte strings

A natural number below `256 ^ w` and its `w` bytes, least significant first.

## Main definitions

* `LittleEndian.toBytes w n` — byte `i` of the `w` bytes is `n / 256 ^ i`, taken modulo 256.
* `LittleEndian.ofBytes bs` — the number whose bytes are `bs`.

## Main results

* `ofBytes_toBytes`, `toBytes_ofBytes` — the round trips.
* `ofBytes_div_pow_mod` — byte `i` of the number is the `i`-th byte of the string.
-/

namespace LittleEndian

/-- The `w` little-endian bytes of `n`; what does not fit is dropped. -/
def toBytes (w n : ℕ) : List UInt8 := (List.range w).map fun i => UInt8.ofNat (n / 256 ^ i)

/-- The number with the given little-endian bytes. -/
def ofBytes (bs : List UInt8) : ℕ := bs.foldr (fun b n => b.toNat + 256 * n) 0

@[simp] theorem length_toBytes (w n : ℕ) : (toBytes w n).length = w := by simp [toBytes]

@[simp] theorem toBytes_zero (n : ℕ) : toBytes 0 n = [] := rfl

theorem toBytes_succ (w n : ℕ) : toBytes (w + 1) n = UInt8.ofNat n :: toBytes w (n / 256) := by
  simp only [toBytes, List.range_succ_eq_map, List.map_cons, List.map_map, pow_zero, Nat.div_one]
  congr 1
  apply List.map_congr_left
  intro i _
  rw [Function.comp_apply, pow_succ', Nat.div_div_eq_div_mul]

theorem getElem_toBytes (w n i : ℕ) (h : i < (toBytes w n).length) :
    (toBytes w n)[i] = UInt8.ofNat (n / 256 ^ i) := by simp [toBytes]

@[simp] theorem ofBytes_nil : ofBytes [] = 0 := rfl

@[simp] theorem ofBytes_cons (b : UInt8) (bs : List UInt8) :
    ofBytes (b :: bs) = b.toNat + 256 * ofBytes bs := rfl

theorem ofBytes_append (as bs : List UInt8) :
    ofBytes (as ++ bs) = ofBytes as + 256 ^ as.length * ofBytes bs := by
  induction as with
  | nil => simp
  | cons a as ih =>
    simp only [List.cons_append, ofBytes_cons, ih, List.length_cons, pow_succ]
    ring

theorem ofBytes_lt : ∀ bs : List UInt8, ofBytes bs < 256 ^ bs.length
  | [] => by simp
  | b :: bs => by
    have hrest := ofBytes_lt bs
    have hbyte := b.toNat_lt
    simp only [ofBytes_cons, List.length_cons, pow_succ]
    omega

/-- Storing `n` in `w` bytes keeps it modulo `256 ^ w`. -/
theorem ofBytes_toBytes (w n : ℕ) : ofBytes (toBytes w n) = n % 256 ^ w := by
  induction w generalizing n with
  | zero => rw [toBytes_zero, ofBytes_nil, pow_zero, Nat.mod_one]
  | succ w ih =>
    have hbyte : (UInt8.ofNat n).toNat = n % 256 := UInt8.toNat_ofNat'
    rw [toBytes_succ, ofBytes_cons, ih, hbyte, pow_succ', Nat.mod_mul]

theorem ofBytes_toBytes_of_lt {w n : ℕ} (h : n < 256 ^ w) : ofBytes (toBytes w n) = n := by
  rw [ofBytes_toBytes, Nat.mod_eq_of_lt h]

/-- Byte `i` of the number is the `i`-th byte of the string. -/
theorem ofBytes_div_pow_mod (bs : List UInt8) (i : ℕ) (h : i < bs.length) :
    ofBytes bs / 256 ^ i % 256 = bs[i].toNat := by
  induction bs generalizing i with
  | nil => simp at h
  | cons b bs ih =>
    have hbyte := b.toNat_lt
    cases i with
    | zero =>
      simp only [ofBytes_cons, pow_zero, Nat.div_one, List.getElem_cons_zero]
      omega
    | succ i =>
      have hdiv : ofBytes (b :: bs) / 256 = ofBytes bs := by
        rw [ofBytes_cons]
        omega
      rw [pow_succ', ← Nat.div_div_eq_div_mul, hdiv, List.getElem_cons_succ]
      exact ih i (by simpa using h)

/-- A byte string is determined by its length and the number it spells. -/
theorem toBytes_ofBytes {w : ℕ} {bs : List UInt8} (h : bs.length = w) :
    toBytes w (ofBytes bs) = bs := by
  apply List.ext_getElem
  · rw [length_toBytes, h]
  · intro i hi hi'
    rw [getElem_toBytes, ← UInt8.toNat_inj, UInt8.toNat_ofNat', ofBytes_div_pow_mod bs i hi']

end LittleEndian
