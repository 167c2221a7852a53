import MiniToolchain.Common.Types
import Mathlib.Tactic.Zify

/-!
# Rounding up to an alignment

The helper the assembler and the linker both have, with the arithmetic of `u64`.

## Main definitions

* `alignUp` — the next multiple of an alignment.

## Main results

* `alignUp_toNat_of_lt`, `alignUp_toNat` — what it is when the addition does not wrap.
* `dvd_alignUp` — what divides the alignment divides it.
-/

namespace MiniTool

def alignUp (value alignment : UInt64) : UInt64 :=
  if alignment ≤ 1 then value
  else
    let remainder := value % alignment
    if remainder = 0 then value else value + (alignment - remainder)

/-- Rounding up, when the result is one of a `u64`. -/
theorem alignUp_toNat_of_lt {value alignment : UInt64}
    (h : (if alignment.toNat ≤ 1 then value.toNat
      else if value.toNat % alignment.toNat = 0 then value.toNat
      else value.toNat + (alignment.toNat - value.toNat % alignment.toNat)) < 2 ^ 64) :
    (alignUp value alignment).toNat =
      if alignment.toNat ≤ 1 then value.toNat
      else if value.toNat % alignment.toNat = 0 then value.toNat
      else value.toNat + (alignment.toNat - value.toNat % alignment.toNat) := by
  have hone : alignment ≤ 1 ↔ alignment.toNat ≤ 1 := UInt64.le_iff_toNat_le
  have hmod : (value % alignment).toNat = value.toNat % alignment.toNat := UInt64.toNat_mod _ _
  have hzero : value % alignment = 0 ↔ value.toNat % alignment.toNat = 0 := by
    rw [← UInt64.toNat_inj, hmod, UInt64.toNat_zero]
  unfold alignUp
  dsimp only
  simp only [hone, hzero]
  split_ifs at h ⊢ with ha hz
  · rfl
  · rfl
  · have hlt := Nat.mod_lt value.toNat (by omega : alignment.toNat > 0)
    have hsub : (alignment - value % alignment).toNat =
        alignment.toNat - value.toNat % alignment.toNat := by
      rw [UInt64.toNat_sub_of_le _ _ (by rw [UInt64.le_iff_toNat_le, hmod]; exact hlt.le), hmod]
    rw [UInt64.toNat_add, hsub, Nat.mod_eq_of_lt h]

/-- Rounding up does not wrap for values this small, whatever the alignment. -/
theorem alignUp_toNat {value alignment : UInt64} (h : value.toNat < 2 ^ 63) :
    (alignUp value alignment).toNat =
      if alignment.toNat ≤ 1 then value.toNat
      else if value.toNat % alignment.toNat = 0 then value.toNat
      else value.toNat + (alignment.toNat - value.toNat % alignment.toNat) := by
  apply alignUp_toNat_of_lt
  have halignment := alignment.toNat_lt
  have hle := Nat.mod_le value.toNat alignment.toNat
  split_ifs with ha hz
  · omega
  · omega
  · -- either the alignment is no larger than the value, or the value is its own remainder
    have hlt := Nat.mod_lt value.toNat (by omega : alignment.toNat > 0)
    by_cases hcase : alignment.toNat ≤ value.toNat
    · omega
    · rw [Nat.mod_eq_of_lt (by omega)]
      omega

/-- What divides the alignment divides the result, also when the addition wraps. -/
theorem dvd_alignUp {n : ℕ} {value alignment : UInt64} (hn : n ∣ 2 ^ 64)
    (hdvd : n ∣ alignment.toNat) (hone : 1 < alignment.toNat) :
    n ∣ (alignUp value alignment).toNat := by
  have hnot : ¬alignment ≤ 1 := by
    rw [UInt64.le_iff_toNat_le]
    exact not_le.mpr hone
  have hmod : (value % alignment).toNat = value.toNat % alignment.toNat := UInt64.toNat_mod _ _
  have hlt := Nat.mod_lt value.toNat (by omega : alignment.toNat > 0)
  unfold alignUp
  rw [if_neg hnot]
  dsimp only
  split_ifs with hzero
  · have hrest : value.toNat % alignment.toNat = 0 := by
      rw [← hmod, hzero]
      rfl
    exact hdvd.trans (Nat.dvd_of_mod_eq_zero hrest)
  · have hsub : (alignment - value % alignment).toNat =
        alignment.toNat - value.toNat % alignment.toNat := by
      rw [UInt64.toNat_sub_of_le _ _ (by rw [UInt64.le_iff_toNat_le, hmod]; exact hlt.le), hmod]
    -- the sum is the next multiple
    have hsum : value.toNat + (alignment.toNat - value.toNat % alignment.toNat) =
        alignment.toNat * (value.toNat / alignment.toNat + 1) := by
      have hdiv := Nat.div_add_mod value.toNat alignment.toNat
      rw [Nat.mul_add, Nat.mul_one]
      omega
    rw [UInt64.toNat_add, hsub, hsum]
    exact (Nat.dvd_mod_iff hn).mpr (hdvd.mul_right _)

end MiniTool
