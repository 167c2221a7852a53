import MiniToolchain.Isa.Semantics
import Mathlib.Algebra.Order.Ring.Int
import Mathlib.Tactic.NormNum
import Mathlib.Tactic.Positivity

/-!
# Exact arithmetic

What the arithmetic instructions mean in the integers: a value is the exact result modulo `2 ^ 64`,
carry says that the exact unsigned result is not a word, and overflow that the exact signed one is
not.

## Main definitions

* `signed`, `wrap` — words read as signed integers, and integers cut to words.
* `exactBinary`, `exactUnary` — the exact results.
* `CarryOut`, `SignedOverflow` and their unary forms — when the two flags are set.
* `Reflects` — FLAGS as a report on a result.

## Main results

* `evaluateBinary_ok`, `evaluateUnary_ok` — the machine words agree with the integers.
* `branchTaken_of_compare` — what a conditional jump tests after a compare.
-/

namespace MiniTool
namespace Isa

/-! ### Words as integers -/

/-- A word as a signed integer. -/
def signed (a : UInt64) : ℤ := a.toInt64.toInt

/-- The word of an integer, modulo `2 ^ 64`. -/
def wrap (x : ℤ) : UInt64 := UInt64.ofNat (x % 2 ^ 64).toNat

def FitsUnsignedWord (x : ℤ) : Prop := 0 ≤ x ∧ x < 2 ^ 64

def FitsSignedWord (x : ℤ) : Prop := -2 ^ 63 ≤ x ∧ x < 2 ^ 63

theorem toNat_wrap (x : ℤ) : ((wrap x).toNat : ℤ) = x % 2 ^ 64 := by
  have hlt := Int.emod_lt_of_pos x (show (0 : ℤ) < 2 ^ 64 by norm_num)
  have hnonneg := Int.emod_nonneg x (show (2 ^ 64 : ℤ) ≠ 0 by norm_num)
  rw [wrap, UInt64.toNat_ofNat', Nat.mod_eq_of_lt (by omega)]
  omega

theorem eq_wrap {r : UInt64} {x : ℤ} (h : (r.toNat : ℤ) = x % 2 ^ 64) : r = wrap x := by
  apply UInt64.toNat_inj.mp
  have := toNat_wrap x
  omega

/-- A word is its unsigned reading, or that reading less `2 ^ 64` when its top bit is set. -/
theorem signed_cases (a : UInt64) :
    a.toNat < 2 ^ 63 ∧ signed a = a.toNat ∨ 2 ^ 63 ≤ a.toNat ∧ signed a = a.toNat - 2 ^ 64 := by
  have hsigned : signed a = a.toBitVec.toInt := rfl
  rw [hsigned, BitVec.toInt_eq_toNat_cond]
  change _ ∧ (if 2 * a.toNat < 2 ^ 64 then (a.toNat : ℤ) else a.toNat - ↑(2 ^ 64)) = _ ∨
    _ ∧ (if 2 * a.toNat < 2 ^ 64 then (a.toNat : ℤ) else a.toNat - ↑(2 ^ 64)) = _
  split_ifs with h
  · exact Or.inl ⟨by omega, rfl⟩
  · exact Or.inr ⟨by omega, by norm_num⟩

theorem signed_inj {a b : UInt64} (h : signed a = signed b) : a = b := by
  have ha := a.toNat_lt
  have hb := b.toNat_lt
  apply UInt64.toNat_inj.mp
  rcases signed_cases a with ⟨-, ha'⟩ | ⟨-, ha'⟩ <;> rcases signed_cases b with
    ⟨-, hb'⟩ | ⟨-, hb'⟩ <;> omega

/-- The top bit, as the flags read it. -/
theorem top_bit {a : UInt64} : a >>> 63 ≠ 0 ↔ a.toNat.testBit 63 = true := by
  have ha := a.toNat_lt
  have hshift : (a >>> 63).toNat = a.toNat / 2 ^ 63 := by
    rw [UInt64.toNat_shiftRight, Nat.shiftRight_eq_div_pow]
    rfl
  rw [Nat.testBit_eq_decide_div_mod_eq, decide_eq_true_eq, ne_eq, ← UInt64.toNat_inj, hshift]
  have hzero : (0 : UInt64).toNat = 0 := rfl
  omega

theorem testBit_top {a : UInt64} : a.toNat.testBit 63 = true ↔ 2 ^ 63 ≤ a.toNat := by
  have ha := a.toNat_lt
  rw [Nat.testBit_eq_decide_div_mod_eq, decide_eq_true_eq]
  omega

theorem top_bit_iff_signed {a : UInt64} : a >>> 63 ≠ 0 ↔ signed a < 0 := by
  have ha := a.toNat_lt
  rw [top_bit, testBit_top]
  rcases signed_cases a with ⟨hlt, hsigned⟩ | ⟨hge, hsigned⟩ <;> omega

/-! ### FLAGS -/

/-- FLAGS after an operation: ZF and SF are about its result, and no reserved bit is set. -/
structure Reflects (flags result : UInt64) (carry overflow : Prop) : Prop where
  zero : flags &&& kZeroFlag ≠ 0 ↔ result = 0
  sign : flags &&& kSignFlag ≠ 0 ↔ signed result < 0
  carry : flags &&& kCarryFlag ≠ 0 ↔ carry
  overflow : flags &&& kOverflowFlag ≠ 0 ↔ overflow
  reserved : flags &&& ~~~kFlagsMask = 0

theorem reflects_of_flagIf {result : UInt64} {c o carry overflow : Prop} [Decidable c] [Decidable o]
    (hcarry : c ↔ carry) (hoverflow : o ↔ overflow) :
    Reflects (zeroAndSign result ||| flagIf c kCarryFlag ||| flagIf o kOverflowFlag) result carry
      overflow := by
  -- the four conditions are independent bits
  have hbits : ∀ z s c o : Bool,
      let flags := cond z kZeroFlag 0 ||| cond s kSignFlag 0 ||| cond c kCarryFlag 0 |||
        cond o kOverflowFlag 0
      (flags &&& kZeroFlag ≠ 0 ↔ z = true) ∧ (flags &&& kSignFlag ≠ 0 ↔ s = true) ∧
        (flags &&& kCarryFlag ≠ 0 ↔ c = true) ∧ (flags &&& kOverflowFlag ≠ 0 ↔ o = true) ∧
        flags &&& ~~~kFlagsMask = 0 := by decide
  have hflag : ∀ (p : Prop) [Decidable p] (flag : UInt64),
      flagIf p flag = cond (decide p) flag 0 := by
    intro p _ flag
    by_cases h : p <;> simp [flagIf, h]
  obtain ⟨hz, hs, hc, ho, hreserved⟩ := hbits (decide (result = 0)) (decide (result >>> 63 ≠ 0))
    (decide c) (decide o)
  rw [zeroAndSign, hflag, hflag, hflag, hflag]
  rw [decide_eq_true_eq] at hz hs hc ho
  exact ⟨hz, hs.trans top_bit_iff_signed, hc.trans hcarry, ho.trans hoverflow, hreserved⟩

/-- FLAGS of an operation that has no overflow. -/
theorem reflects_of_carry {result : UInt64} {c carry : Prop} [Decidable c] (hcarry : c ↔ carry) :
    Reflects (zeroAndSign result ||| flagIf c kCarryFlag) result carry False := by
  have h : Reflects (_ ||| flagIf False kOverflowFlag) result carry False :=
    reflects_of_flagIf hcarry Iff.rfl
  rwa [show flagIf False kOverflowFlag = 0 from rfl, UInt64.or_zero] at h

/-- FLAGS of an operation that has neither carry nor overflow. -/
theorem reflects_zeroAndSign (result : UInt64) :
    Reflects (zeroAndSign result) result False False := by
  have h : Reflects (_ ||| flagIf False kCarryFlag) result False False := reflects_of_carry Iff.rfl
  rwa [show flagIf False kCarryFlag = 0 from rfl, UInt64.or_zero] at h

/-! ### Sums and differences -/

/-- The xor masks of a sum: the operands agree in sign and the result does not. -/
theorem sum_mask {a b r : UInt64} : (~~~(a ^^^ b) &&& (a ^^^ r)) >>> 63 ≠ 0 ↔
    (2 ^ 63 ≤ a.toNat ↔ 2 ^ 63 ≤ b.toNat) ∧ ¬(2 ^ 63 ≤ a.toNat ↔ 2 ^ 63 ≤ r.toNat) := by
  have hnot : ∀ x : UInt64, (~~~x).toNat.testBit 63 = !x.toNat.testBit 63 := by
    intro x
    have h1 := testBit_top (a := x)
    have h2 := testBit_top (a := ~~~x)
    have hval : (~~~x).toNat = 2 ^ 64 - 1 - x.toNat := UInt64.toNat_not x
    have hx := x.toNat_lt
    rw [hval] at h2 ⊢
    rw [Bool.eq_not, ne_eq, ← Bool.coe_iff_coe, h1, h2]
    omega
  rw [top_bit, UInt64.toNat_and, Nat.testBit_and, hnot, UInt64.toNat_xor, UInt64.toNat_xor,
    Nat.testBit_xor, Nat.testBit_xor, ← testBit_top, ← testBit_top, ← testBit_top]
  cases a.toNat.testBit 63 <;> cases b.toNat.testBit 63 <;> cases r.toNat.testBit 63 <;> decide

/-- The xor masks of a difference: the operands differ in sign, and the result has the sign of the
subtrahend. -/
theorem difference_mask {a b r : UInt64} : ((a ^^^ b) &&& (a ^^^ r)) >>> 63 ≠ 0 ↔
    ¬(2 ^ 63 ≤ a.toNat ↔ 2 ^ 63 ≤ b.toNat) ∧ ¬(2 ^ 63 ≤ a.toNat ↔ 2 ^ 63 ≤ r.toNat) := by
  rw [top_bit, UInt64.toNat_and, Nat.testBit_and, UInt64.toNat_xor, UInt64.toNat_xor,
    Nat.testBit_xor, Nat.testBit_xor, ← testBit_top, ← testBit_top, ← testBit_top]
  cases a.toNat.testBit 63 <;> cases b.toNat.testBit 63 <;> cases r.toNat.testBit 63 <;> decide

theorem toNat_add_cases (a b : UInt64) :
    a.toNat + b.toNat < 2 ^ 64 ∧ (a + b).toNat = a.toNat + b.toNat ∨
      2 ^ 64 ≤ a.toNat + b.toNat ∧ (a + b).toNat = a.toNat + b.toNat - 2 ^ 64 := by
  have ha := a.toNat_lt
  have hb := b.toNat_lt
  rw [UInt64.toNat_add]
  omega

theorem toNat_sub_cases (a b : UInt64) :
    b.toNat ≤ a.toNat ∧ (a - b).toNat = a.toNat - b.toNat ∨
      a.toNat < b.toNat ∧ (a - b).toNat = a.toNat + 2 ^ 64 - b.toNat := by
  have ha := a.toNat_lt
  have hb := b.toNat_lt
  rw [UInt64.toNat_sub]
  omega

theorem reflects_add (a b : UInt64) :
    Reflects (computeFlags (a + b) a b false) (a + b) (¬FitsUnsignedWord (a.toNat + b.toNat))
      (¬FitsSignedWord (signed a + signed b)) := by
  have ha := a.toNat_lt
  have hb := b.toNat_lt
  have hsum := toNat_add_cases a b
  apply reflects_of_flagIf
  · rw [UInt64.lt_iff_toNat_lt, FitsUnsignedWord]
    omega
  · rw [sum_mask, FitsSignedWord]
    rcases signed_cases a with ⟨ha', hsa⟩ | ⟨ha', hsa⟩ <;>
      rcases signed_cases b with ⟨hb', hsb⟩ | ⟨hb', hsb⟩ <;> omega

theorem reflects_sub (a b : UInt64) :
    Reflects (computeFlags (a - b) a b true) (a - b) (¬FitsUnsignedWord (a.toNat - b.toNat))
      (¬FitsSignedWord (signed a - signed b)) := by
  have ha := a.toNat_lt
  have hb := b.toNat_lt
  have hdifference := toNat_sub_cases a b
  apply reflects_of_flagIf
  · rw [UInt64.lt_iff_toNat_lt, FitsUnsignedWord]
    omega
  · rw [difference_mask, FitsSignedWord]
    rcases signed_cases a with ⟨ha', hsa⟩ | ⟨ha', hsa⟩ <;>
      rcases signed_cases b with ⟨hb', hsb⟩ | ⟨hb', hsb⟩ <;> omega

/-! ### Products and quotients -/

/-- Dividing the product back shows whether it lost anything. -/
theorem product_check {a b : UInt64} : a ≠ 0 ∧ a * b / a ≠ b ↔ 2 ^ 64 ≤ a.toNat * b.toNat := by
  have hproduct : (a * b).toNat = a.toNat * b.toNat % 2 ^ 64 := UInt64.toNat_mul a b
  rw [ne_eq, ne_eq, ← UInt64.toNat_inj, ← UInt64.toNat_inj, UInt64.toNat_div, hproduct]
  have hzero : (0 : UInt64).toNat = 0 := rfl
  rw [hzero]
  constructor
  · rintro ⟨hne, hback⟩
    by_contra hlt
    rw [Nat.mod_eq_of_lt (by omega), Nat.mul_div_cancel_left _ (by omega)] at hback
    exact hback rfl
  · intro hge
    have hne : a.toNat ≠ 0 := by
      intro h
      rw [h] at hge
      omega
    refine ⟨hne, ?_⟩
    intro hback
    have hlt : a.toNat * b.toNat % 2 ^ 64 < 2 ^ 64 := Nat.mod_lt _ (by norm_num)
    have hle := Nat.div_mul_le_self (a.toNat * b.toNat % 2 ^ 64) a.toNat
    rw [hback, Nat.mul_comm] at hle
    omega

theorem toInt64_eq_neg_one {b : UInt64} : b.toInt64 = -1 ↔ signed b = -1 := by
  rw [← Int64.toInt_inj]
  rfl

theorem toUInt64_eq_wrap (x : Int64) : x.toUInt64 = wrap x.toInt := by
  apply eq_wrap
  have hlt := x.toUInt64.toNat_lt
  have hx : x.toInt = signed x.toUInt64 := rfl
  rcases signed_cases x.toUInt64 with ⟨-, h⟩ | ⟨-, h⟩ <;> omega

theorem neg_eq_wrap (a : UInt64) : ~~~a + 1 = wrap (-signed a) := by
  apply eq_wrap
  have ha := a.toNat_lt
  have hnot : (~~~a).toNat = 2 ^ 64 - 1 - a.toNat := UInt64.toNat_not a
  have hone : (1 : UInt64).toNat = 1 := rfl
  rw [UInt64.toNat_add, hnot, hone]
  rcases signed_cases a with ⟨-, h⟩ | ⟨-, h⟩ <;> omega

/-- Truncating division, with the one quotient that is not a signed word. -/
theorem quotient_eq_wrap (a b : UInt64) :
    (if b.toInt64 = -1 then ~~~a + 1 else (a.toInt64 / b.toInt64).toUInt64) =
      wrap ((signed a).tdiv (signed b)) := by
  split_ifs with h
  · rw [toInt64_eq_neg_one.mp h, neg_eq_wrap, Int.tdiv_neg, Int.tdiv_one]
  · rw [toUInt64_eq_wrap, Int64.toInt_div]
    apply eq_wrap
    rw [toNat_wrap]
    exact Int.bmod_emod

theorem remainder_eq_wrap (a b : UInt64) :
    (if b.toInt64 = -1 then 0 else (a.toInt64 % b.toInt64).toUInt64) =
      wrap ((signed a).tmod (signed b)) := by
  split_ifs with h
  · rw [toInt64_eq_neg_one.mp h, Int.tmod_neg, Int.tmod_one]
    rfl
  · rw [toUInt64_eq_wrap, Int64.toInt_mod]
    rfl

/-! ### Shifts -/

/-- The count of a shift by `b`. -/
def shiftCount (b : UInt64) : ℕ := b.toNat % 64

theorem toNat_and_63 (b : UInt64) : (b &&& 63).toNat = shiftCount b := by
  rw [UInt64.toNat_and]
  exact Nat.and_two_pow_sub_one_eq_mod b.toNat 6

theorem and_63_eq_zero {b : UInt64} : b &&& 63 = 0 ↔ shiftCount b = 0 := by
  rw [← UInt64.toNat_inj, toNat_and_63]
  rfl

theorem shiftCount_lt (b : UInt64) : shiftCount b < 64 := Nat.mod_lt _ (by norm_num)

/-- The lowest bit after a shift to the right is the bit that was there. -/
theorem bit_of_shift {a i : UInt64} (hi : i.toNat < 64) :
    (a >>> i) &&& 1 ≠ 0 ↔ a.toNat.testBit i.toNat = true := by
  have hone : (1 : UInt64).toNat = 1 := rfl
  have hzero : (0 : UInt64).toNat = 0 := rfl
  rw [ne_eq, ← UInt64.toNat_inj, UInt64.toNat_and, UInt64.toNat_shiftRight, Nat.mod_eq_of_lt hi,
    hone, hzero, Nat.and_one_is_mod, Nat.shiftRight_eq_div_pow, Nat.testBit_eq_decide_div_mod_eq,
    decide_eq_true_eq]
  omega

/-- The last bit a shift to the left by `count` drops. -/
theorem carry_left {a b : UInt64} :
    (b &&& 63 ≠ 0 ∧ (a >>> (64 - (b &&& 63))) &&& 1 ≠ 0) ↔
      shiftCount b ≠ 0 ∧ a.toNat.testBit (64 - shiftCount b) = true := by
  rw [ne_eq, and_63_eq_zero]
  apply and_congr_right
  intro hcount
  have hlt := shiftCount_lt b
  have hindex : (64 - (b &&& 63)).toNat = 64 - shiftCount b := by
    rw [UInt64.toNat_sub_of_le _ _ (UInt64.le_iff_toNat_le.mpr (by
      rw [toNat_and_63]
      exact hlt.le)), toNat_and_63]
    rfl
  rw [bit_of_shift (by omega), hindex]

/-- The last bit a shift to the right by `count` drops. -/
theorem carry_right {a b : UInt64} :
    (b &&& 63 ≠ 0 ∧ (a >>> ((b &&& 63) - 1)) &&& 1 ≠ 0) ↔
      shiftCount b ≠ 0 ∧ a.toNat.testBit (shiftCount b - 1) = true := by
  rw [ne_eq, and_63_eq_zero]
  apply and_congr_right
  intro hcount
  have hlt := shiftCount_lt b
  have hone : (1 : UInt64).toNat = 1 := rfl
  have hindex : ((b &&& 63) - 1).toNat = shiftCount b - 1 := by
    rw [UInt64.toNat_sub_of_le _ _ (UInt64.le_iff_toNat_le.mpr (by
      rw [toNat_and_63]
      omega)), toNat_and_63, hone]
  rw [bit_of_shift (by omega), hindex]

theorem toNat_shiftRight_and_63 (a b : UInt64) :
    (a >>> (b &&& 63)).toNat = a.toNat / 2 ^ shiftCount b := by
  rw [UInt64.toNat_shiftRight, toNat_and_63, Nat.mod_eq_of_lt (shiftCount_lt b),
    Nat.shiftRight_eq_div_pow]

theorem left_eq_wrap (a b : UInt64) : (if b &&& 63 = 0 then a else a <<< (b &&& 63)) =
    wrap (a.toNat * 2 ^ shiftCount b) := by
  apply eq_wrap
  have hvalue : (if b &&& 63 = 0 then a else a <<< (b &&& 63)).toNat =
      a.toNat * 2 ^ shiftCount b % 2 ^ 64 := by
    split_ifs with h
    · rw [and_63_eq_zero.mp h, pow_zero, mul_one, Nat.mod_eq_of_lt a.toNat_lt]
    · rw [UInt64.toNat_shiftLeft, toNat_and_63, Nat.mod_eq_of_lt (shiftCount_lt b),
        Nat.shiftLeft_eq]
  rw [hvalue]
  push_cast
  rfl

theorem right_eq_wrap (a b : UInt64) : (if b &&& 63 = 0 then a else a >>> (b &&& 63)) =
    wrap (a.toNat / 2 ^ shiftCount b) := by
  have hshift : (if b &&& 63 = 0 then a else a >>> (b &&& 63)) = a >>> (b &&& 63) := by
    split_ifs with h
    · rw [h, UInt64.shiftRight_zero]
    · rfl
  rw [hshift]
  apply eq_wrap
  have hlt := (a >>> (b &&& 63)).toNat_lt
  have hvalue : ((a.toNat : ℤ) / 2 ^ shiftCount b) = ((a >>> (b &&& 63)).toNat : ℤ) := by
    rw [toNat_shiftRight_and_63]
    push_cast
    rfl
  rw [hvalue]
  omega

/-- The arithmetic shift is the floor of the quotient: the ones above the shifted word make up for
the `2 ^ 64` that a negative word lacks. -/
theorem arithmetic_eq_wrap (a b : UInt64) :
    (if b &&& 63 = 0 then a
      else (a >>> (b &&& 63)) |||
        (if a >>> 63 ≠ 0 then (~~~(0 : UInt64)) <<< (64 - (b &&& 63)) else 0)) =
      wrap (signed a / 2 ^ shiftCount b) := by
  have ha := a.toNat_lt
  have hlt := shiftCount_lt b
  apply eq_wrap
  by_cases hcount : b &&& 63 = 0
  · rw [if_pos hcount, and_63_eq_zero.mp hcount, pow_zero, Int.ediv_one]
    rcases signed_cases a with ⟨-, h⟩ | ⟨-, h⟩ <;> omega
  rw [if_neg hcount]
  rcases signed_cases a with ⟨hpos, hsigned⟩ | ⟨hneg, hsigned⟩
  · rw [if_neg (by rw [top_bit_iff_signed]; omega), UInt64.or_zero, hsigned,
      toNat_shiftRight_and_63]
    have hle := Nat.div_le_self a.toNat (2 ^ shiftCount b)
    have hcast : ((a.toNat : ℤ) / 2 ^ shiftCount b) = ((a.toNat / 2 ^ shiftCount b : ℕ) : ℤ) := by
      push_cast
      rfl
    rw [hcast, Int.emod_eq_of_lt (Int.natCast_nonneg _) (by exact_mod_cast hle.trans_lt ha)]
  · rw [if_pos (by rw [top_bit_iff_signed]; omega), hsigned]
    have hsplit : 2 ^ 64 = 2 ^ (64 - shiftCount b) * 2 ^ shiftCount b := by
      rw [← Nat.pow_add]
      congr 1
      omega
    have hquotient : a.toNat / 2 ^ shiftCount b < 2 ^ (64 - shiftCount b) :=
      Nat.div_lt_of_lt_mul (by rw [Nat.mul_comm, ← hsplit]; exact ha)
    have hone : 1 ≤ 2 ^ shiftCount b := Nat.one_le_two_pow
    -- the mask of ones, then the word put below it
    have hmask : ((~~~(0 : UInt64)) <<< (64 - (b &&& 63))).toNat =
        (2 ^ shiftCount b - 1) <<< (64 - shiftCount b) := by
      have hcount' : shiftCount b ≠ 0 := and_63_eq_zero.not.mp hcount
      have hindex : (64 - (b &&& 63)).toNat = 64 - shiftCount b := by
        rw [UInt64.toNat_sub_of_le _ _ (UInt64.le_iff_toNat_le.mpr (by
          rw [toNat_and_63]
          exact hlt.le)), toNat_and_63]
        rfl
      have hones : (~~~(0 : UInt64)).toNat = 2 ^ 64 - 1 := rfl
      have hmost : 2 ^ (64 - shiftCount b) ≤ 2 ^ 64 := Nat.pow_le_pow_right (by norm_num) (by omega)
      have hleast : 1 ≤ 2 ^ (64 - shiftCount b) := Nat.one_le_two_pow
      rw [UInt64.toNat_shiftLeft, hones, hindex,
        Nat.mod_eq_of_lt (show 64 - shiftCount b < 64 by omega), Nat.shiftLeft_eq, Nat.shiftLeft_eq,
        Nat.sub_mul (2 ^ shiftCount b), one_mul, Nat.mul_comm (2 ^ shiftCount b), ← hsplit]
      generalize 2 ^ (64 - shiftCount b) = m at hmost hleast
      omega
    have hvalue : ((a >>> (b &&& 63)) ||| ((~~~(0 : UInt64)) <<< (64 - (b &&& 63)))).toNat =
        a.toNat / 2 ^ shiftCount b + (2 ^ 64 - 2 ^ (64 - shiftCount b)) := by
      rw [UInt64.toNat_or, hmask, toNat_shiftRight_and_63, Nat.or_comm,
        ← Nat.shiftLeft_add_eq_or_of_lt hquotient, Nat.shiftLeft_eq, Nat.sub_mul, one_mul, hsplit,
        Nat.mul_comm (2 ^ shiftCount b), Nat.add_comm]
    have hfloor : ((a.toNat : ℤ) - 2 ^ 64) / 2 ^ shiftCount b =
        ((a.toNat / 2 ^ shiftCount b : ℕ) : ℤ) - 2 ^ (64 - shiftCount b) := by
      have hsplit' : (2 ^ 64 : ℤ) = 2 ^ (64 - shiftCount b) * 2 ^ shiftCount b := by
        exact_mod_cast hsplit
      rw [hsplit', Int.sub_mul_ediv_right _ _ (by positivity)]
      push_cast
      rfl
    have hpow : 2 ^ (64 - shiftCount b) ≤ 2 ^ 64 := Nat.pow_le_pow_right (by norm_num) (by omega)
    have hcast : (2 ^ (64 - shiftCount b) : ℤ) = ((2 ^ (64 - shiftCount b) : ℕ) : ℤ) := by
      push_cast
      rfl
    rw [hvalue, hfloor, hcast]
    generalize a.toNat / 2 ^ shiftCount b = q at hquotient
    generalize 2 ^ (64 - shiftCount b) = m at hquotient hpow
    omega

/-! ### The exact results -/

/-- What a two-operand operation stands for, before the wrap.  CMP is SUB and TEST is AND. -/
def exactBinary (opcode : Opcode) (a b : UInt64) : ℤ :=
  match opcode with
  | .ADD => a.toNat + b.toNat
  | .SUB | .CMP => a.toNat - b.toNat
  | .MUL => a.toNat * b.toNat
  | .DIV => (signed a).tdiv (signed b)
  | .MOD => (signed a).tmod (signed b)
  | .AND | .TEST => (a.toNat &&& b.toNat : ℕ)
  | .OR => (a.toNat ||| b.toNat : ℕ)
  | .XOR => (a.toNat ^^^ b.toNat : ℕ)
  | .SHL => a.toNat * 2 ^ shiftCount b
  | .SHR => a.toNat / 2 ^ shiftCount b
  -- the quotient of a positive divisor is the floor
  | .SAR => signed a / 2 ^ shiftCount b
  | _ => 0

/-- What a one-operand operation stands for, before the wrap. -/
def exactUnary (opcode : Opcode) (a : UInt64) : ℤ :=
  match opcode with
  | .INC => a.toNat + 1
  | .DEC => a.toNat - 1
  | .NEG => -a.toNat
  | .NOT => Int.not a.toNat
  | _ => 0

def CarryOut (opcode : Opcode) (a b : UInt64) : Prop :=
  match opcode with
  | .ADD => ¬FitsUnsignedWord (a.toNat + b.toNat)
  | .SUB | .CMP => ¬FitsUnsignedWord (a.toNat - b.toNat)
  | .MUL => 2 ^ 64 ≤ a.toNat * b.toNat
  | .SHL => shiftCount b ≠ 0 ∧ a.toNat.testBit (64 - shiftCount b) = true
  | .SHR | .SAR => shiftCount b ≠ 0 ∧ a.toNat.testBit (shiftCount b - 1) = true
  | _ => False

def SignedOverflow (opcode : Opcode) (a b : UInt64) : Prop :=
  match opcode with
  | .ADD => ¬FitsSignedWord (signed a + signed b)
  | .SUB | .CMP => ¬FitsSignedWord (signed a - signed b)
  | _ => False

def UnaryCarryOut (opcode : Opcode) (a : UInt64) : Prop :=
  match opcode with
  | .INC | .DEC | .NEG => ¬FitsUnsignedWord (exactUnary opcode a)
  | _ => False

def UnarySignedOverflow (opcode : Opcode) (a : UInt64) : Prop :=
  match opcode with
  | .INC => ¬FitsSignedWord (signed a + 1)
  | .DEC => ¬FitsSignedWord (signed a - 1)
  | .NEG => ¬FitsSignedWord (-signed a)
  | _ => False

/-- What an operation that succeeds returns: the wrapped exact result where it writes one, and FLAGS
that reflect it where it writes FLAGS. -/
structure Computes (r : AluResult) (exact : ℤ) (writesValue writesFlags : Bool)
    (carry overflow : Prop) : Prop where
  writesValue_eq : r.writesValue = writesValue
  writesFlags_eq : r.writesFlags = writesFlags
  value_eq : r.writesValue = true → r.value = wrap exact
  reflects : r.writesFlags = true → Reflects r.flags (wrap exact) carry overflow

/-- False for CMP and TEST. -/
def writesBinary (opcode : Opcode) : Bool := opcode ≠ .CMP && opcode ≠ .TEST

theorem wrap_toNat (r : UInt64) : wrap r.toNat = r :=
  (eq_wrap (by have := r.toNat_lt; omega)).symm

theorem add_eq_wrap (a b : UInt64) : a + b = wrap (a.toNat + b.toNat) := by
  apply eq_wrap
  rw [UInt64.toNat_add]
  push_cast
  rfl

theorem sub_eq_wrap (a b : UInt64) : a - b = wrap (a.toNat - b.toNat) := by
  apply eq_wrap
  have ha := a.toNat_lt
  have hb := b.toNat_lt
  rcases toNat_sub_cases a b with ⟨h, hval⟩ | ⟨h, hval⟩ <;> omega

theorem mul_eq_wrap (a b : UInt64) : a * b = wrap (a.toNat * b.toNat) := by
  apply eq_wrap
  rw [UInt64.toNat_mul]
  push_cast
  rfl

theorem not_eq_wrap (a : UInt64) : ~~~a = wrap (Int.not a.toNat) := by
  apply eq_wrap
  have ha := a.toNat_lt
  have hnot : (~~~a).toNat = 2 ^ 64 - 1 - a.toNat := UInt64.toNat_not a
  have hneg : Int.not a.toNat = -a.toNat - 1 := by
    change Int.negSucc a.toNat = _
    omega
  rw [hnot, hneg]
  omega

/-! ### The operations -/

section

variable {value flags : UInt64} {exact : ℤ} {carry overflow : Prop}

theorem computes_of_value (hvalue : value = wrap exact) (h : Reflects flags value carry overflow) :
    Computes { value, flags } exact true true carry overflow := by
  subst hvalue
  exact ⟨rfl, rfl, fun _ => rfl, fun _ => h⟩

theorem computes_of_flags {kept : UInt64} (hvalue : value = wrap exact)
    (h : Reflects flags value carry overflow) :
    Computes { value := kept, flags, writesValue := false } exact false true carry overflow := by
  subst hvalue
  exact ⟨rfl, rfl, nofun, fun _ => h⟩

theorem computes_logical {result : UInt64} :
    Computes (logical result) result.toNat true true False False :=
  computes_of_value (wrap_toNat result).symm (reflects_zeroAndSign result)

end

/-- A two-operand operation succeeds unless it divides by zero. -/
theorem evaluateBinary_ok {opcode : Opcode} {a b : UInt64} (halu : isBinaryAlu opcode = true)
    (hzero : ¬((opcode = .DIV ∨ opcode = .MOD) ∧ b = 0)) :
    ∃ r, evaluateBinary opcode a b = .ok r ∧
      Computes r (exactBinary opcode a b) (writesBinary opcode) true (CarryOut opcode a b)
        (SignedOverflow opcode a b) := by
  cases opcode <;> try cases halu
  case ADD => exact ⟨_, rfl, computes_of_value (add_eq_wrap a b) (reflects_add a b)⟩
  case SUB => exact ⟨_, rfl, computes_of_value (sub_eq_wrap a b) (reflects_sub a b)⟩
  case MUL => exact ⟨_, rfl, computes_of_value (mul_eq_wrap a b) (reflects_of_carry product_check)⟩
  case DIV =>
    have hb : b ≠ 0 := fun h => hzero ⟨Or.inl rfl, h⟩
    exact ⟨_, if_neg hb, computes_of_value (quotient_eq_wrap a b) (reflects_zeroAndSign _)⟩
  case MOD =>
    have hb : b ≠ 0 := fun h => hzero ⟨Or.inr rfl, h⟩
    exact ⟨_, if_neg hb, computes_of_value (remainder_eq_wrap a b) (reflects_zeroAndSign _)⟩
  case AND => exact ⟨_, rfl, computes_logical⟩
  case OR => exact ⟨_, rfl, computes_logical⟩
  case XOR => exact ⟨_, rfl, computes_logical⟩
  case SHL => exact ⟨_, rfl, computes_of_value (left_eq_wrap a b) (reflects_of_carry carry_left)⟩
  case SHR => exact ⟨_, rfl, computes_of_value (right_eq_wrap a b) (reflects_of_carry carry_right)⟩
  case SAR =>
    exact ⟨_, rfl, computes_of_value (arithmetic_eq_wrap a b) (reflects_of_carry carry_right)⟩
  case CMP => exact ⟨_, rfl, computes_of_flags (sub_eq_wrap a b) (reflects_sub a b)⟩
  case TEST =>
    exact ⟨_, rfl, computes_of_flags (wrap_toNat (a &&& b)).symm (reflects_zeroAndSign (a &&& b))⟩

/-- A one-operand operation succeeds. -/
theorem evaluateUnary_ok {opcode : Opcode} {a : UInt64} (halu : isUnaryAlu opcode = true) :
    ∃ r, evaluateUnary opcode a = .ok r ∧
      Computes r (exactUnary opcode a) true (opcode ≠ .NOT) (UnaryCarryOut opcode a)
        (UnarySignedOverflow opcode a) := by
  cases opcode <;> try cases halu
  case INC => exact ⟨_, rfl, computes_of_value (add_eq_wrap a 1) (reflects_add a 1)⟩
  case DEC => exact ⟨_, rfl, computes_of_value (sub_eq_wrap a 1) (reflects_sub a 1)⟩
  case NEG =>
    -- the negation of a word is its difference from zero
    have hneg : ~~~a + 1 = 0 - a := by
      rw [UInt64.zero_sub]
      exact (UInt64.neg_eq_not_add a).symm
    have hexact : (((0 : UInt64).toNat : ℤ) - a.toNat) = -a.toNat := zero_sub _
    have hsigned : signed 0 - signed a = -signed a := zero_sub _
    have hvalue := sub_eq_wrap 0 a
    have hreflects := reflects_sub 0 a
    rw [hexact] at hvalue hreflects
    rw [hsigned] at hreflects
    rw [← hneg] at hvalue hreflects
    exact ⟨_, rfl, computes_of_value hvalue hreflects⟩
  case NOT => exact ⟨_, rfl, ⟨rfl, rfl, fun _ => not_eq_wrap a, nofun⟩⟩

theorem evaluateBinary_of_not_alu {opcode : Opcode} {a b : UInt64}
    (halu : isBinaryAlu opcode = false) : evaluateBinary opcode a b = .error .notArithmetic := by
  cases opcode <;> first | rfl | cases halu

theorem evaluateUnary_of_not_alu {opcode : Opcode} {a : UInt64}
    (halu : isUnaryAlu opcode = false) : evaluateUnary opcode a = .error .notArithmetic := by
  cases opcode <;> first | rfl | cases halu

/-- The arithmetic instructions are exact: what they return is the wrapped integer result with FLAGS
that reflect it, and they fail on a division by zero only. -/
theorem evaluate_exact (opcode : Opcode) (a b : UInt64) :
    (match evaluateBinary opcode a b with
      | .ok r => isBinaryAlu opcode = true ∧ ¬((opcode = .DIV ∨ opcode = .MOD) ∧ b = 0) ∧
          Computes r (exactBinary opcode a b) (writesBinary opcode) true (CarryOut opcode a b)
            (SignedOverflow opcode a b)
      | .error .divisionByZero => (opcode = .DIV ∨ opcode = .MOD) ∧ b = 0
      | .error .notArithmetic => isBinaryAlu opcode = false) ∧
    (match evaluateUnary opcode a with
      | .ok r => isUnaryAlu opcode = true ∧
          Computes r (exactUnary opcode a) true (opcode ≠ .NOT) (UnaryCarryOut opcode a)
            (UnarySignedOverflow opcode a)
      | .error .divisionByZero => False
      | .error .notArithmetic => isUnaryAlu opcode = false) := by
  constructor
  · by_cases halu : isBinaryAlu opcode = true
    · by_cases hzero : (opcode = .DIV ∨ opcode = .MOD) ∧ b = 0
      · have hfails : evaluateBinary opcode a b = .error .divisionByZero := by
          obtain ⟨rfl | rfl, rfl⟩ := hzero <;> rfl
        rw [hfails]
        exact hzero
      · obtain ⟨r, hr, hcomputes⟩ := evaluateBinary_ok (a := a) halu hzero
        rw [hr]
        exact ⟨halu, hzero, hcomputes⟩
    · rw [Bool.not_eq_true] at halu
      rw [evaluateBinary_of_not_alu halu]
      exact halu
  · by_cases halu : isUnaryAlu opcode = true
    · obtain ⟨r, hr, hcomputes⟩ := evaluateUnary_ok (a := a) halu
      rw [hr]
      exact ⟨halu, hcomputes⟩
    · rw [Bool.not_eq_true] at halu
      rw [evaluateUnary_of_not_alu halu]
      exact halu

/-! ### Compare and branch -/

/-- Masking FLAGS that set no reserved bit changes nothing. -/
theorem Reflects.masked {flags result : UInt64} {carry overflow : Prop}
    (h : Reflects flags result carry overflow) : flags &&& kFlagsMask = flags := by
  have hreserved : flags.toBitVec &&& ~~~kFlagsMask.toBitVec = 0#64 :=
    congrArg UInt64.toBitVec h.reserved
  apply UInt64.toBitVec_inj.mp
  rw [UInt64.toBitVec_and]
  ext i hi
  have hbit := congrArg (fun v : BitVec 64 => v[i]) hreserved
  rw [BitVec.getElem_and]
  revert hbit
  simp only [BitVec.getElem_and, BitVec.getElem_not, BitVec.getElem_zero]
  cases flags.toBitVec[i] <;> cases (UInt64.toBitVec kFlagsMask)[i] <;> simp

/-- The relation between two compared words that a conditional jump tests. -/
def Compares (opcode : Opcode) (a b : UInt64) : Prop :=
  match opcode with
  | .JE => a = b
  | .JNE => a ≠ b
  | .JL => signed a < signed b
  | .JLE => signed a ≤ signed b
  | .JG => signed b < signed a
  | .JGE => signed b ≤ signed a
  | _ => False

/-- After a compare the sign of the difference is wrong exactly on an overflow, so that the sign and
the overflow together order the operands. -/
theorem branchTaken_of_compare {flags a b : UInt64} {carry : Prop}
    (h : Reflects flags (a - b) carry (¬FitsSignedWord (signed a - signed b))) {opcode : Opcode}
    (hopcode : readsFlags opcode = true) :
    branchTaken opcode flags = true ↔ Compares opcode a b := by
  have hzero := h.zero
  have hsign := h.sign
  have hoverflow := h.overflow
  have hsub : a - b = 0 ↔ signed a = signed b := by
    constructor
    · intro hsub
      have hab := UInt64.sub_add_cancel a b
      rw [hsub, UInt64.zero_add] at hab
      rw [hab]
    · intro hsigned
      rw [signed_inj hsigned, UInt64.sub_self]
  have hless : (signed (a - b) < 0 ↔ ¬¬FitsSignedWord (signed a - signed b)) ↔
      signed a < signed b := by
    have ha := a.toNat_lt
    have hb := b.toNat_lt
    have hdifference := toNat_sub_cases a b
    rw [FitsSignedWord]
    rcases signed_cases a with ⟨ha', hsa⟩ | ⟨ha', hsa⟩ <;>
      rcases signed_cases b with ⟨hb', hsb⟩ | ⟨hb', hsb⟩ <;>
      rcases signed_cases (a - b) with ⟨hd, hsd⟩ | ⟨hd, hsd⟩ <;> omega
  have heq : a = b ↔ signed a = signed b := ⟨fun heq => by rw [heq], signed_inj⟩
  -- the three conditions that the jumps combine
  have hequal : decide (flags &&& kZeroFlag ≠ 0) = decide (signed a = signed b) :=
    decide_eq_decide.mpr (hzero.trans hsub)
  have hdiffer : (decide (flags &&& kSignFlag ≠ 0) != decide (flags &&& kOverflowFlag ≠ 0)) =
      decide (signed a < signed b) := by
    rw [Bool.eq_iff_iff, bne_iff_ne, ne_eq, decide_eq_decide, decide_eq_true_eq, ← hless, hsign,
      hoverflow, not_not, not_iff, not_iff_not]
  have hsame : (decide (flags &&& kSignFlag ≠ 0) == decide (flags &&& kOverflowFlag ≠ 0)) =
      !decide (signed a < signed b) := by
    rw [← hdiffer]
    cases decide (flags &&& kSignFlag ≠ 0) <;> cases decide (flags &&& kOverflowFlag ≠ 0) <;> rfl
  cases opcode <;> try cases hopcode
  case JE => rw [branchTaken, hequal, decide_eq_true_eq, Compares, heq]
  case JNE =>
    rw [branchTaken, hequal, Bool.not_eq_true', decide_eq_false_iff_not, Compares, ne_eq, heq]
  case JL => rw [branchTaken, hdiffer, decide_eq_true_eq, Compares]
  case JGE =>
    rw [branchTaken, hsame, Bool.not_eq_true', decide_eq_false_iff_not, Compares, not_lt]
  case JLE =>
    rw [branchTaken, hequal, hdiffer, Bool.or_eq_true, decide_eq_true_eq,
      decide_eq_true_eq, Compares]
    omega
  case JG =>
    rw [branchTaken, hequal, hsame, Bool.and_eq_true, Bool.not_eq_true', Bool.not_eq_true',
      decide_eq_false_iff_not, decide_eq_false_iff_not, Compares]
    omega

end Isa
end MiniTool
