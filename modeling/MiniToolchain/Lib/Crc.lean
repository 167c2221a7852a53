import Mathlib.Data.Nat.Notation
import Mathlib.Logic.Function.Iterate
import Mathlib.Tactic.SplitIfs

/-!
# Reflected cyclic redundancy checks

The shift register of a reflected CRC, of any width and with any polynomial: a step shifts the
register to the right and adds the polynomial when a one falls out.  A step is linear, and it loses
nothing when the polynomial has its top bit set, so a change to as many consecutive bits of a
message as the register has is never forgotten.

## Main definitions

* `step poly x` — one bit.
* `feed poly x byte` — one byte: add it at the low end, then eight steps.
* `register poly x bytes` — a whole message.
* `shiftIn poly x bit`, `serial poly x bits` — the same one bit of the message at a time.

## Main results

* `step_injective`, `feed_injective`, `feed_byte_injective` — nothing is lost.
* `feed_eq_table` — a byte by table lookup.
* `register_eq_serial` — bytes and bits leave the same register.
* `serial_injective` — no two messages of a few bits leave the same register.
* `register_ne_of_window`, `register_ne_of_set` — messages that differ in a few bytes, or in one,
  leave different registers.
-/

namespace Crc

variable {w : ℕ} (poly : BitVec w)

/-- One bit of the register. -/
def step (x : BitVec w) : BitVec w := if x.getLsbD 0 then poly ^^^ (x >>> 1) else x >>> 1

/-- The byte is added at the low end; then eight steps. -/
def feed (x : BitVec w) (byte : BitVec 8) : BitVec w := (step poly)^[8] (x ^^^ byte.setWidth w)

/-- The register after a message. -/
def register (x : BitVec w) (bytes : List (BitVec 8)) : BitVec w := bytes.foldl (feed poly) x

/-! ### A step is linear -/

theorem step_xor (x y : BitVec w) : step poly (x ^^^ y) = step poly x ^^^ step poly y := by
  unfold step
  rw [BitVec.getLsbD_xor, BitVec.ushiftRight_xor_distrib]
  cases hx : x.getLsbD 0 <;> cases hy : y.getLsbD 0 <;>
    simp only [Bool.bne_false, Bool.bne_true, Bool.not_false, Bool.not_true, if_true,
      Bool.false_eq_true, if_false]
  case true.true =>
    rw [BitVec.xor_comm poly (y >>> 1), BitVec.xor_comm poly, BitVec.xor_assoc,
      ← BitVec.xor_assoc poly, BitVec.xor_comm poly, BitVec.xor_assoc (y >>> 1), BitVec.xor_self,
      BitVec.xor_zero]
  case true.false => rw [BitVec.xor_assoc]
  case false.true => rw [← BitVec.xor_assoc, BitVec.xor_comm poly, BitVec.xor_assoc]

theorem steps_xor (n : ℕ) (x y : BitVec w) :
    (step poly)^[n] (x ^^^ y) = (step poly)^[n] x ^^^ (step poly)^[n] y := by
  induction n generalizing x y with
  | zero => rfl
  | succ n ih => rw [Function.iterate_succ_apply, step_xor, ih]; rfl

/-- As long as only zeros fall out, the register is only shifted. -/
theorem steps_of_low_zero {n : ℕ} {x : BitVec w} (h : ∀ i < n, x.getLsbD i = false) :
    (step poly)^[n] x = x >>> n := by
  induction n with
  | zero => simp
  | succ n ih =>
    rw [Function.iterate_succ_apply', ih fun i hi => h i (Nat.lt_succ_of_lt hi), step]
    have hlow : (x >>> n).getLsbD 0 = false := by
      rw [BitVec.getLsbD_ushiftRight]
      exact h n n.lt_succ_self
    rw [if_neg (by simp [hlow]), ← BitVec.shiftRight_add]

/-! ### Nothing is lost -/

section

variable {poly} (htop : poly.msb = true)

include htop

/-- The top bit of the register tells what fell out. -/
theorem msb_step (x : BitVec w) : (step poly x).msb = x.getLsbD 0 := by
  have hshift : (x >>> 1).msb = false := by simp [BitVec.msb_ushiftRight]
  unfold step
  split_ifs with h
  · rw [BitVec.msb_xor, htop, hshift, h]
    rfl
  · rw [hshift]
    simpa using h

theorem step_injective : Function.Injective (step poly) := by
  intro x y h
  have hlow : x.getLsbD 0 = y.getLsbD 0 := by rw [← msb_step htop, ← msb_step htop, h]
  have hshift : x >>> 1 = y >>> 1 := by
    unfold step at h
    rw [hlow] at h
    split_ifs at h with hbit
    · exact (BitVec.xor_right_inj _).mp h
    · exact h
  apply BitVec.eq_of_getLsbD_eq
  intro i hi
  cases i with
  | zero => exact hlow
  | succ i =>
    have hbit := congrArg (fun z : BitVec w => z.getLsbD i) hshift
    simpa only [BitVec.getLsbD_ushiftRight, Nat.add_comm 1 i] using hbit

theorem steps_injective (n : ℕ) : Function.Injective (step poly)^[n] :=
  (step_injective htop).iterate n

theorem feed_injective (byte : BitVec 8) : Function.Injective (feed poly · byte) := by
  intro x y h
  exact (BitVec.xor_left_inj _).mp (steps_injective htop 8 h)

theorem feed_byte_injective (hw : 8 ≤ w) (x : BitVec w) : Function.Injective (feed poly x) := by
  intro b c h
  have hbyte := (BitVec.xor_right_inj _).mp (steps_injective htop 8 h)
  have hback := congrArg (BitVec.setWidth 8) hbyte
  simpa [BitVec.setWidth_setWidth_of_le _ hw] using hback

theorem register_injective (bytes : List (BitVec 8)) :
    Function.Injective (register poly · bytes) := by
  induction bytes with
  | nil => exact Function.injective_id
  | cons byte bytes ih => exact ih.comp (feed_injective htop byte)

/-- A change to one byte of a message changes the register it leaves. -/
theorem register_ne_of_set (hw : 8 ≤ w) (x : BitVec w) {bytes : List (BitVec 8)} {k : ℕ}
    (hk : k < bytes.length) {byte : BitVec 8} (hne : byte ≠ bytes[k]) :
    register poly x (bytes.set k byte) ≠ register poly x bytes := by
  induction bytes generalizing x k with
  | nil => exact absurd hk (Nat.not_lt_zero _)
  | cons b bytes ih =>
    cases k with
    | zero =>
      intro h
      exact hne (feed_byte_injective htop hw x (register_injective htop bytes h))
    | succ k => exact ih _ (Nat.lt_of_succ_lt_succ hk) hne

end

/-! ### By table -/

/-- Eight steps at once: what the low byte leaves, added to the rest. -/
theorem steps_eq_table {n : ℕ} (x : BitVec w) :
    (step poly)^[n] x = (step poly)^[n] ((x.setWidth n).setWidth w) ^^^ (x >>> n) := by
  have hsplit : x = (x.setWidth n).setWidth w ^^^ (x ^^^ (x.setWidth n).setWidth w) := by
    rw [BitVec.xor_comm x, ← BitVec.xor_assoc, BitVec.xor_self, BitVec.zero_xor]
  have hhigh : ∀ i < n, (x ^^^ (x.setWidth n).setWidth w).getLsbD i = false := by
    intro i hi
    by_cases hiw : i < w
    · simp [hi, hiw]
    · rw [BitVec.getLsbD_of_ge _ _ (Nat.le_of_not_lt hiw)]
  have hlow : ((x.setWidth n).setWidth w) >>> n = 0#w := by
    apply BitVec.eq_of_getLsbD_eq
    intro i _
    simp [BitVec.getLsbD_setWidth]
  rw [show (step poly)^[n] x = (step poly)^[n] ((x.setWidth n).setWidth w ^^^
    (x ^^^ (x.setWidth n).setWidth w)) from congrArg _ hsplit, steps_xor,
      steps_of_low_zero poly hhigh, BitVec.ushiftRight_xor_distrib, hlow, BitVec.xor_zero]

/-- A byte by table lookup. -/
theorem feed_eq_table (x : BitVec w) (byte : BitVec 8) :
    feed poly x byte = (step poly)^[8] (((x ^^^ byte.setWidth w).setWidth 8).setWidth w)
      ^^^ (x >>> 8) := by
  have hbyte : byte.setWidth w >>> 8 = 0#w := by
    apply BitVec.eq_of_getLsbD_eq
    intro i _
    rw [BitVec.getLsbD_ushiftRight, BitVec.getLsbD_setWidth, BitVec.getLsbD_of_ge _ _ (by omega)]
    simp
  rw [feed, steps_eq_table, BitVec.ushiftRight_xor_distrib, hbyte, BitVec.xor_zero]

/-! ### Bit by bit -/

/-- One bit of a message: the polynomial is added when the bit and the one that falls out differ. -/
def shiftIn (x : BitVec w) (bit : Bool) : BitVec w :=
  if (x.getLsbD 0 ^^ bit) then poly ^^^ (x >>> 1) else x >>> 1

/-- The register after a message of bits. -/
def serial (x : BitVec w) (bits : List Bool) : BitVec w := bits.foldl (shiftIn poly) x

/-- The bits of a byte, the lowest first. -/
def bits (byte : BitVec 8) : List Bool := (List.range 8).map byte.getLsbD

theorem length_bits (byte : BitVec 8) : (bits byte).length = 8 := by
  rw [bits, List.length_map, List.length_range]

theorem bits_injective : Function.Injective bits := by
  intro b c h
  apply BitVec.eq_of_getLsbD_eq
  intro i hi
  exact List.map_inj_left.mp h i (List.mem_range.mpr hi)

theorem step_xor_eq_shiftIn (x y : BitVec w) :
    step poly (x ^^^ y) = shiftIn poly x (y.getLsbD 0) ^^^ (y >>> 1) := by
  unfold step shiftIn
  rw [BitVec.getLsbD_xor, BitVec.ushiftRight_xor_distrib]
  split_ifs
  · rw [BitVec.xor_assoc]
  · rfl

/-- To add a few bits at the low end and to step is to shift them in one at a time. -/
theorem steps_xor_eq_serial (n : ℕ) (x y : BitVec w) :
    (step poly)^[n] (x ^^^ y) = serial poly x ((List.range n).map y.getLsbD) ^^^ (y >>> n) := by
  induction n with
  | zero => simp [serial]
  | succ n ih =>
    have hbit : (y >>> n).getLsbD 0 = y.getLsbD n := by
      rw [BitVec.getLsbD_ushiftRight, Nat.add_zero]
    rw [Function.iterate_succ_apply', ih, step_xor_eq_shiftIn, hbit, ← BitVec.shiftRight_add,
      List.range_succ, List.map_append]
    unfold serial
    rw [List.foldl_append]
    rfl

theorem feed_eq_serial (hw : 8 ≤ w) (x : BitVec w) (byte : BitVec 8) :
    feed poly x byte = serial poly x (bits byte) := by
  have hhigh : byte.setWidth w >>> 8 = 0#w := by
    apply BitVec.eq_of_getLsbD_eq
    intro i _
    rw [BitVec.getLsbD_ushiftRight, BitVec.getLsbD_setWidth, BitVec.getLsbD_of_ge _ _ (by omega)]
    simp
  have hbits : (List.range 8).map (byte.setWidth w).getLsbD = bits byte := by
    apply List.map_congr_left
    intro i hi
    have hi := List.mem_range.mp hi
    rw [BitVec.getLsbD_setWidth, decide_eq_true (Nat.lt_of_lt_of_le hi hw), Bool.true_and]
  rw [feed, steps_xor_eq_serial, hhigh, BitVec.xor_zero, hbits]

/-- Bytes and bits leave the same register. -/
theorem register_eq_serial (hw : 8 ≤ w) (x : BitVec w) (bytes : List (BitVec 8)) :
    register poly x bytes = serial poly x (bytes.flatMap bits) := by
  induction bytes generalizing x with
  | nil => rfl
  | cons byte bytes ih =>
    have hcons : register poly x (byte :: bytes) = register poly (feed poly x byte) bytes := rfl
    rw [hcons, ih, feed_eq_serial poly hw, List.flatMap_cons]
    unfold serial
    rw [List.foldl_append]

/-! ### Bits as a register -/

/-- A few bits at the low end of a register. -/
def pack (w : ℕ) (l : List Bool) : BitVec w := (BitVec.ofBoolListLE l).setWidth w

theorem getLsbD_pack {l : List Bool} (hle : l.length ≤ w) {i : ℕ} (hi : i < l.length) :
    (pack w l).getLsbD i = l[i] := by
  rw [pack, BitVec.getLsbD_setWidth, decide_eq_true (Nat.lt_of_lt_of_le hi hle), Bool.true_and,
    BitVec.getLsbD_ofBoolListLE, List.getElem_eq_getD false]

theorem pack_shiftRight (l : List Bool) : pack w l >>> l.length = 0#w := by
  apply BitVec.eq_of_getLsbD_eq
  intro i _
  rw [pack, BitVec.getLsbD_ushiftRight, BitVec.getLsbD_setWidth,
    BitVec.getLsbD_of_ge _ _ (by omega)]
  simp

/-- A few bits can be added all at once before the steps. -/
theorem serial_eq_steps (x : BitVec w) {l : List Bool} (hle : l.length ≤ w) :
    serial poly x l = (step poly)^[l.length] (x ^^^ pack w l) := by
  have hbits : (List.range l.length).map (pack w l).getLsbD = l := by
    apply List.ext_getElem
    · rw [List.length_map, List.length_range]
    · intro i hi hil
      rw [List.getElem_map, List.getElem_range, getLsbD_pack hle hil]
  rw [steps_xor_eq_serial, pack_shiftRight, BitVec.xor_zero, hbits]

theorem length_flatMap_bits (bytes : List (BitVec 8)) :
    (bytes.flatMap bits).length = 8 * bytes.length := by
  induction bytes with
  | nil => rfl
  | cons byte bytes ih =>
    rw [List.flatMap_cons, List.length_append, length_bits, ih, List.length_cons]
    omega

theorem flatMap_bits_inj {l l' : List (BitVec 8)} (hlength : l.length = l'.length)
    (h : l.flatMap bits = l'.flatMap bits) : l = l' := by
  induction l generalizing l' with
  | nil => exact (List.length_eq_zero_iff.mp hlength.symm).symm
  | cons byte l ih =>
    cases l' with
    | nil => cases hlength
    | cons byte' l' =>
      rw [List.flatMap_cons, List.flatMap_cons] at h
      obtain ⟨hbyte, hrest⟩ := List.append_inj h ((length_bits _).trans (length_bits _).symm)
      rw [bits_injective hbyte, ih (Nat.succ.inj hlength) hrest]

/-! ### Bursts -/

section

variable {poly} (htop : poly.msb = true)

include htop

/-- No two messages of a few bits leave the same register. -/
theorem serial_injective {x : BitVec w} {l l' : List Bool} (hlength : l.length = l'.length)
    (hle : l.length ≤ w) (h : serial poly x l = serial poly x l') : l = l' := by
  have hle' : l'.length ≤ w := hlength ▸ hle
  rw [serial_eq_steps poly x hle, serial_eq_steps poly x hle', hlength] at h
  have hpack := (BitVec.xor_right_inj _).mp (steps_injective htop _ h)
  apply List.ext_getElem hlength
  intro i hi hi'
  rw [← getLsbD_pack hle hi, ← getLsbD_pack hle' hi', hpack]

/-- Messages that differ in as many consecutive bytes as the register has, or fewer, leave different
registers. -/
theorem register_ne_of_window (hw : 8 ≤ w) (x : BitVec w) {front l l' back : List (BitVec 8)}
    (hlength : l.length = l'.length) (hle : 8 * l.length ≤ w) (hne : l ≠ l') :
    register poly x (front ++ l ++ back) ≠ register poly x (front ++ l' ++ back) := by
  intro h
  unfold register at h
  rw [List.foldl_append, List.foldl_append, List.foldl_append, List.foldl_append] at h
  -- what follows the window loses nothing
  have hmiddle : register poly (front.foldl (feed poly) x) l =
      register poly (front.foldl (feed poly) x) l' := register_injective htop back h
  rw [register_eq_serial poly hw, register_eq_serial poly hw] at hmiddle
  refine hne (flatMap_bits_inj hlength (serial_injective htop ?_ ?_ hmiddle))
  · rw [length_flatMap_bits, length_flatMap_bits, hlength]
  · rw [length_flatMap_bits]
    exact hle

end

end Crc
