import Mathlib.Data.List.Basic
import Mathlib.Tactic.SplitIfs

/-!
# Well-formed UTF-8

UTF-8 as the encoding of Unicode scalar values, the table of byte ranges that describes it, and the
repair of bytes that are not text: whatever is no part of a well-formed sequence is replaced.

## Main definitions

* `IsChar`, `WellFormed` — the encoding of a scalar value, and of a sequence of them.
* `InTable` — the ranges of the bytes of an encoding.
* `Kept` — a position within a well-formed sequence.
* `repaired` — the bytes with U+FFFD for each that is not kept.

## Main results

* `isChar_iff` — the table is right.
* `eq_of_append` — no encoding is the beginning of another.
* `repaired_append`, `repaired_cons` — repair from left to right.
-/

namespace Utf8

/-- The encoding of a Unicode scalar value. -/
def IsChar (bytes : List UInt8) : Prop := ∃ c : Char, String.utf8EncodeChar c = bytes

/-- The encoding of a sequence of scalar values. -/
def WellFormed (bytes : List UInt8) : Prop :=
  ∃ characters : List Char, characters.flatMap String.utf8EncodeChar = bytes

/-- A byte that goes on with an encoding. -/
def Tail (byte : UInt8) : Prop := 0x80 ≤ byte.toNat ∧ byte.toNat ≤ 0xBF

/-- The encodings by the ranges of their bytes. -/
def InTable : List UInt8 → Prop
  | [a] => a.toNat < 0x80
  | [a, b] => 0xC2 ≤ a.toNat ∧ a.toNat ≤ 0xDF ∧ Tail b
  | [a, b, c] => 0xE0 ≤ a.toNat ∧ a.toNat ≤ 0xEF ∧ Tail b ∧ Tail c ∧
      -- neither an overlong form nor a surrogate
      (a.toNat = 0xE0 → 0xA0 ≤ b.toNat) ∧ (a.toNat = 0xED → b.toNat ≤ 0x9F)
  | [a, b, c, d] => 0xF0 ≤ a.toNat ∧ a.toNat ≤ 0xF4 ∧ Tail b ∧ Tail c ∧ Tail d ∧
      -- neither an overlong form nor above U+10FFFF
      (a.toNat = 0xF0 → 0x90 ≤ b.toNat) ∧ (a.toNat = 0xF4 → b.toNat ≤ 0x8F)
  | _ => False

/-! ### The table -/

theorem toNat_ofNat_of_lt {n : ℕ} (h : n < 256) : (UInt8.ofNat n).toNat = n := by
  rw [UInt8.toNat_ofNat']
  exact Nat.mod_eq_of_lt h

theorem inTable_of_isChar {bytes : List UInt8} (h : IsChar bytes) : InTable bytes := by
  obtain ⟨c, rfl⟩ := h
  have hvalid : c.val.toNat < 0xD800 ∨ 0xDFFF < c.val.toNat ∧ c.val.toNat < 0x110000 := c.valid
  unfold String.utf8EncodeChar
  generalize c.val.toNat = v at hvalid ⊢
  dsimp only
  split_ifs with hone htwo hthree
  · unfold InTable
    dsimp only
    rw [toNat_ofNat_of_lt (by omega)]
    omega
  · unfold InTable Tail
    dsimp only
    rw [toNat_ofNat_of_lt (by omega), toNat_ofNat_of_lt (by omega)]
    omega
  · unfold InTable Tail
    dsimp only
    rw [toNat_ofNat_of_lt (by omega), toNat_ofNat_of_lt (by omega), toNat_ofNat_of_lt (by omega)]
    omega
  · unfold InTable Tail
    dsimp only
    rw [toNat_ofNat_of_lt (by omega), toNat_ofNat_of_lt (by omega), toNat_ofNat_of_lt (by omega),
      toNat_ofNat_of_lt (by omega)]
    omega

/-- The encoding of the scalar value `v`. -/
theorem isChar_of_value {v : ℕ} (hvalid : v < 0xD800 ∨ 0xDFFF < v ∧ v < 0x110000)
    {bytes : List UInt8} (hbytes : bytes.map UInt8.toNat =
      if v ≤ 0x7F then [v]
      else if v ≤ 0x7FF then [v / 64 % 0x20 + 0xC0, v % 0x40 + 0x80]
      else if v ≤ 0xFFFF then [v / 4096 % 0x10 + 0xE0, v / 64 % 0x40 + 0x80, v % 0x40 + 0x80]
      else [v / 262144 % 0x08 + 0xF0, v / 4096 % 0x40 + 0x80, v / 64 % 0x40 + 0x80,
        v % 0x40 + 0x80]) : IsChar bytes := by
  refine ⟨Char.ofNatAux v hvalid, ?_⟩
  have hvalue : (Char.ofNatAux v hvalid).val.toNat = v := rfl
  have hback : bytes = (bytes.map UInt8.toNat).map UInt8.ofNat := by
    rw [List.map_map]
    conv_lhs => rw [← List.map_id bytes]
    exact List.map_congr_left fun b _ => (UInt8.ofNat_toNat).symm
  unfold String.utf8EncodeChar
  rw [hvalue, hback, hbytes]
  dsimp only
  split_ifs <;> rfl

theorem isChar_of_inTable {bytes : List UInt8} (h : InTable bytes) : IsChar bytes := by
  unfold InTable Tail at h
  split at h
  · next a =>
    refine isChar_of_value (v := a.toNat) (by omega) ?_
    rw [if_pos (by omega)]
    rfl
  · next a b =>
    refine isChar_of_value (v := (a.toNat - 0xC0) * 64 + (b.toNat - 0x80)) (by omega) ?_
    rw [if_neg (by omega), if_pos (by omega)]
    simp only [List.map_cons, List.map_nil, List.cons.injEq, and_true]
    omega
  · next a b c =>
    refine isChar_of_value
      (v := (a.toNat - 0xE0) * 4096 + (b.toNat - 0x80) * 64 + (c.toNat - 0x80)) (by omega) ?_
    rw [if_neg (by omega), if_neg (by omega), if_pos (by omega)]
    simp only [List.map_cons, List.map_nil, List.cons.injEq, and_true]
    omega
  · next a b c d =>
    refine isChar_of_value (v := (a.toNat - 0xF0) * 262144 + (b.toNat - 0x80) * 4096 +
      (c.toNat - 0x80) * 64 + (d.toNat - 0x80)) (by omega) ?_
    rw [if_neg (by omega), if_neg (by omega), if_neg (by omega)]
    simp only [List.map_cons, List.map_nil, List.cons.injEq, and_true]
    omega
  · exact h.elim

/-- The encodings of the scalar values are those in the table. -/
theorem isChar_iff {bytes : List UInt8} : IsChar bytes ↔ InTable bytes :=
  ⟨inTable_of_isChar, isChar_of_inTable⟩

theorem isChar_singleton {byte : UInt8} : IsChar [byte] ↔ byte.toNat < 0x80 := isChar_iff

/-! ### The bytes of an encoding -/

theorem IsChar.ne_nil {bytes : List UInt8} (h : IsChar bytes) : bytes ≠ [] := by
  rintro rfl
  exact isChar_iff.mp h

/-- The first byte of an encoding tells how long it is. -/
def lengthOf (first : UInt8) : ℕ :=
  if first.toNat < 0x80 then 1
  else if first.toNat < 0xE0 then 2
  else if first.toNat < 0xF0 then 3
  else 4

theorem length_of_isChar {first : UInt8} {rest : List UInt8} (h : IsChar (first :: rest)) :
    (first :: rest).length = lengthOf first := by
  have htable := isChar_iff.mp h
  unfold lengthOf
  unfold InTable at htable
  rcases rest with _ | ⟨b, _ | ⟨c, _ | ⟨d, _ | ⟨e, rest⟩⟩⟩⟩
  · rw [if_pos htable]
    rfl
  · rw [if_neg (by omega), if_pos (by omega)]
    rfl
  · rw [if_neg (by omega), if_neg (by omega), if_pos (by omega)]
    rfl
  · rw [if_neg (by omega), if_neg (by omega), if_neg (by omega)]
    rfl
  · exact htable.elim

/-- Only the first byte of an encoding can be the first of one. -/
theorem tail_of_isChar {first : UInt8} {rest : List UInt8} (h : IsChar (first :: rest)) :
    ¬Tail first ∧ ∀ byte ∈ rest, Tail byte := by
  have htable := isChar_iff.mp h
  unfold InTable at htable
  rcases rest with _ | ⟨b, _ | ⟨c, _ | ⟨d, _ | ⟨e, rest⟩⟩⟩⟩
  · refine ⟨fun htail => ?_, fun _ hmem => absurd hmem List.not_mem_nil⟩
    have hlow := htail.1
    dsimp only at htable
    omega
  · obtain ⟨hlow, -, hb⟩ := htable
    refine ⟨fun htail => ?_, ?_⟩
    · have hhigh := htail.2
      omega
    · simpa using hb
  · obtain ⟨hlow, -, hb, hc, -⟩ := htable
    refine ⟨fun htail => ?_, ?_⟩
    · have hhigh := htail.2
      omega
    · simpa using ⟨hb, hc⟩
  · obtain ⟨hlow, -, hb, hc, hd, -⟩ := htable
    refine ⟨fun htail => ?_, ?_⟩
    · have hhigh := htail.2
      omega
    · simpa using ⟨hb, hc, hd⟩
  · exact htable.elim

/-- No encoding is the beginning of another. -/
theorem eq_of_append {bytes bytes' rest rest' : List UInt8} (h : IsChar bytes) (h' : IsChar bytes')
    (happend : bytes ++ rest = bytes' ++ rest') : bytes = bytes' := by
  obtain ⟨first, tail, rfl⟩ := List.exists_cons_of_ne_nil h.ne_nil
  obtain ⟨first', tail', rfl⟩ := List.exists_cons_of_ne_nil h'.ne_nil
  have hfirst : first = first' := (List.cons.inj happend).1
  have hlength : (first :: tail).length = (first' :: tail').length := by
    rw [length_of_isChar h, length_of_isChar h', hfirst]
  exact (List.append_inj happend hlength).1

/-! ### Sequences of encodings -/

theorem WellFormed.nil : WellFormed [] := ⟨[], rfl⟩

theorem IsChar.wellFormed {bytes : List UInt8} (h : IsChar bytes) : WellFormed bytes := by
  obtain ⟨c, rfl⟩ := h
  exact ⟨[c], List.flatMap_singleton _ c⟩

theorem WellFormed.append {bytes bytes' : List UInt8} (h : WellFormed bytes)
    (h' : WellFormed bytes') : WellFormed (bytes ++ bytes') := by
  obtain ⟨characters, rfl⟩ := h
  obtain ⟨characters', rfl⟩ := h'
  exact ⟨characters ++ characters', List.flatMap_append⟩

/-- A sequence of encodings is built from the left. -/
theorem WellFormed.induction {motive : List UInt8 → Prop} (hnil : motive [])
    (hcons : ∀ bytes rest, IsChar bytes → WellFormed rest → motive rest → motive (bytes ++ rest))
    {bytes : List UInt8} (h : WellFormed bytes) : motive bytes := by
  obtain ⟨characters, rfl⟩ := h
  induction characters with
  | nil => exact hnil
  | cons c characters ih =>
    rw [List.flatMap_cons]
    exact hcons _ _ ⟨c, rfl⟩ ⟨characters, rfl⟩ ih

/-! ### Repair -/

/-- The position is within a well-formed sequence of bytes. -/
def Kept (bytes : List UInt8) (position : ℕ) : Prop :=
  ∃ before sequence after, bytes = before ++ sequence ++ after ∧ WellFormed sequence ∧
    before.length ≤ position ∧ position < before.length + sequence.length

/-- The encoding of U+FFFD. -/
def replacement : List UInt8 := [0xEF, 0xBF, 0xBD]

open Classical in
/-- Bytes that are not within a well-formed sequence are replaced by U+FFFD. -/
noncomputable def repaired (bytes : List UInt8) : List UInt8 :=
  (bytes.mapIdx fun position byte => if Kept bytes position then [byte] else replacement).flatten

/-- A single encoding is enough. -/
theorem kept_iff {bytes : List UInt8} {position : ℕ} : Kept bytes position ↔
    ∃ before char after, bytes = before ++ char ++ after ∧ IsChar char ∧
      before.length ≤ position ∧ position < before.length + char.length := by
  constructor
  · rintro ⟨before, sequence, after, hbytes, hsequence, hlow, hhigh⟩
    -- one of the encodings of the sequence
    obtain ⟨characters, rfl⟩ := hsequence
    induction characters generalizing before with
    | nil =>
      rw [List.flatMap_nil, List.length_nil] at hhigh
      omega
    | cons c characters ih =>
      rw [List.flatMap_cons] at hbytes hhigh
      rw [List.length_append] at hhigh
      rcases Nat.lt_or_ge position (before.length + (String.utf8EncodeChar c).length) with hlt | hge
      · exact ⟨before, String.utf8EncodeChar c, characters.flatMap String.utf8EncodeChar ++ after,
          by simpa using hbytes, ⟨c, rfl⟩, hlow, hlt⟩
      · refine ih (before ++ String.utf8EncodeChar c) ?_ (by simpa using hbytes) ?_
        · rw [List.length_append]
          exact hge
        · rw [List.length_append]
          omega
  · rintro ⟨before, char, after, hbytes, hchar, hlow, hhigh⟩
    exact ⟨before, char, after, hbytes, hchar.wellFormed, hlow, hhigh⟩

theorem kept_of_isChar {char rest : List UInt8} (h : IsChar char) {position : ℕ}
    (hposition : position < char.length) : Kept (char ++ rest) position :=
  ⟨[], char, rest, rfl, h.wellFormed, Nat.zero_le _, by simpa using hposition⟩

/-- What is kept behind an encoding is kept without it. -/
theorem kept_append {char rest : List UInt8} (h : IsChar char) {position : ℕ} :
    Kept (char ++ rest) (position + char.length) ↔ Kept rest position := by
  rw [kept_iff, kept_iff]
  constructor
  · rintro ⟨before, char', after, hbytes, hchar', hlow, hhigh⟩
    rw [List.append_assoc] at hbytes
    rcases Nat.lt_or_ge before.length char.length with hlt | hge
    · exfalso
      -- an encoding that begins within `char` is `char`
      obtain ⟨inner, hinner⟩ : ∃ inner, char = before ++ inner := by
        refine ⟨char.drop before.length, ?_⟩
        have hprefix : before <+: char :=
          List.prefix_of_prefix_length_le ⟨_, hbytes.symm⟩ (List.prefix_append char rest)
            (Nat.le_of_lt hlt)
        obtain ⟨inner, rfl⟩ := hprefix
        simp
      rw [hinner, List.append_assoc, List.append_cancel_left_eq] at hbytes
      cases before with
      | nil =>
        rw [List.nil_append] at hinner
        rw [← hinner] at hbytes
        have hsame := eq_of_append h hchar' hbytes
        rw [← hsame, List.length_nil] at hhigh
        omega
      | cons first before =>
        rw [hinner] at h hlt
        obtain ⟨byte, inner, rfl⟩ := List.exists_cons_of_ne_nil (l := inner) (by
          rintro rfl
          simp at hlt)
        obtain ⟨byte', tail, rfl⟩ := List.exists_cons_of_ne_nil hchar'.ne_nil
        have hbyte : byte = byte' := (List.cons.inj hbytes).1
        refine (tail_of_isChar hchar').1 ?_
        rw [← hbyte]
        exact (tail_of_isChar h).2 byte (List.mem_append_right _ List.mem_cons_self)
    · obtain ⟨between, rfl⟩ : char <+: before :=
        List.prefix_of_prefix_length_le (List.prefix_append char rest) ⟨_, hbytes.symm⟩ hge
      rw [List.append_assoc, List.append_cancel_left_eq] at hbytes
      rw [List.length_append] at hlow hhigh
      refine ⟨between, char', after, ?_, hchar', by omega, by omega⟩
      rw [hbytes, List.append_assoc]
  · rintro ⟨before, char', after, rfl, hchar', hlow, hhigh⟩
    refine ⟨char ++ before, char', after, by simp, hchar', ?_, ?_⟩
    · rw [List.length_append]
      omega
    · rw [List.length_append]
      omega

/-- No encoding begins here. -/
def Stuck (bytes : List UInt8) : Prop := ∀ char rest, bytes = char ++ rest → ¬IsChar char

theorem not_kept_zero {bytes : List UInt8} (h : Stuck bytes) : ¬Kept bytes 0 := by
  rw [kept_iff]
  rintro ⟨before, char, after, hbytes, hchar, hlow, -⟩
  obtain rfl := List.length_eq_zero_iff.mp (Nat.le_zero.mp hlow)
  exact h char after hbytes hchar

theorem kept_cons {byte : UInt8} {rest : List UInt8} (h : Stuck (byte :: rest)) {position : ℕ} :
    Kept (byte :: rest) (position + 1) ↔ Kept rest position := by
  rw [kept_iff, kept_iff]
  constructor
  · rintro ⟨before, char, after, hbytes, hchar, hlow, hhigh⟩
    cases before with
    | nil => exact absurd hchar (h char after hbytes)
    | cons first before =>
      rw [List.length_cons] at hlow hhigh
      exact ⟨before, char, after, (List.cons.inj hbytes).2, hchar, by omega, by omega⟩
  · rintro ⟨before, char, after, rfl, hchar, hlow, hhigh⟩
    refine ⟨byte :: before, char, after, rfl, hchar, ?_, ?_⟩
    · rw [List.length_cons]
      omega
    · rw [List.length_cons]
      omega

theorem repaired_nil : repaired [] = [] := rfl

/-- An encoding at the front is kept. -/
theorem repaired_append {char : List UInt8} (h : IsChar char) (rest : List UInt8) :
    repaired (char ++ rest) = char ++ repaired rest := by
  classical
  unfold repaired
  rw [List.mapIdx_append, List.flatten_append]
  congr 1
  · have hfront : (char.mapIdx fun position byte =>
        if Kept (char ++ rest) position then [byte] else replacement) =
            char.map fun byte => [byte] := by
      refine List.ext_getElem (by simp) fun position hposition _ => ?_
      rw [List.length_mapIdx] at hposition
      rw [List.getElem_mapIdx, List.getElem_map, if_pos (kept_of_isChar h hposition)]
    rw [hfront, ← List.flatMap_def, List.flatMap_singleton']
  · congr 1
    refine List.mapIdx_eq_mapIdx_iff.mpr fun position hposition => ?_
    rw [if_congr (kept_append h) rfl rfl]

/-- A byte at which no encoding begins, and which is part of none before it, is replaced. -/
theorem repaired_cons {byte : UInt8} {rest : List UInt8} (h : Stuck (byte :: rest)) :
    repaired (byte :: rest) = replacement ++ repaired rest := by
  classical
  unfold repaired
  rw [List.mapIdx_cons, List.flatten_cons, if_neg (not_kept_zero h)]
  congr 2
  refine List.mapIdx_eq_mapIdx_iff.mpr fun position hposition => ?_
  rw [if_congr (kept_cons h) rfl rfl]

/-- Text needs no repair. -/
theorem repaired_of_wellFormed {bytes : List UInt8} (h : WellFormed bytes) :
    repaired bytes = bytes := by
  refine WellFormed.induction (motive := fun bytes => repaired bytes = bytes) repaired_nil ?_ h
  intro char rest hchar _ ih
  rw [repaired_append hchar, ih]

end Utf8
