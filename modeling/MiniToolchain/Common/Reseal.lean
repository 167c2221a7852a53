import MiniToolchain.Common.Container

/-!
# Changing bytes of a file

A change to a file is noticed by its checksum unless the checksum is recomputed.

## Main definitions

* `Agree` — two buffers agree on a range of offsets.
* `reseal` — a buffer with the checksum of its contents.
* `Padding`, `Padding.SameContent` — the reserved bytes of a format, and buffers that differ in
  them.
* `Padding.Reader` — a reader that skips reserved bytes.

## Main results

* `load_drop_congr`, `headD_drop_congr` — what is read at an offset depends on the bytes there only.
* `checkContents_of_checksum` — a right checksum leaves the size check only.
* `Padding.Reader.canonical_iff` — when such a reader accepts canonical files only.
-/

namespace MiniTool
namespace Binary

open ByteOrder

/-- The buffers agree on the offsets from `lo` up to `hi`. -/
def Agree (b b' : List UInt8) (lo hi : ℕ) : Prop :=
  ∀ i, lo ≤ i → i < hi → b.getD i 0 = b'.getD i 0

/-- A part of what starts at `p`. -/
theorem agree_add {b b' : List UInt8} {p : ℕ} (lo hi : ℕ)
    (h : ∀ j, lo ≤ j → j < hi → b.getD (p + j) 0 = b'.getD (p + j) 0) :
    Agree b b' (p + lo) (p + hi) := by
  intro i hlo hhi
  obtain ⟨j, rfl⟩ := Nat.exists_eq_add_of_le (Nat.le_of_add_right_le hlo)
  exact h j (by omega) (by omega)

theorem Agree.mono {b b' : List UInt8} {lo hi lo' hi' : ℕ} (h : Agree b b' lo hi) (hlo : lo ≤ lo')
    (hhi : hi' ≤ hi) : Agree b b' lo' hi' :=
  fun i hl hh => h i (hlo.trans hl) (hh.trans_le hhi)

theorem getD_drop (b : List UInt8) (n i : ℕ) : (b.drop n).getD i 0 = b.getD (n + i) 0 := by
  rw [List.getD_eq_getElem?_getD, List.getD_eq_getElem?_getD, List.getElem?_drop]

theorem load_drop_congr {b b' : List UInt8} {n width : ℕ} (h : Agree b b' n (n + width)) :
    load width (b.drop n) = load width (b'.drop n) := by
  unfold load
  apply List.foldl_ext
  intro wide i hi
  rw [getD_drop, getD_drop, h (n + i) (by omega) (by have := List.mem_range.mp hi; omega)]

theorem headD_drop (b : List UInt8) (n : ℕ) : (b.drop n).headD 0 = b.getD n 0 := by
  rw [← Nat.add_zero n, ← getD_drop]
  cases b.drop (n + 0) <;> rfl

theorem headD_drop_congr {b b' : List UInt8} {n : ℕ} (h : Agree b b' n (n + 1)) :
    (b.drop n).headD 0 = (b'.drop n).headD 0 := by
  rw [headD_drop, headD_drop, h n (by omega) (by omega)]

theorem Agree.drop_eq {b b' : List UInt8} {n : ℕ} (h : Agree b b' n b.length)
    (hlen : b.length = b'.length) : b.drop n = b'.drop n := by
  apply List.ext_getElem (by simp [hlen])
  intro i hi hi'
  simp only [List.length_drop] at hi hi'
  have hi := h (n + i) (by omega) (by omega)
  rw [List.getD_eq_getElem _ _ (by omega), List.getD_eq_getElem _ _ (by omega)] at hi
  rw [List.getElem_drop, List.getElem_drop, hi]

theorem Agree.take_eq {b b' : List UInt8} {n : ℕ} (h : Agree b b' 0 n)
    (hlen : b.length = b'.length) : b.take n = b'.take n := by
  apply List.ext_getElem (by simp [hlen])
  intro i hi hi'
  simp only [List.length_take] at hi hi'
  have hi := h i (by omega) (by omega)
  rw [List.getD_eq_getElem _ _ (by omega), List.getD_eq_getElem _ _ (by omega)] at hi
  rw [List.getElem_take, List.getElem_take, hi]

theorem getD_set_self {b : List UInt8} {i : ℕ} (hi : i < b.length) (x : UInt8) :
    (b.set i x).getD i 0 = x := by
  rw [List.getD_eq_getElem _ _ (by simpa using hi), List.getElem_set_self]

theorem getD_set_of_ne {b : List UInt8} {i j : ℕ} (hij : i ≠ j) (x : UInt8) :
    (b.set i x).getD j 0 = b.getD j 0 := by
  rw [List.getD_eq_getElem?_getD, List.getElem?_set_ne hij, ← List.getD_eq_getElem?_getD]

/-! ### Resealing -/

/-- The buffer with the checksum of its contents in its header. -/
def reseal (b : List UInt8) : List UInt8 :=
  if b.length < kHeaderSize then b
  else b.take kChecksumField ++ (littleEndian 4 (crc32 (b.drop kHeaderSize)).toUInt64
    ++ b.drop kHeaderSize)

section

variable {b : List UInt8} (hlen : kHeaderSize ≤ b.length)

include hlen

theorem length_reseal : (reseal b).length = b.length := by
  have h60 : kChecksumField = 60 := rfl
  have h64 : kHeaderSize = 64 := rfl
  rw [reseal, if_neg (not_lt.mpr hlen)]
  simp only [List.length_append, List.length_take, length_littleEndian, List.length_drop]
  omega

theorem drop_reseal : (reseal b).drop kHeaderSize = b.drop kHeaderSize := by
  have h60 : kChecksumField = 60 := rfl
  have h64 : kHeaderSize = 64 := rfl
  rw [reseal, if_neg (not_lt.mpr hlen), ← List.append_assoc]
  exact List.drop_left'
    (by simp only [List.length_append, List.length_take, length_littleEndian]; omega)

theorem agree_reseal_head : Agree (reseal b) b 0 kChecksumField := by
  have h60 : kChecksumField = 60 := rfl
  have h64 : kHeaderSize = 64 := rfl
  intro i _ hi
  rw [reseal, if_neg (not_lt.mpr hlen), List.getD_append _ _ _ _
    (by simp only [List.length_take]; omega)]
  rw [List.getD_eq_getElem _ _ (by simp only [List.length_take]; omega),
    List.getD_eq_getElem _ _ (by omega), List.getElem_take]

theorem agree_reseal_body (n : ℕ) : Agree (reseal b) b kHeaderSize n := by
  intro i hlo _
  obtain ⟨j, rfl⟩ := Nat.exists_eq_add_of_le hlo
  rw [← getD_drop, ← getD_drop, drop_reseal hlen]

theorem load_checksum_reseal :
    (load 4 ((reseal b).drop kChecksumField)).toUInt32 = crc32 (b.drop kHeaderSize) := by
  have h60 : kChecksumField = 60 := rfl
  have h64 : kHeaderSize = 64 := rfl
  rw [reseal, if_neg (not_lt.mpr hlen), List.drop_left' (by simp only [List.length_take]; omega),
    load_u32]

end

/-- The checksum is that of the contents. -/
def Sealed (b : List UInt8) : Prop :=
  (load 4 (b.drop kChecksumField)).toUInt32 = crc32 (b.drop kHeaderSize)

theorem sealed_reseal {b : List UInt8} (hlen : kHeaderSize ≤ b.length) : Sealed (reseal b) := by
  unfold Sealed
  rw [load_checksum_reseal hlen, drop_reseal hlen]

/-- The size check is all that is left of the content checks if the checksum is right. -/
theorem checkContents_of_checksum (kind : String) {b : List UInt8} {trailer : Trailer}
    (htrailer : trailer.checksum = crc32 (b.drop kHeaderSize)) :
    checkContents kind b trailer = Checked.reject (trailer.fileSize.toNat ≠ b.length)
      s!"{kind} claims to be {trailer.fileSize} bytes but is {b.length}" := by
  rw [checkContents, Checked.reject]
  split_ifs with hsize
  · rfl
  · simp only [htrailer, ne_eq, not_true_eq_false, if_false]

/-- The checksum of a buffer that passes the content checks is right. -/
theorem checksum_of_checkContents {kind : String} {b : List UInt8} {trailer : Trailer}
    (h : checkContents kind b trailer = .ok ()) :
    trailer.checksum = crc32 (b.drop kHeaderSize) := by
  rw [checkContents] at h
  split_ifs at h with hsize
  simp only [] at h
  split_ifs at h with hsum
  exact (not_not.mp hsum).symm

/-- A buffer that passes the content checks is below 4 GiB. -/
theorem length_lt_of_checkContents {kind : String} {b : List UInt8} {trailer : Trailer}
    (h : checkContents kind b trailer = .ok ()) : b.length < 2 ^ 32 := by
  have hlt := trailer.fileSize.toNat_lt
  rw [checkContents] at h
  split_ifs at h with hsize
  rw [← not_not.mp hsize]
  exact hlt

/-! ### Reserved bytes -/

/-- The offsets that a format reserves in a file: none in the header, which says where they are. -/
structure Padding where
  Reserved : List UInt8 → ℕ → Prop
  not_header : ∀ {b i}, i < kHeaderSize → ¬Reserved b i
  of_agree : ∀ {b b' i}, Agree b b' 0 kChecksumField → Reserved b i → Reserved b' i

namespace Padding

/-- The buffers differ in reserved bytes and in the checksum only. -/
structure SameContent (p : Padding) (b b' : List UInt8) : Prop where
  length : b.length = b'.length
  bytes : ∀ i, ¬p.Reserved b i → i < kChecksumField ∨ kHeaderSize ≤ i → b.getD i 0 = b'.getD i 0

namespace SameContent

variable {p : Padding} {b b' c : List UInt8}

theorem agree_head (h : p.SameContent b b') : Agree b b' 0 kChecksumField := fun i _ hi =>
  h.bytes i (p.not_header (hi.trans (by decide))) (Or.inl hi)

/-- The same bytes are reserved. -/
theorem reserved_iff (h : p.SameContent b b') {i : ℕ} : p.Reserved b i ↔ p.Reserved b' i :=
  ⟨p.of_agree h.agree_head, p.of_agree fun i hlo hhi => (h.agree_head i hlo hhi).symm⟩

theorem symm (h : p.SameContent b b') : p.SameContent b' b where
  length := h.length.symm
  bytes i hi hat := (h.bytes i (fun hres => hi (h.reserved_iff.mp hres)) hat).symm

theorem trans (h : p.SameContent b b') (h' : p.SameContent b' c) : p.SameContent b c where
  length := h.length.trans h'.length
  bytes i hi hat :=
    (h.bytes i hi hat).trans (h'.bytes i (fun hres => hi (h.reserved_iff.mpr hres)) hat)

theorem reseal (p : Padding) (hlen : kHeaderSize ≤ b.length) : p.SameContent b (reseal b) where
  length := (length_reseal hlen).symm
  bytes i _ hi := by
    rcases hi with hi | hi
    · exact (agree_reseal_head hlen i (Nat.zero_le _) hi).symm
    · exact (agree_reseal_body hlen (i + 1) i hi (Nat.lt_succ_self i)).symm

theorem set {i : ℕ} (hi : p.Reserved b i) (v : UInt8) : p.SameContent b (b.set i v) where
  length := List.length_set.symm
  bytes j hj _ := by
    refine (getD_set_of_ne ?_ v).symm
    rintro rfl
    exact hj hi

end SameContent

/-- A reader that skips what is reserved, and does not accept a wrong checksum. -/
structure Reader (p : Padding) {ε α : Type} (read : List UInt8 → Except ε α) : Prop where
  congr : ∀ {b b'}, p.SameContent b b' → kHeaderSize ≤ b.length → Sealed b → Sealed b' →
    read b = read b'
  header : ∀ {b x}, read b = .ok x → kHeaderSize ≤ b.length
  checksum : ∀ {b x}, read b = .ok x → Sealed b

namespace Reader

variable {p : Padding} {ε α : Type} {read : List UInt8 → Except ε α} (h : p.Reader read)
  {b b' : List UInt8}
include h

/-- The reader does not depend on reserved bytes. -/
theorem reseal_congr (hsame : p.SameContent b b') (hlen : kHeaderSize ≤ b.length) :
    read (reseal b) = read (reseal b') := by
  have hlen' : kHeaderSize ≤ b'.length := hlen.trans_eq hsame.length
  have hreseal := ((SameContent.reseal p hlen).symm.trans hsame).trans (SameContent.reseal p hlen')
  exact h.congr hreseal (hlen.trans_eq (length_reseal hlen).symm) (sealed_reseal hlen)
    (sealed_reseal hlen')

/-- Resealing an accepted buffer does not change what is read from it. -/
theorem reseal_of_read {x : α} (hread : read b = .ok x) : read (reseal b) = .ok x := by
  have hlen := h.header hread
  rw [← hread]
  exact (h.congr (SameContent.reseal p hlen) hlen (h.checksum hread) (sealed_reseal hlen)).symm

/-- **Whatever its reserved bytes are, an accepted file is canonical exactly when it has no record
with a reserved byte**, where what is canonical has zeros for reserved bytes. -/
theorem canonical_iff {Canonical HasRecords : List UInt8 → Prop}
    (hzero : ∀ {b}, Canonical b → ∀ i < b.length, p.Reserved b i → b.getD i 0 = 0)
    (hnone : ∀ {b}, ¬HasRecords b → Canonical b)
    (hsame : ∀ {b b'}, p.SameContent b b' → HasRecords b' → HasRecords b)
    (hreserved : ∀ {b x}, read b = .ok x → HasRecords b →
      ∃ i, p.Reserved b i ∧ kHeaderSize ≤ i ∧ i < b.length) (b : List UInt8) :
    (∀ b' x, p.SameContent b b' → read b' = .ok x → Canonical b') ↔
      (∀ x, read (reseal b) ≠ .ok x) ∨ ¬HasRecords b := by
  constructor
  · intro hcanonical
    by_contra hnot
    obtain ⟨haccepted, hrecords⟩ := not_or.mp hnot
    obtain ⟨x, hx⟩ := not_forall_not.mp haccepted
    have hlen : kHeaderSize ≤ b.length := by
      by_contra hshort
      have hheader := h.header hx
      rw [Binary.reseal, if_pos (not_le.mp hshort)] at hheader
      exact hshort hheader
    have hseal := SameContent.reseal p hlen
    obtain ⟨i, hi, hheader, hlt⟩ := hreserved hx (hsame hseal.symm (not_not.mp hrecords))
    replace hi := hseal.reserved_iff.mpr hi
    rw [length_reseal hlen] at hlt
    -- set that byte to one and recompute the checksum
    have hset := SameContent.set hi 1
    have hlen' : kHeaderSize ≤ (b.set i 1).length := by rwa [List.length_set]
    have hstray := hset.trans (SameContent.reseal p hlen')
    have hread : read (reseal (b.set i 1)) = .ok x := by rw [← h.reseal_congr hset hlen, hx]
    have hbyte := hzero (hcanonical _ x hstray hread) i
      (by rwa [length_reseal hlen', List.length_set]) (hstray.reserved_iff.mp hi)
    rw [agree_reseal_body hlen' (i + 1) i hheader (Nat.lt_succ_self i), getD_set_self hlt] at hbyte
    exact absurd hbyte (by decide)
  · rintro (hrejected | hrecords) b' x hsame' hread
    · have hlen := (h.header hread).trans_eq hsame'.length.symm
      refine absurd (h.reseal_of_read hread) ?_
      rw [← h.reseal_congr hsame' hlen]
      exact hrejected x
    · exact hnone fun hrecords' => hrecords (hsame hsame' hrecords')

end Reader

end Padding

end Binary
end MiniTool
