import MiniToolchain.Common.Reseal

/-!
# Changing one byte of a file

Both readers check the second half of the header against the length of the file, the end of the
record tables and the checksum.  A file that passes stops passing when one byte after the first half
of its header is changed.

## Main definitions

* `trailerAt` — the trailer of a buffer.
* `Trailer.Fits` — the trailer agrees with the buffer and the end of its tables.

## Main results

* `fits_of_checks`, `fits_file` — the readers check it, and the writers produce it.
* `getElem_eq_of_load`, `load_set` — a field determines its bytes, and depends on nothing else.
* `eq_of_fits` — only one value of a byte fits.
-/

namespace MiniTool
namespace Binary

open ByteOrder

/-! ### Fields and bytes -/

/-- A field does not depend on a byte outside of it. -/
theorem load_set {b : List UInt8} {k n width : ℕ} (v : UInt8) (hk : k < n ∨ n + width ≤ k) :
    load width ((b.set k v).drop n) = load width (b.drop n) := by
  apply load_drop_congr
  intro i hlo hhi
  exact getD_set_of_ne (by omega) v

/-- A field determines its bytes. -/
theorem getElem_eq_of_load {b : List UInt8} {k n width : ℕ} {v : UInt8} (hk : n ≤ k ∧ k < n + width)
    (hwidth : width ≤ 8) (hlen : n + width ≤ b.length)
    (h : load width ((b.set k v).drop n) = load width (b.drop n)) :
    ∀ hb : k < b.length, v = b[k] := by
  intro hb
  have hbytes : ((b.set k v).drop n).take width = (b.drop n).take width := by
    rw [← littleEndian_load hwidth (by simp only [List.length_drop, List.length_set]; omega), h,
      littleEndian_load hwidth (by simp only [List.length_drop]; omega)]
  have hbyte := congrArg (fun bytes => bytes[k - n]?) hbytes
  simp only [List.getElem?_take, List.getElem?_drop, show n + (k - n) = k by omega,
    if_pos (show k - n < width by omega), List.getElem?_set_self hb, List.getElem?_eq_getElem hb,
    Option.some.injEq] at hbyte
  exact hbyte

theorem load_of_toUInt32 {xs ys : List UInt8} (hxs : 4 ≤ xs.length) (hys : 4 ≤ ys.length)
    (h : (load 4 xs).toUInt32 = (load 4 ys).toUInt32) : load 4 xs = load 4 ys := by
  have hx := load_lt (by omega) hxs
  have hy := load_lt (by omega) hys
  rw [← UInt32.toNat_inj, UInt64.toNat_toUInt32, UInt64.toNat_toUInt32] at h
  rw [← UInt64.toNat_inj]
  omega

theorem load_of_toUInt16 {xs ys : List UInt8} (hxs : 2 ≤ xs.length) (hys : 2 ≤ ys.length)
    (h : (load 2 xs).toUInt16 = (load 2 ys).toUInt16) : load 2 xs = load 2 ys := by
  have hx := load_lt (by omega) hxs
  have hy := load_lt (by omega) hys
  rw [← UInt16.toNat_inj, UInt64.toNat_toUInt16, UInt64.toNat_toUInt16] at h
  rw [← UInt64.toNat_inj]
  omega

section

variable {b : List UInt8} {k n : ℕ} {v : UInt8}

/-- A field of eight bytes that is the same after the change. -/
theorem eq_of_word (hk : n ≤ k ∧ k < n + 8) (hlen : n + 8 ≤ b.length)
    (h : load 8 ((b.set k v).drop n) = load 8 (b.drop n)) (hb : k < b.length) : v = b[k] :=
  getElem_eq_of_load hk (by omega) hlen h hb

/-- A field of four bytes that is the same after the change. -/
theorem eq_of_dword (hk : n ≤ k ∧ k < n + 4) (hlen : n + 4 ≤ b.length)
    (h : (load 4 ((b.set k v).drop n)).toUInt32 = (load 4 (b.drop n)).toUInt32)
    (hb : k < b.length) : v = b[k] := by
  refine getElem_eq_of_load hk (by omega) hlen (load_of_toUInt32 ?_ ?_ h) hb
  · simp only [List.length_drop, List.length_set]
    omega
  · simp only [List.length_drop]
    omega

/-- A field of two bytes that is the same after the change. -/
theorem eq_of_half (hk : n ≤ k ∧ k < n + 2) (hlen : n + 2 ≤ b.length)
    (h : (load 2 ((b.set k v).drop n)).toUInt16 = (load 2 (b.drop n)).toUInt16)
    (hb : k < b.length) : v = b[k] := by
  refine getElem_eq_of_load hk (by omega) hlen (load_of_toUInt16 ?_ ?_ h) hb
  · simp only [List.length_drop, List.length_set]
    omega
  · simp only [List.length_drop]
    omega

end

/-! ### Trailers that fit -/

/-- The trailer of a buffer. -/
def trailerAt (b : List UInt8) : Trailer := Trailer.ofBytes (b.drop 32)

/-- The trailer agrees with the buffer and with the end of its tables. -/
structure Trailer.Fits (trailer : Trailer) (b : List UInt8) (tablesEnd : ℕ) : Prop where
  fileSize : trailer.fileSize.toNat = b.length
  checksum : trailer.checksum = crc32 (b.drop kHeaderSize)
  stringOffset : trailer.stringOffset.toNat = tablesEnd
  blobOffset : trailer.blobOffset = trailer.stringOffset + trailer.stringSize

/-- What the checks of a reader say of the trailer. -/
theorem fits_of_checks {kind : String} {b : List UInt8} {trailer : Trailer} {tablesEnd : ℕ}
    {regions : List UInt8 × List UInt8} (hcheck : checkContents kind b trailer = .ok ())
    (hextents : extents kind b trailer tablesEnd = .ok regions) : trailer.Fits b tablesEnd := by
  have hsum := checksum_of_checkContents hcheck
  unfold checkContents at hcheck
  unfold extents at hextents
  split_ifs at hcheck with hsize
  split_ifs at hextents with hlayout
  simp only [not_or, not_not] at hlayout hsize
  exact ⟨hsize, hsum, hlayout.2.1, hlayout.2.2.2.1⟩

/-- The trailer of a written file fits. -/
theorem fits_file {head tables strings blob : List UInt8} (hhead : head.length = 32)
    (hsize : kHeaderSize + tables.length + strings.length + blob.length < 2 ^ 32) :
    (Trailer.of tables strings blob).Fits (file head tables strings blob)
      (kHeaderSize + tables.length) :=
  fits_of_checks (checkContents_file "" hhead hsize) (extents_file "" hhead hsize)

section

variable {b : List UInt8} {k : ℕ} {v : UInt8} {tablesEnd : ℕ}

/-- A byte of the first half of the header is not part of the trailer. -/
theorem trailerAt_set (hk : k < 32) : trailerAt (b.set k v) = trailerAt b := by
  unfold trailerAt Trailer.ofBytes
  simp only [List.drop_drop]
  rw [load_set v (by omega), load_set v (by omega), load_set v (by omega), load_set v (by omega),
    load_set v (by omega)]

/-- Only one value of a byte after the first half of the header fits. -/
theorem eq_of_fits (hlen : kHeaderSize ≤ b.length) (hk : 32 ≤ k) (hb : k < b.length)
    (hfits : (trailerAt b).Fits b tablesEnd)
    (hfits' : (trailerAt (b.set k v)).Fits (b.set k v) tablesEnd) : v = b[k] := by
  have h64 : kHeaderSize = 64 := rfl
  have hstring : (trailerAt (b.set k v)).stringOffset = (trailerAt b).stringOffset := by
    rw [← UInt64.toNat_inj, hfits.stringOffset, hfits'.stringOffset]
  have hblob := hfits.blobOffset
  have hblob' := hfits'.blobOffset
  by_cases hbody : kHeaderSize ≤ k
  · -- the checksum field is the same, and the contents are not
    have hsum : (trailerAt (b.set k v)).checksum = (trailerAt b).checksum := by
      simp only [trailerAt, Trailer.ofBytes, List.drop_drop]
      rw [load_set v (by omega)]
    rw [hfits.checksum, hfits'.checksum, List.drop_set, if_neg (by omega)] at hsum
    by_contra hne
    refine crc32_set_ne (by simp only [List.length_drop]; omega) ?_ hsum
    rw [List.getElem_drop]
    simpa only [show kHeaderSize + (k - kHeaderSize) = k by omega] using hne
  · by_cases hsumField : 60 ≤ k
    · have hsum : (trailerAt (b.set k v)).checksum = (trailerAt b).checksum := by
        rw [hfits.checksum, hfits'.checksum, List.drop_set, if_pos (by omega)]
      simp only [trailerAt, Trailer.ofBytes, List.drop_drop] at hsum
      exact eq_of_dword (by omega) (by omega) hsum hb
    · by_cases hsizeField : 56 ≤ k
      · have hsize : (trailerAt (b.set k v)).fileSize = (trailerAt b).fileSize := by
          rw [← UInt32.toNat_inj, hfits.fileSize, hfits'.fileSize, List.length_set]
        simp only [trailerAt, Trailer.ofBytes, List.drop_drop] at hsize
        exact eq_of_dword (by omega) (by omega) hsize hb
      · -- of the three offsets, two determine the third
        simp only [trailerAt, Trailer.ofBytes, List.drop_drop, Nat.reduceAdd]
          at hstring hblob hblob'
        by_cases hblobField : 48 ≤ k
        · rw [hstring, load_set (n := 40) v (by omega), ← hblob] at hblob'
          exact eq_of_word (by omega) (by omega) hblob' hb
        · by_cases hstringSize : 40 ≤ k
          · rw [load_set (n := 48) v (by omega), hstring, hblob] at hblob'
            have hsizes := (UInt64.add_right_inj _).mp hblob'
            exact eq_of_word (n := 40) (by omega) (by omega) hsizes.symm hb
          · exact eq_of_word (by omega) (by omega) hstring hb

end

end Binary
end MiniTool
