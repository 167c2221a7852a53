import MiniToolchain.Common.Reseal
import MiniToolchain.Executable.ExecutableIo
import MiniToolchain.Object.Reserved

/-!
# Reserved bytes of executables

As for object files: segment, symbol and debug records contain reserved bytes, which the reader
skips.

## Main definitions

* `Reserved`, `Canonical`, `SameContent` — as for object files.

## Main results

* `reader` — the reader skips reserved bytes.
* `canonical_iff` — whatever its reserved bytes are, no accepted executable is sure to be canonical.
* `readers_canonical_iff` — when the readers of both formats accept canonical files only.
-/

namespace MiniTool
namespace Executable

open ByteOrder Binary Checked

/-- The offsets of the reserved bytes: padding of the segment, symbol and debug records. -/
def Reserved (h : Header) (i : ℕ) : Prop :=
  (kHeaderSize ≤ i ∧ i < h.symbolsAt ∧
    ((i - kHeaderSize) % 40 = 6 ∨ (i - kHeaderSize) % 40 = 7)) ∨
  (h.symbolsAt ≤ i ∧ i < h.debugAt ∧ 5 ≤ (i - h.symbolsAt) % 24 ∧ (i - h.symbolsAt) % 24 < 8) ∨
  (h.debugAt ≤ i ∧ i < h.sourcesAt ∧ 20 ≤ (i - h.debugAt) % 24)

instance (h : Header) (i : ℕ) : Decidable (Reserved h i) := by
  unfold Reserved
  exact inferInstance

/-- The header with another checksum. -/
def Header.withChecksum (h : Header) (checksum : UInt32) : Header :=
  { h with trailer := { h.trailer with checksum } }

/-- What the format requires: reserved bytes are zero. -/
def Canonical (b : List UInt8) : Prop :=
  ∀ i < b.length, Reserved (headerAt b) i → b.getD i 0 = 0

/-! ### Places of records -/

theorem not_reserved_of_lt {h : Header} {i : ℕ} (hi : i < kHeaderSize) : ¬Reserved h i := by
  have hs : kHeaderSize ≤ h.symbolsAt := Nat.le_add_right _ _
  have hd : h.symbolsAt ≤ h.debugAt := Nat.le_add_right _ _
  rintro (hres | hres | hres) <;> omega

/-- The headers of two buffers that agree on them agree up to the checksum. -/
theorem header_of_agree {b b' : List UInt8} (h : Agree b b' 0 kChecksumField) :
    ∃ checksum, headerAt b' = (headerAt b).withChecksum checksum := by
  have h60 : kChecksumField = 60 := rfl
  refine ⟨(headerAt b').trailer.checksum, ?_⟩
  simp only [headerAt, Header.ofBytes, Trailer.ofBytes, Header.withChecksum, List.drop_drop,
    Header.mk.injEq, Trailer.mk.injEq]
  refine ⟨?_, ?_, ?_, ?_, ?_, ?_, ?_, ?_, ?_, ?_, ?_, trivial⟩ <;>
    rw [load_drop_congr (h.mono (by omega) (by omega))]

/-- The reserved bytes of executables. -/
def padding : Padding where
  Reserved b := Reserved (headerAt b)
  not_header := not_reserved_of_lt
  of_agree := by
    intro b b' i h hi
    obtain ⟨checksum, hheader⟩ := header_of_agree h
    rw [hheader]
    exact hi

/-- The buffers differ in reserved bytes and in the checksum only. -/
abbrev SameContent (b b' : List UInt8) : Prop := padding.SameContent b b'

theorem not_reserved_of_ge {h : Header} {i : ℕ} (hi : h.sourcesAt ≤ i) : ¬Reserved h i := by
  have hd : h.symbolsAt ≤ h.debugAt := Nat.le_add_right _ _
  have he : h.debugAt ≤ h.sourcesAt := Nat.le_add_right _ _
  rintro (hres | hres | hres) <;> omega

/-- Byte `j` of segment record `k`. -/
theorem reserved_segment {h : Header} {k j : ℕ} (hk : k < h.segmentCount.toNat) (hj : j < 40) :
    Reserved h (kHeaderSize + k * kSegmentRecordSize + j) ↔ j = 6 ∨ j = 7 := by
  have h64 : kHeaderSize = 64 := rfl
  have hs : h.symbolsAt = 64 + h.segmentCount.toNat * 40 := rfl
  have hd : h.symbolsAt ≤ h.debugAt := Nat.le_add_right _ _
  unfold Reserved
  rw [show k * kSegmentRecordSize = k * 40 from rfl]
  omega

/-- Byte `j` of symbol record `k`. -/
theorem reserved_symbol {h : Header} {k j : ℕ} (hk : k < h.symbolCount.toNat) (hj : j < 24) :
    Reserved h (h.symbolsAt + k * kSymbolRecordSize + j) ↔ 5 ≤ j ∧ j < 8 := by
  have hd : h.debugAt = h.symbolsAt + h.symbolCount.toNat * 24 := rfl
  unfold Reserved
  rw [show k * kSymbolRecordSize = k * 24 from rfl]
  omega

/-- Byte `j` of debug record `k`. -/
theorem reserved_debug {h : Header} {k j : ℕ} (hk : k < h.debugCount.toNat) (hj : j < 24) :
    Reserved h (h.debugAt + k * kDebugRecordSize + j) ↔ 20 ≤ j := by
  have hd : h.symbolsAt ≤ h.debugAt := Nat.le_add_right _ _
  have he : h.sourcesAt = h.debugAt + h.debugCount.toNat * 24 := rfl
  unfold Reserved
  rw [show k * kDebugRecordSize = k * 24 from rfl]
  omega

/-! ### The reader does not depend on reserved bytes -/

theorem SegmentRecord.ofBytes_congr {b b' : List UInt8} {p : ℕ} (h₁ : Agree b b' p (p + 6))
    (h₂ : Agree b b' (p + 8) (p + 40)) :
    SegmentRecord.ofBytes (b.drop p) = SegmentRecord.ofBytes (b'.drop p) := by
  simp only [ofBytes, List.drop_drop]
  rw [load_drop_congr (h₁.mono (by omega) (by omega)),
    headD_drop_congr (h₁.mono (by omega) (by omega)),
    headD_drop_congr (h₁.mono (by omega) (by omega)),
    load_drop_congr (n := p + 8) (h₂.mono (by omega) (by omega)),
    load_drop_congr (n := p + 16) (h₂.mono (by omega) (by omega)),
    load_drop_congr (n := p + 24) (h₂.mono (by omega) (by omega)),
    load_drop_congr (n := p + 32) (h₂.mono (by omega) (by omega))]

theorem SymbolRecord.ofBytes_congr {b b' : List UInt8} {p : ℕ} (h₁ : Agree b b' p (p + 5))
    (h₂ : Agree b b' (p + 8) (p + 24)) :
    SymbolRecord.ofBytes (b.drop p) = SymbolRecord.ofBytes (b'.drop p) := by
  simp only [ofBytes, List.drop_drop]
  rw [load_drop_congr (h₁.mono (by omega) (by omega)),
    headD_drop_congr (h₁.mono (by omega) (by omega)),
    load_drop_congr (n := p + 8) (h₂.mono (by omega) (by omega)),
    load_drop_congr (n := p + 16) (h₂.mono (by omega) (by omega))]

theorem DebugEntry.ofBytes_congr {b b' : List UInt8} {p : ℕ} (h : Agree b b' p (p + 20)) :
    DebugEntry.ofBytes (b.drop p) = DebugEntry.ofBytes (b'.drop p) := by
  simp only [ofBytes, List.drop_drop]
  rw [load_drop_congr (h.mono (by omega) (by omega)),
    load_drop_congr (n := p + 8) (h.mono (by omega) (by omega)),
    load_drop_congr (n := p + 12) (h.mono (by omega) (by omega)),
    load_drop_congr (n := p + 16) (h.mono (by omega) (by omega))]

theorem tablesOf_withChecksum (h : Header) (checksum : UInt32) (stringTable blob b : List UInt8) :
    tablesOf (h.withChecksum checksum) stringTable blob b = tablesOf h stringTable blob b := rfl

theorem extents_withChecksum (h : Header) (checksum : UInt32) (b : List UInt8) :
    extents "executable" b (h.withChecksum checksum).trailer (h.withChecksum checksum).tablesEnd
      = extents "executable" b h.trailer h.tablesEnd := rfl

section

variable {b b' : List UInt8} (hsame : SameContent b b')

include hsame

theorem SameContent.agree_segment {k : ℕ} (hk : k < (headerAt b).segmentCount.toNat) :
    SegmentRecord.ofBytes (b.drop (kHeaderSize + k * kSegmentRecordSize))
      = SegmentRecord.ofBytes (b'.drop (kHeaderSize + k * kSegmentRecordSize)) := by
  have hbyte : ∀ j < 40, ¬(j = 6 ∨ j = 7) →
      b.getD (kHeaderSize + k * kSegmentRecordSize + j) 0
        = b'.getD (kHeaderSize + k * kSegmentRecordSize + j) 0 := fun j hj hres =>
    hsame.bytes _ (fun h => hres ((reserved_segment hk hj).mp h)) (Or.inr (by omega))
  apply SegmentRecord.ofBytes_congr
  · exact agree_add 0 6 fun j hlo hhi => hbyte j (by omega) (by omega)
  · exact agree_add 8 40 fun j hlo hhi => hbyte j (by omega) (by omega)

theorem SameContent.agree_symbol {k : ℕ} (hk : k < (headerAt b).symbolCount.toNat) :
    SymbolRecord.ofBytes (b.drop ((headerAt b).symbolsAt + k * kSymbolRecordSize))
      = SymbolRecord.ofBytes (b'.drop ((headerAt b).symbolsAt + k * kSymbolRecordSize)) := by
  have hs : kHeaderSize ≤ (headerAt b).symbolsAt := Nat.le_add_right _ _
  have hbyte : ∀ j < 24, ¬(5 ≤ j ∧ j < 8) →
      b.getD ((headerAt b).symbolsAt + k * kSymbolRecordSize + j) 0
        = b'.getD ((headerAt b).symbolsAt + k * kSymbolRecordSize + j) 0 := fun j hj hres =>
    hsame.bytes _ (fun h => hres ((reserved_symbol hk hj).mp h)) (Or.inr (by omega))
  apply SymbolRecord.ofBytes_congr
  · exact agree_add 0 5 fun j hlo hhi => hbyte j (by omega) (by omega)
  · exact agree_add 8 24 fun j hlo hhi => hbyte j (by omega) (by omega)

theorem SameContent.agree_debug {k : ℕ} (hk : k < (headerAt b).debugCount.toNat) :
    DebugEntry.ofBytes (b.drop ((headerAt b).debugAt + k * kDebugRecordSize))
      = DebugEntry.ofBytes (b'.drop ((headerAt b).debugAt + k * kDebugRecordSize)) := by
  have hs : kHeaderSize ≤ (headerAt b).symbolsAt := Nat.le_add_right _ _
  have hd : (headerAt b).symbolsAt ≤ (headerAt b).debugAt := Nat.le_add_right _ _
  apply DebugEntry.ofBytes_congr
  intro i hlo hhi
  obtain ⟨j, rfl⟩ := Nat.exists_eq_add_of_le hlo
  have hj : j < 20 := by omega
  exact hsame.bytes _ (fun h => absurd ((reserved_debug hk (by omega)).mp h) (by omega))
    (Or.inr (by omega))

theorem SameContent.drop_sourcesAt :
    b.drop (headerAt b).sourcesAt = b'.drop (headerAt b).sourcesAt := by
  have hs : kHeaderSize ≤ (headerAt b).symbolsAt := Nat.le_add_right _ _
  have hd : (headerAt b).symbolsAt ≤ (headerAt b).debugAt := Nat.le_add_right _ _
  have he : (headerAt b).debugAt ≤ (headerAt b).sourcesAt := Nat.le_add_right _ _
  refine Agree.drop_eq (fun i hlo _ => ?_) hsame.length
  exact hsame.bytes i (not_reserved_of_ge hlo) (Or.inr (by omega))

theorem SameContent.header : ∃ checksum, headerAt b' = (headerAt b).withChecksum checksum :=
  header_of_agree hsame.agree_head

theorem SameContent.tablesOf_eq (stringTable blob : List UInt8) :
    tablesOf (headerAt b) stringTable blob b = tablesOf (headerAt b') stringTable blob b' := by
  have hsegments : RecordTable.records kSegmentRecordSize SegmentRecord.ofBytes
      (headerAt b).segmentCount.toNat (b.drop kHeaderSize) = RecordTable.records kSegmentRecordSize
        SegmentRecord.ofBytes (headerAt b).segmentCount.toNat (b'.drop kHeaderSize) :=
    RecordTable.records_drop_congr fun k hk => hsame.agree_segment hk
  have hsymbols : RecordTable.records kSymbolRecordSize SymbolRecord.ofBytes
      (headerAt b).symbolCount.toNat (b.drop (headerAt b).symbolsAt)
        = RecordTable.records kSymbolRecordSize SymbolRecord.ofBytes
          (headerAt b).symbolCount.toNat (b'.drop (headerAt b).symbolsAt) :=
    RecordTable.records_drop_congr fun k hk => hsame.agree_symbol hk
  have hdebug : RecordTable.records kDebugRecordSize DebugEntry.ofBytes
      (headerAt b).debugCount.toNat (b.drop (headerAt b).debugAt)
        = RecordTable.records kDebugRecordSize DebugEntry.ofBytes
          (headerAt b).debugCount.toNat (b'.drop (headerAt b).debugAt) :=
    RecordTable.records_drop_congr fun k hk => hsame.agree_debug hk
  obtain ⟨checksum, hheader⟩ := hsame.header
  rw [hheader, tablesOf_withChecksum, tablesOf, tablesOf, hsegments, hsymbols, hdebug,
    hsame.drop_sourcesAt]

/-- The layout check, the tables and the validation of two buffers with the same content. -/
theorem SameContent.contents_eq (hshort : b.length < 2 ^ 32) :
    contentsOf (headerAt b) b = contentsOf (headerAt b') b' := by
  obtain ⟨checksum, hheader⟩ := hsame.header
  have hend : b.drop (headerAt b).tablesEnd = b'.drop (headerAt b).tablesEnd := by
    rw [Header.tablesEnd, ← List.drop_drop, hsame.drop_sourcesAt, List.drop_drop]
  have hextents : extents "executable" b (headerAt b).trailer (headerAt b).tablesEnd
      = extents "executable" b' (headerAt b').trailer (headerAt b').tablesEnd := by
    rw [extents_congr _ _ hsame.length hshort hend, hheader, extents_withChecksum]
  rw [contentsOf, contentsOf, hextents]
  simp only [hsame.tablesOf_eq]

/-- The reader does not tell apart two buffers with the same content and right checksums. -/
theorem SameContent.read_eq (hlen : kHeaderSize ≤ b.length)
    (hsum : (headerAt b).trailer.checksum = crc32 (b.drop kHeaderSize))
    (hsum' : (headerAt b').trailer.checksum = crc32 (b'.drop kHeaderSize)) :
    readExecutableFromBuffer b = readExecutableFromBuffer b' := by
  have hmagic : b.take 4 = b'.take 4 :=
    (hsame.agree_head.mono (Nat.zero_le _) (by decide)).take_eq hsame.length
  have hcheck : checkHeader b (headerAt b) = checkHeader b' (headerAt b') := by
    obtain ⟨checksum, hheader⟩ := hsame.header
    simp only [checkHeader, checkContents_of_checksum _ hsum, checkContents_of_checksum _ hsum',
      hsame.length]
    rw [hheader]
    rfl
  rw [readExecutableFromBuffer_eq hlen, readExecutableFromBuffer_eq (hlen.trans_eq hsame.length),
    hmagic]
  rw [hcheck]
  cases hok : checkHeader b' (headerAt b') with
  | error e => rfl
  | ok u =>
    obtain ⟨_, _, hok⟩ := bind_eq_ok.mp hok
    obtain ⟨_, _, hok⟩ := bind_eq_ok.mp hok
    have hshort : b.length < 2 ^ 32 := hsame.length ▸ length_lt_of_checkContents hok
    simp only [ok_bind, hsame.contents_eq hshort]

end

/-! ### Which files are canonical -/

/-- What the reader has checked of a buffer it accepts. -/
structure Accepted (b : List UInt8) : Prop where
  header : kHeaderSize ≤ b.length
  checksum : (headerAt b).trailer.checksum = crc32 (b.drop kHeaderSize)
  tables : (headerAt b).tablesEnd ≤ b.length
  segments : 0 < (headerAt b).segmentCount.toNat

theorem segments_ne_nil_of_validate {e : Executable} (h : validate e = .ok ()) :
    e.segments ≠ [] :=
  (validate_eq_ok.mp h).segments_ne_nil

theorem accepted_of_read {b : List UInt8} {e : Executable}
    (h : readExecutableFromBuffer b = .ok e) : Accepted b := by
  have hlen : kHeaderSize ≤ b.length := by
    obtain ⟨_, hsize, _⟩ := bind_eq_ok.mp h
    simpa using hsize
  rw [readExecutableFromBuffer_eq hlen] at h
  obtain ⟨_, _, h⟩ := bind_eq_ok.mp h
  obtain ⟨_, hcheck, h⟩ := bind_eq_ok.mp h
  obtain ⟨_, _, hcheck⟩ := bind_eq_ok.mp hcheck
  obtain ⟨_, _, hcheck⟩ := bind_eq_ok.mp hcheck
  obtain ⟨regions, hextents, h⟩ := bind_eq_ok.mp h
  obtain ⟨read, htables, h⟩ := bind_eq_ok.mp h
  obtain ⟨_, hvalid, h⟩ := bind_eq_ok.mp h
  obtain ⟨segments, hsegments, htables⟩ := bind_eq_ok.mp htables
  obtain ⟨_, _, htables⟩ := bind_eq_ok.mp htables
  obtain ⟨_, _, htables⟩ := bind_eq_ok.mp htables
  obtain ⟨_, _, htables⟩ := bind_eq_ok.mp htables
  cases htables
  have hlength := (RecordTable.mapM_eq_ok_iff.mp hsegments).length_eq
  rw [RecordTable.length_records] at hlength
  refine ⟨hlen, checksum_of_checkContents hcheck, le_of_extents_eq_ok hextents, ?_⟩
  rw [hlength]
  exact List.length_pos_of_ne_nil (segments_ne_nil_of_validate hvalid)

theorem sealed_iff {b : List UInt8} :
    Sealed b ↔ (headerAt b).trailer.checksum = crc32 (b.drop kHeaderSize) := by
  unfold Sealed
  simp only [headerAt, Header.ofBytes, Trailer.ofBytes, List.drop_drop]

/-- The reader skips reserved bytes. -/
theorem reader : padding.Reader readExecutableFromBuffer where
  congr hsame hlen hsum hsum' :=
    SameContent.read_eq hsame hlen (sealed_iff.mp hsum) (sealed_iff.mp hsum')
  header h := (accepted_of_read h).header
  checksum h := sealed_iff.mpr (accepted_of_read h).checksum

/-- The record of its first segment has a reserved byte. -/
theorem exists_reserved {b : List UInt8} (h : Accepted b) :
    ∃ i, Reserved (headerAt b) i ∧ kHeaderSize ≤ i ∧ i < b.length := by
  have h64 : kHeaderSize = 64 := rfl
  have hs : (headerAt b).symbolsAt = 64 + (headerAt b).segmentCount.toNat * 40 := rfl
  have hle : (headerAt b).symbolsAt ≤ (headerAt b).tablesEnd :=
    (Nat.le_add_right _ _).trans ((Nat.le_add_right _ _).trans (Nat.le_add_right _ _))
  have hsegments := h.segments
  have htables := h.tables
  refine ⟨_, (reserved_segment (j := 6) hsegments (by omega)).mpr (by omega), by omega, ?_⟩
  rw [Nat.zero_mul]
  omega

/-- Whatever its reserved bytes are, no accepted executable is sure to be canonical. -/
theorem canonical_iff (b : List UInt8) :
    (∀ b' e, SameContent b b' → readExecutableFromBuffer b' = .ok e → Canonical b') ↔
      ∀ e, readExecutableFromBuffer (reseal b) ≠ .ok e := by
  have hall := @Padding.Reader.canonical_iff _ _ _ _ reader Canonical (fun _ => True) id
    (fun h => absurd trivial h) (fun _ _ => trivial)
    (fun hread _ => exists_reserved (accepted_of_read hread)) b
  rw [hall, not_true, or_false]

/-- **When the readers accept canonical files only.**  For object files: if the file is rejected, or
has no record with a reserved byte.  For executables: if the file is rejected. -/
theorem readers_canonical_iff (b : List UInt8) :
    ((∀ b' o, Object.SameContent b b' → Object.readObjectFromBuffer b' = .ok o →
        Object.Canonical b') ↔
      (∀ o, Object.readObjectFromBuffer (reseal b) ≠ .ok o) ∨ ¬Object.HasRecords b) ∧
    ((∀ b' e, SameContent b b' → readExecutableFromBuffer b' = .ok e → Canonical b') ↔
      ∀ e, readExecutableFromBuffer (reseal b) ≠ .ok e) :=
  ⟨Object.canonical_iff b, canonical_iff b⟩

/-- An object file with one section, a `.bss` that holds a byte of data, and a reserved byte of its
record that is one. -/
def strayObject : List UInt8 :=
  [77, 79, 66, 74, 1, 0, 64, 0, 0, 0, 0, 0, 1, 0, 0, 0,
   0, 0, 0, 0, 0, 0, 0, 0, 0, 0, 0, 0, 0, 0, 0, 0,
   112, 0, 0, 0, 0, 0, 0, 0, 6, 0, 0, 0, 0, 0, 0, 0,
   118, 0, 0, 0, 0, 0, 0, 0, 119, 0, 0, 0, 144, 197, 202, 37,
   1, 0, 0, 0, 4, 0, 1, 0, 8, 0, 0, 0, 0, 0, 0, 0,
   0, 0, 0, 0, 0, 0, 0, 0, 1, 0, 0, 0, 0, 0, 0, 0,
   1, 0, 0, 0, 0, 0, 0, 0, 0, 0, 0, 0, 0, 0, 0, 0,
   0, 46, 98, 115, 115, 0, 7]

/-- The reader of object files accepts a file that is not canonical. -/
theorem readers_not_canonical :
    ¬((∀ b o, Object.readObjectFromBuffer b = .ok o → Object.Canonical b) ∧
      ∀ b e, readExecutableFromBuffer b = .ok e → Canonical b) := by
  rintro ⟨hobject, _⟩
  have hok : (Object.readObjectFromBuffer strayObject).isOk = true := by decide +kernel
  have hreserved : Object.Reserved (Object.headerAt strayObject) 70 := by decide
  cases hread : Object.readObjectFromBuffer strayObject with
  | error e =>
    rw [hread] at hok
    cases hok
  | ok o =>
    have hzero := (hobject strayObject o hread).reserved 70 (by decide) hreserved
    exact absurd hzero (by decide)

end Executable
end MiniTool
