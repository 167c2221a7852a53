import MiniToolchain.Common.Reseal
import MiniToolchain.Object.ObjectIo

/-!
# Reserved bytes of object files

Section, symbol and relocation records end in or contain bytes the format reserves.  The writer
makes them zero; the reader skips them.

## Main definitions

* `Reserved` — the offsets of the reserved bytes of a file with a given header.
* `Canonical` — what the format requires of every file.
* `SameContent` — two buffers that differ in reserved bytes and in the checksum only.

## Main results

* `reader` — the reader skips reserved bytes.
* `canonical_iff` — whatever its reserved bytes are, an accepted file is canonical exactly when it
  has no record with a reserved byte.
-/

namespace MiniTool
namespace Object

open ByteOrder Binary Checked

/-- The offsets of the reserved bytes: padding of the section, symbol and relocation records. -/
def Reserved (h : Header) (i : ℕ) : Prop :=
  (kHeaderSize ≤ i ∧ i < h.symbolsAt ∧
    ((i - kHeaderSize) % 48 = 6 ∨ (i - kHeaderSize) % 48 = 7 ∨ 44 ≤ (i - kHeaderSize) % 48)) ∨
  (h.symbolsAt ≤ i ∧ i < h.relocationsAt ∧
    ((i - h.symbolsAt) % 32 = 7 ∨ 12 ≤ (i - h.symbolsAt) % 32 ∧ (i - h.symbolsAt) % 32 < 16)) ∨
  (h.relocationsAt ≤ i ∧ i < h.debugAt ∧ 25 ≤ (i - h.relocationsAt) % 32)

instance (h : Header) (i : ℕ) : Decidable (Reserved h i) := by
  unfold Reserved
  exact inferInstance

/-- The header with another checksum. -/
def Header.withChecksum (h : Header) (checksum : UInt32) : Header :=
  { h with trailer := { h.trailer with checksum } }

/-- What the format requires of the bytes of a file: reserved bytes are zero, the defined byte of a
symbol is 0 or 1, and the sizes of a section agree. -/
structure Canonical (b : List UInt8) : Prop where
  reserved : ∀ i < b.length, Reserved (headerAt b) i → b.getD i 0 = 0
  defined : ∀ k < (headerAt b).symbolCount.toNat,
    (SymbolRecord.ofBytes (b.drop ((headerAt b).symbolsAt + k * kSymbolRecordSize))).defined ≤ 1
  bss : ∀ k < (headerAt b).sectionCount.toNat,
    (SectionRecord.ofBytes (b.drop (kHeaderSize + k * kSectionRecordSize))).type
        = SectionType.bss.value →
      (SectionRecord.ofBytes (b.drop (kHeaderSize + k * kSectionRecordSize))).dataSize = 0
  sizes : ∀ k < (headerAt b).sectionCount.toNat,
    (SectionRecord.ofBytes (b.drop (kHeaderSize + k * kSectionRecordSize))).type
        ≠ SectionType.bss.value →
      (SectionRecord.ofBytes (b.drop (kHeaderSize + k * kSectionRecordSize))).dataSize
        = (SectionRecord.ofBytes (b.drop (kHeaderSize + k * kSectionRecordSize))).memorySize

/-- The buffer has a section, symbol or relocation record. -/
def HasRecords (b : List UInt8) : Prop :=
  0 < (headerAt b).sectionCount.toNat + (headerAt b).symbolCount.toNat
    + (headerAt b).relocationCount.toNat

/-! ### Places of records -/

theorem not_reserved_of_lt {h : Header} {i : ℕ} (hi : i < kHeaderSize) : ¬Reserved h i := by
  have hs : kHeaderSize ≤ h.symbolsAt := Nat.le_add_right _ _
  have hr : h.symbolsAt ≤ h.relocationsAt := Nat.le_add_right _ _
  rintro (hres | hres | hres) <;> omega

/-- The headers of two buffers that agree on them agree up to the checksum. -/
theorem header_of_agree {b b' : List UInt8} (h : Agree b b' 0 kChecksumField) :
    ∃ checksum, headerAt b' = (headerAt b).withChecksum checksum := by
  have h60 : kChecksumField = 60 := rfl
  refine ⟨(headerAt b').trailer.checksum, ?_⟩
  simp only [headerAt, Header.ofBytes, Trailer.ofBytes, Header.withChecksum, List.drop_drop,
    Header.mk.injEq, Trailer.mk.injEq]
  refine ⟨?_, ?_, ?_, ?_, ?_, ?_, ?_, ?_, ?_, ?_, ?_, ?_, trivial⟩ <;>
    rw [load_drop_congr (h.mono (by omega) (by omega))]

/-- The reserved bytes of object files. -/
def padding : Padding where
  Reserved b := Reserved (headerAt b)
  not_header := not_reserved_of_lt
  of_agree := by
    intro b b' i h hi
    obtain ⟨checksum, hheader⟩ := header_of_agree h
    rw [hheader]
    exact hi

/-- The buffers differ in reserved bytes and in the checksum only. -/
abbrev SameContent (b b' : List UInt8) : Prop := padding.SameContent b b'

theorem not_reserved_of_ge {h : Header} {i : ℕ} (hi : h.debugAt ≤ i) : ¬Reserved h i := by
  have hr : h.symbolsAt ≤ h.relocationsAt := Nat.le_add_right _ _
  have hd : h.relocationsAt ≤ h.debugAt := Nat.le_add_right _ _
  rintro (hres | hres | hres) <;> omega

/-- Byte `j` of section record `k`. -/
theorem reserved_section {h : Header} {k j : ℕ} (hk : k < h.sectionCount.toNat) (hj : j < 48) :
    Reserved h (kHeaderSize + k * kSectionRecordSize + j) ↔ j = 6 ∨ j = 7 ∨ 44 ≤ j := by
  have h64 : kHeaderSize = 64 := rfl
  have hs : h.symbolsAt = 64 + h.sectionCount.toNat * 48 := rfl
  have hr : h.symbolsAt ≤ h.relocationsAt := Nat.le_add_right _ _
  unfold Reserved
  rw [show k * kSectionRecordSize = k * 48 from rfl]
  omega

/-- Byte `j` of symbol record `k`. -/
theorem reserved_symbol {h : Header} {k j : ℕ} (hk : k < h.symbolCount.toNat) (hj : j < 32) :
    Reserved h (h.symbolsAt + k * kSymbolRecordSize + j) ↔ j = 7 ∨ 12 ≤ j ∧ j < 16 := by
  have hr : h.relocationsAt = h.symbolsAt + h.symbolCount.toNat * 32 := rfl
  unfold Reserved
  rw [show k * kSymbolRecordSize = k * 32 from rfl]
  omega

/-- Byte `j` of relocation record `k`. -/
theorem reserved_relocation {h : Header} {k j : ℕ} (hk : k < h.relocationCount.toNat)
    (hj : j < 32) :
    Reserved h (h.relocationsAt + k * kRelocationRecordSize + j) ↔ 25 ≤ j := by
  have hs : h.symbolsAt ≤ h.relocationsAt := Nat.le_add_right _ _
  have hd : h.debugAt = h.relocationsAt + h.relocationCount.toNat * 32 := rfl
  unfold Reserved
  rw [show k * kRelocationRecordSize = k * 32 from rfl]
  omega

/-! ### The reader does not depend on reserved bytes -/

theorem SectionRecord.ofBytes_congr {b b' : List UInt8} {p : ℕ} (h₁ : Agree b b' p (p + 6))
    (h₂ : Agree b b' (p + 8) (p + 44)) :
    SectionRecord.ofBytes (b.drop p) = SectionRecord.ofBytes (b'.drop p) := by
  simp only [ofBytes, List.drop_drop]
  rw [load_drop_congr (h₁.mono (by omega) (by omega)),
    headD_drop_congr (h₁.mono (by omega) (by omega)),
    headD_drop_congr (h₁.mono (by omega) (by omega)),
    load_drop_congr (n := p + 8) (h₂.mono (by omega) (by omega)),
    load_drop_congr (n := p + 16) (h₂.mono (by omega) (by omega)),
    load_drop_congr (n := p + 24) (h₂.mono (by omega) (by omega)),
    load_drop_congr (n := p + 32) (h₂.mono (by omega) (by omega)),
    load_drop_congr (n := p + 40) (h₂.mono (by omega) (by omega))]

theorem SymbolRecord.ofBytes_congr {b b' : List UInt8} {p : ℕ} (h₁ : Agree b b' p (p + 7))
    (h₂ : Agree b b' (p + 8) (p + 12)) (h₃ : Agree b b' (p + 16) (p + 32)) :
    SymbolRecord.ofBytes (b.drop p) = SymbolRecord.ofBytes (b'.drop p) := by
  simp only [ofBytes, List.drop_drop]
  rw [load_drop_congr (h₁.mono (by omega) (by omega)),
    headD_drop_congr (h₁.mono (by omega) (by omega)),
    headD_drop_congr (h₁.mono (by omega) (by omega)),
    headD_drop_congr (h₁.mono (by omega) (by omega)),
    load_drop_congr (n := p + 8) (h₂.mono (by omega) (by omega)),
    load_drop_congr (n := p + 16) (h₃.mono (by omega) (by omega)),
    load_drop_congr (n := p + 24) (h₃.mono (by omega) (by omega))]

theorem RelocationRecord.ofBytes_congr {b b' : List UInt8} {p : ℕ} (h : Agree b b' p (p + 25)) :
    RelocationRecord.ofBytes (b.drop p) = RelocationRecord.ofBytes (b'.drop p) := by
  simp only [ofBytes, List.drop_drop]
  rw [load_drop_congr (h.mono (by omega) (by omega)),
    load_drop_congr (n := p + 4) (h.mono (by omega) (by omega)),
    load_drop_congr (n := p + 8) (h.mono (by omega) (by omega)),
    load_drop_congr (n := p + 16) (h.mono (by omega) (by omega)),
    headD_drop_congr (h.mono (by omega) (by omega))]

theorem tablesOf_withChecksum (h : Header) (checksum : UInt32) (stringTable blob b : List UInt8) :
    tablesOf (h.withChecksum checksum) stringTable blob b = tablesOf h stringTable blob b := rfl

theorem extents_withChecksum (h : Header) (checksum : UInt32) (b : List UInt8) :
    extents "object" b (h.withChecksum checksum).trailer (h.withChecksum checksum).tablesEnd
      = extents "object" b h.trailer h.tablesEnd := rfl

section

variable {b b' : List UInt8} (hsame : SameContent b b')

include hsame

theorem SameContent.agree_section {k : ℕ} (hk : k < (headerAt b).sectionCount.toNat) :
    SectionRecord.ofBytes (b.drop (kHeaderSize + k * kSectionRecordSize))
      = SectionRecord.ofBytes (b'.drop (kHeaderSize + k * kSectionRecordSize)) := by
  have hbyte : ∀ j < 48, ¬(j = 6 ∨ j = 7 ∨ 44 ≤ j) →
      b.getD (kHeaderSize + k * kSectionRecordSize + j) 0
        = b'.getD (kHeaderSize + k * kSectionRecordSize + j) 0 := fun j hj hres =>
    hsame.bytes _ (fun h => hres ((reserved_section hk hj).mp h)) (Or.inr (by omega))
  apply SectionRecord.ofBytes_congr
  · exact agree_add 0 6 fun j hlo hhi => hbyte j (by omega) (by omega)
  · exact agree_add 8 44 fun j hlo hhi => hbyte j (by omega) (by omega)

theorem SameContent.agree_symbol {k : ℕ} (hk : k < (headerAt b).symbolCount.toNat) :
    SymbolRecord.ofBytes (b.drop ((headerAt b).symbolsAt + k * kSymbolRecordSize))
      = SymbolRecord.ofBytes (b'.drop ((headerAt b).symbolsAt + k * kSymbolRecordSize)) := by
  have hs : kHeaderSize ≤ (headerAt b).symbolsAt := Nat.le_add_right _ _
  have hbyte : ∀ j < 32, ¬(j = 7 ∨ 12 ≤ j ∧ j < 16) →
      b.getD ((headerAt b).symbolsAt + k * kSymbolRecordSize + j) 0
        = b'.getD ((headerAt b).symbolsAt + k * kSymbolRecordSize + j) 0 := fun j hj hres =>
    hsame.bytes _ (fun h => hres ((reserved_symbol hk hj).mp h)) (Or.inr (by omega))
  apply SymbolRecord.ofBytes_congr
  · exact agree_add 0 7 fun j hlo hhi => hbyte j (by omega) (by omega)
  · exact agree_add 8 12 fun j hlo hhi => hbyte j (by omega) (by omega)
  · exact agree_add 16 32 fun j hlo hhi => hbyte j (by omega) (by omega)

theorem SameContent.agree_relocation {k : ℕ} (hk : k < (headerAt b).relocationCount.toNat) :
    RelocationRecord.ofBytes (b.drop ((headerAt b).relocationsAt + k * kRelocationRecordSize))
      = RelocationRecord.ofBytes
          (b'.drop ((headerAt b).relocationsAt + k * kRelocationRecordSize)) := by
  have hs : kHeaderSize ≤ (headerAt b).symbolsAt := Nat.le_add_right _ _
  have hr : (headerAt b).symbolsAt ≤ (headerAt b).relocationsAt := Nat.le_add_right _ _
  apply RelocationRecord.ofBytes_congr
  intro i hlo hhi
  obtain ⟨j, rfl⟩ := Nat.exists_eq_add_of_le hlo
  have hj : j < 25 := by omega
  exact hsame.bytes _ (fun h => absurd ((reserved_relocation hk (by omega)).mp h) (by omega))
    (Or.inr (by omega))

theorem SameContent.drop_debugAt :
    b.drop (headerAt b).debugAt = b'.drop (headerAt b).debugAt := by
  have hs : kHeaderSize ≤ (headerAt b).symbolsAt := Nat.le_add_right _ _
  have hr : (headerAt b).symbolsAt ≤ (headerAt b).relocationsAt := Nat.le_add_right _ _
  have hd : (headerAt b).relocationsAt ≤ (headerAt b).debugAt := Nat.le_add_right _ _
  refine Agree.drop_eq (fun i hlo _ => ?_) hsame.length
  exact hsame.bytes i (not_reserved_of_ge hlo) (Or.inr (by omega))

theorem SameContent.header : ∃ checksum, headerAt b' = (headerAt b).withChecksum checksum :=
  header_of_agree hsame.agree_head

theorem SameContent.tablesOf_eq (stringTable blob : List UInt8) :
    tablesOf (headerAt b) stringTable blob b = tablesOf (headerAt b') stringTable blob b' := by
  have hs : kHeaderSize ≤ (headerAt b).symbolsAt := Nat.le_add_right _ _
  have hsections : RecordTable.records kSectionRecordSize SectionRecord.ofBytes
      (headerAt b).sectionCount.toNat (b.drop kHeaderSize) = RecordTable.records kSectionRecordSize
        SectionRecord.ofBytes (headerAt b).sectionCount.toNat (b'.drop kHeaderSize) :=
    RecordTable.records_drop_congr fun k hk => hsame.agree_section hk
  have hsymbols : RecordTable.records kSymbolRecordSize SymbolRecord.ofBytes
      (headerAt b).symbolCount.toNat (b.drop (headerAt b).symbolsAt)
        = RecordTable.records kSymbolRecordSize SymbolRecord.ofBytes
          (headerAt b).symbolCount.toNat (b'.drop (headerAt b).symbolsAt) :=
    RecordTable.records_drop_congr fun k hk => hsame.agree_symbol hk
  have hrelocations : RecordTable.records kRelocationRecordSize RelocationRecord.ofBytes
      (headerAt b).relocationCount.toNat (b.drop (headerAt b).relocationsAt)
        = RecordTable.records kRelocationRecordSize RelocationRecord.ofBytes
          (headerAt b).relocationCount.toNat (b'.drop (headerAt b).relocationsAt) :=
    RecordTable.records_drop_congr fun k hk => hsame.agree_relocation hk
  have hsources : b.drop (headerAt b).sourcesAt = b'.drop (headerAt b).sourcesAt := by
    rw [Header.sourcesAt, ← List.drop_drop, ← List.drop_drop, hsame.drop_debugAt]
  obtain ⟨checksum, hheader⟩ := hsame.header
  rw [hheader, tablesOf_withChecksum, tablesOf, tablesOf, hsections, hsymbols, hrelocations,
    hsame.drop_debugAt, hsources]

/-- The layout check and the tables of two buffers with the same content. -/
theorem SameContent.contents_eq (hshort : b.length < 2 ^ 32) :
    contentsOf (headerAt b) b = contentsOf (headerAt b') b' := by
  obtain ⟨checksum, hheader⟩ := hsame.header
  have hend : b.drop (headerAt b).tablesEnd = b'.drop (headerAt b).tablesEnd := by
    rw [Header.tablesEnd, Header.sourcesAt, Nat.add_assoc, ← List.drop_drop, hsame.drop_debugAt,
      List.drop_drop]
  have hextents : extents "object" b (headerAt b).trailer (headerAt b).tablesEnd
      = extents "object" b' (headerAt b').trailer (headerAt b').tablesEnd := by
    rw [extents_congr _ _ hsame.length hshort hend, hheader, extents_withChecksum]
  rw [contentsOf, contentsOf, hextents]
  simp only [hsame.tablesOf_eq]

/-- The reader does not tell apart two buffers with the same content and right checksums. -/
theorem SameContent.read_eq (hlen : kHeaderSize ≤ b.length)
    (hsum : (headerAt b).trailer.checksum = crc32 (b.drop kHeaderSize))
    (hsum' : (headerAt b').trailer.checksum = crc32 (b'.drop kHeaderSize)) :
    readObjectFromBuffer b = readObjectFromBuffer b' := by
  have hmagic : b.take 4 = b'.take 4 :=
    (hsame.agree_head.mono (Nat.zero_le _) (by decide)).take_eq hsame.length
  have hcheck : checkHeader b (headerAt b) = checkHeader b' (headerAt b') := by
    obtain ⟨checksum, hheader⟩ := hsame.header
    simp only [checkHeader, checkContents_of_checksum _ hsum, checkContents_of_checksum _ hsum',
      hsame.length]
    rw [hheader]
    rfl
  rw [readObjectFromBuffer_eq hlen, readObjectFromBuffer_eq (hlen.trans_eq hsame.length), hmagic]
  rw [hcheck]
  cases hok : checkHeader b' (headerAt b') with
  | error e => rfl
  | ok u =>
    obtain ⟨_, _, hok⟩ := bind_eq_ok.mp hok
    obtain ⟨_, _, hok⟩ := bind_eq_ok.mp hok
    obtain ⟨_, _, hok⟩ := bind_eq_ok.mp hok
    have hshort : b.length < 2 ^ 32 := hsame.length ▸ length_lt_of_checkContents hok
    simp only [ok_bind, hsame.contents_eq hshort]

end

/-! ### Which files are canonical -/

/-- What the reader has checked of a buffer it accepts. -/
structure Accepted (b : List UInt8) : Prop where
  header : kHeaderSize ≤ b.length
  checksum : (headerAt b).trailer.checksum = crc32 (b.drop kHeaderSize)
  tables : (headerAt b).tablesEnd ≤ b.length

theorem accepted_of_read {b : List UInt8} {o : ObjectFile} (h : readObjectFromBuffer b = .ok o) :
    Accepted b := by
  have hlen : kHeaderSize ≤ b.length := by
    obtain ⟨_, hsize, _⟩ := bind_eq_ok.mp h
    simpa using hsize
  rw [readObjectFromBuffer_eq hlen] at h
  obtain ⟨_, _, h⟩ := bind_eq_ok.mp h
  obtain ⟨_, hcheck, h⟩ := bind_eq_ok.mp h
  obtain ⟨_, _, hcheck⟩ := bind_eq_ok.mp hcheck
  obtain ⟨_, _, hcheck⟩ := bind_eq_ok.mp hcheck
  obtain ⟨_, _, hcheck⟩ := bind_eq_ok.mp hcheck
  obtain ⟨_, hextents, _⟩ := bind_eq_ok.mp h
  exact ⟨hlen, checksum_of_checkContents hcheck, le_of_extents_eq_ok hextents⟩

theorem sealed_iff {b : List UInt8} :
    Sealed b ↔ (headerAt b).trailer.checksum = crc32 (b.drop kHeaderSize) := by
  unfold Sealed
  simp only [headerAt, Header.ofBytes, Trailer.ofBytes, List.drop_drop]

/-- The reader skips reserved bytes. -/
theorem reader : padding.Reader readObjectFromBuffer where
  congr hsame hlen hsum hsum' :=
    SameContent.read_eq hsame hlen (sealed_iff.mp hsum) (sealed_iff.mp hsum')
  header h := (accepted_of_read h).header
  checksum h := sealed_iff.mpr (accepted_of_read h).checksum

/-- A file with records has a reserved byte, unless it is too short for its tables. -/
theorem exists_reserved {b : List UInt8} (hrecords : HasRecords b)
    (hend : (headerAt b).tablesEnd ≤ b.length) :
    ∃ i, Reserved (headerAt b) i ∧ kHeaderSize ≤ i ∧ i < b.length := by
  have h64 : kHeaderSize = 64 := rfl
  have hs : (headerAt b).symbolsAt = 64 + (headerAt b).sectionCount.toNat * 48 := rfl
  have hr : (headerAt b).relocationsAt
    = (headerAt b).symbolsAt + (headerAt b).symbolCount.toNat * 32 := rfl
  have hd : (headerAt b).debugAt
    = (headerAt b).relocationsAt + (headerAt b).relocationCount.toNat * 32 := rfl
  have he : (headerAt b).debugAt ≤ (headerAt b).tablesEnd :=
    (Nat.le_add_right _ _).trans (Nat.le_add_right _ _)
  have hcount : 0 < (headerAt b).sectionCount.toNat + (headerAt b).symbolCount.toNat
    + (headerAt b).relocationCount.toNat := hrecords
  by_cases hsection : 0 < (headerAt b).sectionCount.toNat
  · exact ⟨_, (reserved_section (j := 6) hsection (by omega)).mpr (by omega), by omega, by
      rw [Nat.zero_mul]
      omega⟩
  · by_cases hsymbol : 0 < (headerAt b).symbolCount.toNat
    · exact ⟨_, (reserved_symbol (j := 7) hsymbol (by omega)).mpr (by omega), by omega, by
        rw [Nat.zero_mul]
        omega⟩
    · have hrelocation : 0 < (headerAt b).relocationCount.toNat := by omega
      exact ⟨_, (reserved_relocation (j := 25) hrelocation (by omega)).mpr (by omega), by omega, by
        rw [Nat.zero_mul]
        omega⟩

theorem canonical_of_no_records {b : List UInt8} (h : ¬HasRecords b) : Canonical b := by
  have hcount : ¬0 < (headerAt b).sectionCount.toNat + (headerAt b).symbolCount.toNat
    + (headerAt b).relocationCount.toNat := h
  have hs : (headerAt b).symbolsAt = kHeaderSize + (headerAt b).sectionCount.toNat * 48 := rfl
  have hr : (headerAt b).relocationsAt
    = (headerAt b).symbolsAt + (headerAt b).symbolCount.toNat * 32 := rfl
  have hd : (headerAt b).debugAt
    = (headerAt b).relocationsAt + (headerAt b).relocationCount.toNat * 32 := rfl
  exact {
    reserved := fun i _ hi => by
      rcases hi with hi | hi | hi <;> omega
    defined := fun k hk => by omega
    bss := fun k hk => by omega
    sizes := fun k hk => by omega }

/-- Whatever its reserved bytes are, an accepted file is canonical exactly when it has no record
with a reserved byte. -/
theorem canonical_iff (b : List UInt8) :
    (∀ b' o, SameContent b b' → readObjectFromBuffer b' = .ok o → Canonical b') ↔
      (∀ o, readObjectFromBuffer (reseal b) ≠ .ok o) ∨ ¬HasRecords b := by
  refine reader.canonical_iff Canonical.reserved canonical_of_no_records ?_ ?_ b
  · intro b b' hsame hrecords
    obtain ⟨checksum, hheader⟩ := SameContent.header hsame
    rw [HasRecords, hheader] at hrecords
    exact hrecords
  · intro b o hread hrecords
    exact exists_reserved hrecords (accepted_of_read hread).tables

end Object
end MiniTool
