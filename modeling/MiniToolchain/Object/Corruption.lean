import MiniToolchain.Common.Corruption
import MiniToolchain.Object.ObjectIo

/-!
# One changed byte of an object file

Every field of the header of an object file is pinned: the magic number, the version, the header
size and the flags by their own checks, the counts by the end of the tables they add up to, and the
rest with the contents by the checks both formats share.

## Main definitions

* `HeaderFits` — the header of a buffer passes its checks.

## Main results

* `headerFits_of_read`, `headerFits_of_write` — the reader checks it, and the writer produces it.
* `object_corruption_detected` — a written file with one byte changed is rejected.
-/

namespace MiniTool
namespace Object

open ByteOrder Binary Checked

/-- The header of a buffer passes its checks. -/
structure HeaderFits (b : List UInt8) : Prop where
  length : kHeaderSize ≤ b.length
  magic : b.take 4 = kObjectMagic
  version : (headerAt b).version = kObjectVersion
  headerSize : (headerAt b).headerSize.toNat = kHeaderSize
  flags : (headerAt b).flags = 0
  trailer : (headerAt b).trailer.Fits b (headerAt b).tablesEnd

theorem headerFits_of_read {b : List UInt8} {o : ObjectFile}
    (h : readObjectFromBuffer b = .ok o) : HeaderFits b := by
  by_cases hlen : kHeaderSize ≤ b.length
  · rw [readObjectFromBuffer_eq hlen] at h
    obtain ⟨_, hmagic, h⟩ := bind_eq_ok.mp h
    obtain ⟨_, hheader, h⟩ := bind_eq_ok.mp h
    obtain ⟨regions, hextents, -⟩ := bind_eq_ok.mp h
    obtain ⟨_, hversion, hheader⟩ := bind_eq_ok.mp hheader
    obtain ⟨_, hsize, hheader⟩ := bind_eq_ok.mp hheader
    obtain ⟨_, hflags, hcontents⟩ := bind_eq_ok.mp hheader
    rw [reject_eq_ok, not_not] at hmagic hversion hsize hflags
    exact ⟨hlen, hmagic, hversion, hsize, hflags, fits_of_checks hcontents hextents⟩
  · unfold readObjectFromBuffer at h
    obtain ⟨_, hshort, -⟩ := bind_eq_ok.mp h
    rw [reject_eq_ok] at hshort
    exact absurd (not_lt.mp hshort) hlen

theorem headerFits_of_write {o : ObjectFile} {b : List UInt8}
    (h : writeObjectToBuffer o = .ok b) : HeaderFits b := by
  obtain ⟨_, -, hseal⟩ := bind_eq_ok.mp h
  have hhead := length_writeHeader o
  obtain ⟨hsize, rfl⟩ := (sealFile_eq_ok hhead).mp hseal
  simp only [Writer.size] at hsize
  have htables : (writeTables o).tables.bytes.length = o.sections.length * 48
    + o.symbols.symbols.length * 32 + o.relocations.length * 32 + o.debugInfo.length * 24
    + o.sourceFiles.length * 4 := size_writeTables o
  have hend := tablesEnd_headerOf (o := o) ⟨by omega, by omega, by omega, by omega, by omega⟩
    (Trailer.of (writeTables o).tables.bytes (writeTables o).strings.bytes
      (writeTables o).blob.bytes)
  refine ⟨by rw [length_file hhead]; omega, magic_file, ?_, ?_, ?_, ?_⟩
  · rw [headerAt_file]
    rfl
  · rw [headerAt_file]
    rfl
  · rw [headerAt_file]
    rfl
  · rw [headerAt_file, hend]
    exact fits_file hhead hsize

section

variable {b : List UInt8} {k : ℕ} {v : UInt8}

theorem trailer_headerAt (b : List UInt8) : (headerAt b).trailer = trailerAt b := by
  simp only [headerAt, Header.ofBytes, trailerAt, List.drop_drop]

/-- Only one value of a byte fits. -/
theorem eq_of_headerFits (hb : k < b.length) (hfits : HeaderFits b)
    (hfits' : HeaderFits (b.set k v)) : v = b[k] := by
  have hlen : 64 ≤ b.length := hfits.length
  have hend : (headerAt (b.set k v)).tablesEnd = (headerAt b).tablesEnd := by
    by_cases hbody : 32 ≤ k
    · simp only [Header.tablesEnd, Header.sourcesAt, Header.debugAt, Header.relocationsAt,
        Header.symbolsAt, headerAt, Header.ofBytes, List.drop_drop]
      simp (disch := omega) only [load_set]
    · rw [← hfits.trailer.stringOffset, ← hfits'.trailer.stringOffset, trailer_headerAt,
        trailer_headerAt, trailerAt_set (by omega)]
  by_cases hbody : 32 ≤ k
  · refine eq_of_fits hfits.length hbody hb (trailer_headerAt b ▸ hfits.trailer) ?_
    rw [← trailer_headerAt, ← hend]
    exact hfits'.trailer
  · have hversion := hfits'.version.trans hfits.version.symm
    have hsize := hfits'.headerSize.trans hfits.headerSize.symm
    have hflags := hfits'.flags.trans hfits.flags.symm
    simp only [Header.tablesEnd, Header.sourcesAt, Header.debugAt, Header.relocationsAt,
      Header.symbolsAt, headerAt, Header.ofBytes, List.drop_drop, Nat.reduceAdd, kSectionRecordSize,
      kSymbolRecordSize, kRelocationRecordSize, kDebugRecordSize, kSourceRecordSize]
      at hend hversion hsize hflags
    -- the other counts are the same, so the end of the tables determines this one
    have hcount : ∀ n ∈ [12, 16, 20, 24, 28], n ≤ k → k < n + 4 → v = b[k] := by
      intro n hn hlo hhi
      refine eq_of_dword ⟨hlo, hhi⟩ ?_ ?_ hb
      · simp only [List.mem_cons, List.not_mem_nil, or_false] at hn
        omega
      · rw [← UInt32.toNat_inj]
        simp only [List.mem_cons, List.not_mem_nil, or_false] at hn
        rcases hn with rfl | rfl | rfl | rfl | rfl <;>
          simp (disch := omega) only [load_set] at hend <;> omega
    by_cases hmagic : k < 4
    · have hbytes := hfits'.magic.trans hfits.magic.symm
      have hbyte := congrArg (fun bytes => bytes[k]?) hbytes
      simpa [List.getElem?_take, hmagic, hb] using hbyte
    · by_cases hflagsField : k < 12
      · by_cases hsizeField : k < 8
        · by_cases hversionField : k < 6
          · exact eq_of_half (by omega) (by omega) hversion hb
          · exact eq_of_half (by omega) (by omega) (UInt16.toNat_inj.mp hsize) hb
        · exact eq_of_dword (by omega) (by omega) hflags hb
      · exact hcount (k / 4 * 4) (by
          simp only [List.mem_cons, List.not_mem_nil, or_false]
          omega) (by omega) (by omega)

end

/-- A written file with one byte changed is rejected. -/
theorem object_corruption_detected (o : ObjectFile) (b : List UInt8)
    (hwrite : writeObjectToBuffer o = .ok b) (k : ℕ) (hk : k < b.length) (v : UInt8)
    (hv : v ≠ b[k]) : ∃ message, readObjectFromBuffer (b.set k v) = .error message := by
  cases hread : readObjectFromBuffer (b.set k v) with
  | error message => exact ⟨message, rfl⟩
  | ok o' =>
    exact absurd (eq_of_headerFits hk (headerFits_of_write hwrite) (headerFits_of_read hread)) hv

/-- An object file with one `NOP` and a label for it. -/
def nopObject : ObjectFile where
  sections := [{ name := str ".text", type := .text,
                 flags := SectionFlags.alloc ||| SectionFlags.exec,
                 alignment := 8, data := List.replicate 8 0, size := 8 }]
  symbols := ⟨[{ name := str "_start", binding := .global, type := .function, sectionId := 0,
                 defined := true }], List.pairwise_singleton _ _⟩
  debugInfo := [{ sectionId := 0, file := 0, offset := 0, line := 1, column := 1 }]
  sourceFiles := [str "nop.masm"]

def nopObjectBytes : List UInt8 := ((writeObjectToBuffer nopObject).toOption).getD []

/-- A wrong count of symbols. -/
theorem object_corruption_detected_nop :
    ∃ message, readObjectFromBuffer (nopObjectBytes.set 16 2) = .error message :=
  object_corruption_detected nopObject nopObjectBytes (by decide +kernel) 16 (by decide +kernel) 2
    (by decide)

end Object
end MiniTool
