import MiniToolchain.Common.Corruption
import MiniToolchain.Executable.ExecutableIo

/-!
# One changed byte of an executable

Every field of the header of an executable but one is pinned, as in an object file.  The entry point
lies before what the checksum covers, and nothing else in the file repeats it: the reader only asks
that it is a place where a program may start.

## Main definitions

* `HeaderFits` — the header of a buffer passes its checks.
* `EntersCode e entry` — `entry` is a place where the image of `e` may start.
* `entryAt` — the entry point of a buffer.

## Main results

* `headerFits_of_read`, `headerFits_of_write` — the reader checks it, and the writer produces it.
* `executable_corruption_detected` — a written file with one byte changed is rejected, or the byte
  belongs to the entry point and the program may start there as well.
* `altered_entry_point` — then the reader accepts the file, and the program starts there.
-/

namespace MiniTool
namespace Executable

open ByteOrder Binary Checked

/-- The header of a buffer passes its checks. -/
structure HeaderFits (b : List UInt8) : Prop where
  length : kHeaderSize ≤ b.length
  magic : b.take 4 = kExeMagic
  version : (headerAt b).version = kExeVersion
  headerSize : (headerAt b).headerSize.toNat = kHeaderSize
  trailer : (headerAt b).trailer.Fits b (headerAt b).tablesEnd

/-- What an accepted buffer passes. -/
theorem read_eq_ok {b : List UInt8} {e : Executable} (h : readExecutableFromBuffer b = .ok e) :
    HeaderFits b ∧ ∃ strings blob,
      extents "executable" b (headerAt b).trailer (headerAt b).tablesEnd = .ok (strings, blob) ∧
      tablesOf (headerAt b) strings blob b = .ok e ∧ validate e = .ok () := by
  by_cases hlen : kHeaderSize ≤ b.length
  · rw [readExecutableFromBuffer_eq hlen] at h
    obtain ⟨_, hmagic, h⟩ := bind_eq_ok.mp h
    obtain ⟨_, hheader, h⟩ := bind_eq_ok.mp h
    obtain ⟨⟨strings, blob⟩, hextents, h⟩ := bind_eq_ok.mp h
    obtain ⟨e', htables, h⟩ := bind_eq_ok.mp h
    obtain ⟨_, hvalid, h⟩ := bind_eq_ok.mp h
    obtain ⟨_, hversion, hheader⟩ := bind_eq_ok.mp hheader
    obtain ⟨_, hsize, hcontents⟩ := bind_eq_ok.mp hheader
    rw [reject_eq_ok, not_not] at hmagic hversion hsize
    cases h
    exact ⟨⟨hlen, hmagic, hversion, hsize, fits_of_checks hcontents hextents⟩, strings, blob,
      hextents, htables, hvalid⟩
  · unfold readExecutableFromBuffer at h
    obtain ⟨_, hshort, -⟩ := bind_eq_ok.mp h
    rw [reject_eq_ok] at hshort
    exact absurd (not_lt.mp hshort) hlen

theorem headerFits_of_write {e : Executable} {b : List UInt8}
    (h : writeExecutableToBuffer e = .ok b) : HeaderFits b := by
  obtain ⟨-, hsize, rfl⟩ := writeExecutable_eq_ok h
  have hhead := length_writeHeader e
  refine ⟨by rw [length_file hhead]; omega, magic_file, ?_, ?_, ?_⟩
  · rw [headerAt_file]
    rfl
  · rw [headerAt_file]
    rfl
  · rw [headerAt_file, tablesEnd_headerOf (by omega)]
    exact fits_file hhead hsize

section

variable {b : List UInt8} {k : ℕ} {v : UInt8}

theorem trailer_headerAt (b : List UInt8) : (headerAt b).trailer = trailerAt b := by
  simp only [headerAt, Header.ofBytes, trailerAt, List.drop_drop]

/-- Only one value of a byte fits, unless the byte belongs to the entry point. -/
theorem eq_of_headerFits (hb : k < b.length) (hk : ¬(8 ≤ k ∧ k < 16)) (hfits : HeaderFits b)
    (hfits' : HeaderFits (b.set k v)) : v = b[k] := by
  have hlen : 64 ≤ b.length := hfits.length
  have hend : (headerAt (b.set k v)).tablesEnd = (headerAt b).tablesEnd := by
    by_cases hbody : 32 ≤ k
    · simp only [Header.tablesEnd, Header.sourcesAt, Header.debugAt, Header.symbolsAt, headerAt,
        Header.ofBytes, List.drop_drop]
      simp (disch := omega) only [load_set]
    · rw [← hfits.trailer.stringOffset, ← hfits'.trailer.stringOffset, trailer_headerAt,
        trailer_headerAt, trailerAt_set (by omega)]
  by_cases hbody : 32 ≤ k
  · refine eq_of_fits hfits.length hbody hb (trailer_headerAt b ▸ hfits.trailer) ?_
    rw [← trailer_headerAt, ← hend]
    exact hfits'.trailer
  · have hversion := hfits'.version.trans hfits.version.symm
    have hsize := hfits'.headerSize.trans hfits.headerSize.symm
    simp only [Header.tablesEnd, Header.sourcesAt, Header.debugAt, Header.symbolsAt, headerAt,
      Header.ofBytes, List.drop_drop, Nat.reduceAdd, kSegmentRecordSize, kSymbolRecordSize,
      kDebugRecordSize, kSourceRecordSize] at hend hversion hsize
    -- the other counts are the same, so the end of the tables determines this one
    have hcount : ∀ n ∈ [16, 20, 24, 28], n ≤ k → k < n + 4 → v = b[k] := by
      intro n hn hlo hhi
      refine eq_of_dword ⟨hlo, hhi⟩ ?_ ?_ hb
      · simp only [List.mem_cons, List.not_mem_nil, or_false] at hn
        omega
      · rw [← UInt32.toNat_inj]
        simp only [List.mem_cons, List.not_mem_nil, or_false] at hn
        rcases hn with rfl | rfl | rfl | rfl <;>
          simp (disch := omega) only [load_set] at hend <;> omega
    by_cases hmagic : k < 4
    · have hbytes := hfits'.magic.trans hfits.magic.symm
      have hbyte := congrArg (fun bytes => bytes[k]?) hbytes
      simpa [List.getElem?_take, hmagic, hb] using hbyte
    · by_cases hsizeField : k < 8
      · by_cases hversionField : k < 6
        · exact eq_of_half (by omega) (by omega) hversion hb
        · exact eq_of_half (by omega) (by omega) (UInt16.toNat_inj.mp hsize) hb
      · exact hcount (k / 4 * 4) (by
          simp only [List.mem_cons, List.not_mem_nil, or_false]
          omega) (by omega) (by omega)

end

/-! ### Where a program may start -/

/-- The entry point of a buffer. -/
def entryAt (b : List UInt8) : UInt64 := load 8 (b.drop 8)

/-- The image may start at `entry`: it is aligned and inside an executable segment. -/
def EntersCode (e : Executable) (entry : UInt64) : Prop :=
  entry % UInt64.ofNat Isa.kInstructionSize = 0 ∧
    ∃ segment, e.findSegment entry = some segment ∧ hasFlag segment.flags SegmentFlags.exec = true

theorem checkEntry_eq_ok {e : Executable} : checkEntry e = .ok () ↔ EntersCode e e.entryPoint := by
  unfold checkEntry EntersCode
  dsimp only
  by_cases haligned : e.entryPoint % UInt64.ofNat Isa.kInstructionSize = 0
  · cases hfind : e.findSegment e.entryPoint with
    | none => simp [haligned]
    | some segment =>
      cases hexec : hasFlag segment.flags SegmentFlags.exec <;> simp [haligned, hexec]
  · simp [haligned]

theorem entersCode_of_validate {e : Executable} (h : validate e = .ok ()) :
    EntersCode e e.entryPoint :=
  checkEntry_eq_ok.mp (validate_eq_ok.mp h).entry

/-- The segments are mapped alike. -/
structure Segment.MappedAs (s t : Segment) : Prop where
  address : s.virtualAddress = t.virtualAddress
  size : s.virtualSize = t.virtualSize
  flags : s.flags = t.flags

/-- Where a program may start depends on how its segments are mapped only. -/
theorem EntersCode.congr {e e' : Executable} {entry : UInt64}
    (hsegments : List.Forall₂ Segment.MappedAs e.segments e'.segments)
    (h : EntersCode e entry) : EntersCode e' entry := by
  obtain ⟨haligned, segment, hfind, hexec⟩ := h
  refine ⟨haligned, ?_⟩
  unfold findSegment at hfind ⊢
  generalize e.segments = ss at hsegments hfind
  generalize e'.segments = ts at hsegments ⊢
  induction hsegments with
  | nil => cases hfind
  | @cons s t ss ts hst _ ih =>
    rw [List.find?_cons, hst.address, hst.size] at hfind
    rw [List.find?_cons]
    split at hfind
    · cases hfind
      exact ⟨t, rfl, hst.flags ▸ hexec⟩
    · exact ih hfind

/-! ### The segments of a written file -/

/-- A record maps its segment. -/
structure SegmentRecord.Maps (fields : SegmentRecord) (s : Segment) : Prop where
  address : fields.virtualAddress = s.virtualAddress
  size : fields.virtualSize = s.virtualSize
  flags : fields.flags = s.flags

theorem SegmentRecord.maps_of_check {strings blob : List UInt8} {fields : SegmentRecord}
    {s : Segment} (h : SegmentRecord.check strings blob fields = .ok s) : fields.Maps s := by
  unfold SegmentRecord.check at h
  obtain ⟨_, -, h⟩ := bind_eq_ok.mp h
  obtain ⟨_, -, h⟩ := bind_eq_ok.mp h
  obtain ⟨_, -, h⟩ := bind_eq_ok.mp h
  cases h
  exact ⟨rfl, rfl, rfl⟩

/-- A loop whose every turn only appends to the tables. -/
theorem prefix_foldl {write : Output → α → Output}
    (h : ∀ out x, out.tables.bytes <+: (write out x).tables.bytes) (xs : List α) (out : Output) :
    out.tables.bytes <+: (xs.foldl write out).tables.bytes := by
  induction xs generalizing out with
  | nil => exact List.prefix_refl _
  | cons x xs ih => exact (h out x).trans (ih _)

theorem foldl_writeSegment (segments : List Segment) (out : Output) :
    ∃ table, (segments.foldl writeSegment out).tables.bytes
        = out.tables.bytes ++ table.flatMap SegmentRecord.toBytes ∧
      List.Forall₂ SegmentRecord.Maps table segments := by
  induction segments generalizing out with
  | nil => exact ⟨[], by simp, List.Forall₂.nil⟩
  | cons s segments ih =>
    obtain ⟨table, htable, hmaps⟩ := ih (writeSegment out s)
    obtain ⟨fields, hfirst, hmap⟩ : ∃ fields : SegmentRecord, fields.Maps s ∧
        (writeSegment out s).tables.bytes = out.tables.bytes ++ fields.toBytes := by
      refine ⟨⟨(out.strings.intern s.name).1, s.type.value, s.flags, s.virtualAddress,
        s.virtualSize, UInt64.ofNat out.blob.bytes.length, UInt64.ofNat s.data.length⟩,
        ⟨rfl, rfl, rfl⟩, ?_⟩
      simp [writeSegment, SegmentRecord.toBytes, Writer.u32v, Writer.u8v, Writer.u64v, Writer.word,
        Writer.pad, Writer.size, List.replicate]
    refine ⟨fields :: table, ?_, List.Forall₂.cons hfirst hmaps⟩
    rw [List.foldl_cons, htable, hmap, List.flatMap_cons, List.append_assoc]

/-- The body of a written file starts with the records of its segments. -/
theorem segments_of_write {e : Executable} {b : List UInt8}
    (h : writeExecutableToBuffer e = .ok b) :
    e.segments.length < 2 ^ 32 ∧ (headerAt b).segmentCount = UInt32.ofNat e.segments.length ∧
    ∃ table rest, b.drop kHeaderSize = table.flatMap SegmentRecord.toBytes ++ rest ∧
      List.Forall₂ SegmentRecord.Maps table e.segments := by
  obtain ⟨-, hsize, rfl⟩ := writeExecutable_eq_ok h
  have htables : (writeTables e).tables.bytes.length = e.segments.length * 40
    + e.symbols.length * 24 + e.debugInfo.length * 24 + e.sourceFiles.length * 4 :=
    size_writeTables e
  refine ⟨by omega, by rw [headerAt_file]; rfl, ?_⟩
  obtain ⟨table, htable, hmaps⟩ := foldl_writeSegment e.segments {}
  have hgrow : (e.segments.foldl writeSegment {}).tables.bytes <+:
      (writeTables e).tables.bytes := by
    refine ((prefix_foldl ?_ e.symbols _).trans (prefix_foldl ?_ e.debugInfo _)).trans
      (prefix_foldl ?_ e.sourceFiles _)
    · intro out x
      simp [writeSymbol, Writer.u32v, Writer.u8v, Writer.u64v, Writer.word, Writer.pad]
    · intro out x
      simp [writeDebugEntry, Writer.u32v, Writer.u64v, Writer.word, Writer.pad]
    · intro out x
      simp [writeSourceFile, Writer.u32v, Writer.word]
  obtain ⟨more, hmore⟩ := hgrow
  refine ⟨table, more ++ ((writeTables e).strings.bytes ++ (writeTables e).blob.bytes), ?_, hmaps⟩
  rw [drop_file (length_writeHeader e), ← hmore, htable]
  simp only [List.nil_append, List.append_assoc]

theorem mappedAs_of_checks {strings blob : List UInt8} {table : List SegmentRecord}
    {read written : List Segment}
    (hchecks : List.Forall₂ (fun x y => SegmentRecord.check strings blob x = .ok y) table read)
    (hmaps : List.Forall₂ SegmentRecord.Maps table written) :
    List.Forall₂ Segment.MappedAs read written := by
  induction hmaps generalizing read with
  | nil =>
    cases hchecks
    exact List.Forall₂.nil
  | cons hmap _ ih =>
    cases hchecks with
    | cons hcheck hchecks =>
      have hread := SegmentRecord.maps_of_check hcheck
      exact List.Forall₂.cons ⟨hread.address.symm.trans hmap.address,
        hread.size.symm.trans hmap.size, hread.flags.symm.trans hmap.flags⟩ (ih hchecks)

/-- What the tables say of the entry point and the segments. -/
theorem tablesOf_eq_ok {header : Header} {strings blob b : List UInt8} {e : Executable}
    (h : tablesOf header strings blob b = .ok e) : e.entryPoint = header.entryPoint ∧
      (RecordTable.records kSegmentRecordSize SegmentRecord.ofBytes header.segmentCount.toNat
        (b.drop kHeaderSize)).mapM (SegmentRecord.check strings blob) = .ok e.segments := by
  unfold tablesOf at h
  obtain ⟨segments, hchecks, h⟩ := bind_eq_ok.mp h
  obtain ⟨_, -, h⟩ := bind_eq_ok.mp h
  obtain ⟨_, -, h⟩ := bind_eq_ok.mp h
  obtain ⟨_, -, h⟩ := bind_eq_ok.mp h
  cases h
  exact ⟨rfl, hchecks⟩

/-- The segments the reader finds are mapped like those that were written. -/
theorem mappedAs_of_read {e e' : Executable} {b b' : List UInt8}
    (hwrite : writeExecutableToBuffer e = .ok b) (hread : readExecutableFromBuffer b' = .ok e')
    (hbody : b'.drop kHeaderSize = b.drop kHeaderSize)
    (hcount : (headerAt b').segmentCount = (headerAt b).segmentCount) :
    List.Forall₂ Segment.MappedAs e'.segments e.segments := by
  obtain ⟨hsmall, hsegments, table, rest, htable, hmaps⟩ := segments_of_write hwrite
  obtain ⟨-, strings, blob, -, htables, -⟩ := read_eq_ok hread
  have hchecks := (tablesOf_eq_ok htables).2
  rw [hcount, hsegments, UInt32.toNat_ofNat', Nat.mod_eq_of_lt hsmall, ← hmaps.length_eq, hbody,
    htable, RecordTable.records_flatMap SegmentRecord.length_toBytes SegmentRecord.ofBytes_toBytes,
    RecordTable.mapM_eq_ok_iff] at hchecks
  exact mappedAs_of_checks hchecks hmaps

/-! ### One changed byte -/

section

variable {b : List UInt8} {k : ℕ} (hk : 8 ≤ k ∧ k < 16) (v : UInt8)

include hk

theorem drop_set_entry {n : ℕ} (hn : kHeaderSize ≤ n) : (b.set k v).drop n = b.drop n := by
  have h64 : kHeaderSize = 64 := rfl
  rw [List.drop_set, if_pos (by omega)]

/-- The rest of the header does not depend on the entry point. -/
theorem headerAt_set_entry :
    headerAt (b.set k v) = { headerAt b with entryPoint := entryAt (b.set k v) } := by
  unfold headerAt Header.ofBytes entryAt Trailer.ofBytes
  simp only [List.drop_drop]
  simp (disch := omega) only [load_set]

end

theorem entryAt_eq {b : List UInt8} {e : Executable} (h : readExecutableFromBuffer b = .ok e) :
    e.entryPoint = entryAt b := by
  obtain ⟨-, strings, blob, -, htables, -⟩ := read_eq_ok h
  rw [(tablesOf_eq_ok htables).1]
  simp only [headerAt, Header.ofBytes, entryAt, List.drop_drop]

/-- A written file with one byte changed is rejected, or the byte belongs to the entry point and the
image may start where it now says. -/
theorem executable_corruption_detected (e : Executable) (b : List UInt8)
    (hwrite : writeExecutableToBuffer e = .ok b) (k : ℕ) (hk : k < b.length) (v : UInt8)
    (hv : v ≠ b[k]) :
    (∃ message, readExecutableFromBuffer (b.set k v) = .error message) ∨
      (8 ≤ k ∧ k < 16) ∧ EntersCode e (entryAt (b.set k v)) := by
  cases hread : readExecutableFromBuffer (b.set k v) with
  | error message => exact Or.inl ⟨message, rfl⟩
  | ok e' =>
    right
    obtain ⟨hfits', -, -, -, -, hvalid⟩ := read_eq_ok hread
    by_cases hentry : 8 ≤ k ∧ k < 16
    · refine ⟨hentry, ?_⟩
      rw [← entryAt_eq hread]
      exact (entersCode_of_validate hvalid).congr (mappedAs_of_read hwrite hread
        (drop_set_entry hentry v le_rfl) (by rw [headerAt_set_entry hentry v]))
    · exact absurd (eq_of_headerFits hk hentry (headerFits_of_write hwrite) hfits') hv

/-- The checks that remain when the entry point changes. -/
theorem validate_entry {e : Executable} {entry : UInt64} (h : validate e = .ok ())
    (henter : EntersCode e entry) : validate { e with entryPoint := entry } = .ok () := by
  obtain ⟨hversion, hne, hsegments, hapart, -, hfiles⟩ := validate_eq_ok.mp h
  exact validate_eq_ok.mpr
    ⟨hversion, hne, hsegments, hapart, checkEntry_eq_ok.mpr henter, hfiles⟩

/-- The tables do not depend on the header of the buffer. -/
theorem tablesOf_congr {header : Header} {strings blob b b' : List UInt8}
    (h : b.drop kHeaderSize = b'.drop kHeaderSize) :
    tablesOf header strings blob b = tablesOf header strings blob b' := by
  have hdrop : ∀ n, kHeaderSize ≤ n → b.drop n = b'.drop n := by
    intro n hn
    obtain ⟨m, rfl⟩ := Nat.exists_eq_add_of_le hn
    rw [← List.drop_drop, h, List.drop_drop]
  have hsymbols : kHeaderSize ≤ header.symbolsAt := Nat.le_add_right _ _
  have hdebug : header.symbolsAt ≤ header.debugAt := Nat.le_add_right _ _
  have hsources : header.debugAt ≤ header.sourcesAt := Nat.le_add_right _ _
  unfold tablesOf
  rw [h, hdrop _ hsymbols, hdrop _ (hsymbols.trans hdebug),
    hdrop _ (hsymbols.trans (hdebug.trans hsources))]

/-- The entry point of the header is that of the executable, and nothing else depends on it. -/
theorem tablesOf_entry {header : Header} {strings blob b : List UInt8} {e : Executable}
    (h : tablesOf header strings blob b = .ok e) (entry : UInt64) :
    tablesOf { header with entryPoint := entry } strings blob b
      = .ok { e with entryPoint := entry } := by
  unfold tablesOf at h ⊢
  obtain ⟨segments, hsegments, h⟩ := bind_eq_ok.mp h
  obtain ⟨symbols, hsymbols, h⟩ := bind_eq_ok.mp h
  obtain ⟨debugInfo, hdebug, h⟩ := bind_eq_ok.mp h
  obtain ⟨sources, hsources, h⟩ := bind_eq_ok.mp h
  cases h
  exact bind_eq_ok.mpr ⟨segments, hsegments, bind_eq_ok.mpr ⟨symbols, hsymbols,
    bind_eq_ok.mpr ⟨debugInfo, hdebug, bind_eq_ok.mpr ⟨sources, hsources, rfl⟩⟩⟩⟩

/-- Otherwise the reader accepts the file, and the program starts where it now says. -/
theorem altered_entry_point {e e' : Executable} {b : List UInt8}
    (hwrite : writeExecutableToBuffer e = .ok b) (hread : readExecutableFromBuffer b = .ok e')
    {k : ℕ} (hk : 8 ≤ k ∧ k < 16) {v : UInt8} (henter : EntersCode e (entryAt (b.set k v))) :
    readExecutableFromBuffer (b.set k v)
      = .ok { e' with entryPoint := entryAt (b.set k v) } := by
  obtain ⟨hfits, strings, blob, hextents, htables, hvalid⟩ := read_eq_ok hread
  have hlen : kHeaderSize ≤ (b.set k v).length := by
    rw [List.length_set]
    exact hfits.length
  have hmagic : (b.set k v).take 4 = kExeMagic := by
    rw [List.take_set, List.set_eq_of_length_le (by simp only [List.length_take]; omega)]
    exact hfits.magic
  have hheader := headerAt_set_entry (b := b) hk v
  have hsegments := mappedAs_of_read hwrite hread rfl rfl
  rw [readExecutableFromBuffer_eq hfits.length] at hread
  obtain ⟨_, -, hread⟩ := bind_eq_ok.mp hread
  obtain ⟨_, hcheck, -⟩ := bind_eq_ok.mp hread
  have hcheck' : checkHeader (b.set k v) (headerAt (b.set k v)) = .ok () := by
    rw [← hcheck, hheader]
    unfold checkHeader checkContents
    rw [List.length_set, drop_set_entry hk v le_rfl]
  have htablesEnd : (headerAt (b.set k v)).tablesEnd = (headerAt b).tablesEnd :=
    by rw [hheader]; rfl
  have hsymbols : kHeaderSize ≤ (headerAt b).symbolsAt := Nat.le_add_right _ _
  have hdebug : (headerAt b).symbolsAt ≤ (headerAt b).debugAt := Nat.le_add_right _ _
  have hsources : (headerAt b).debugAt ≤ (headerAt b).sourcesAt := Nat.le_add_right _ _
  have hend : (headerAt b).sourcesAt ≤ (headerAt b).tablesEnd := Nat.le_add_right _ _
  have hextents' : extents "executable" (b.set k v) (headerAt (b.set k v)).trailer
      (headerAt (b.set k v)).tablesEnd = .ok (strings, blob) := by
    rw [htablesEnd, hheader, ← hextents]
    refine extents_congr _ _ List.length_set ?_ (drop_set_entry hk v (by omega))
    rw [List.length_set, ← hfits.trailer.fileSize]
    exact UInt32.toNat_lt _
  have htables' : tablesOf (headerAt (b.set k v)) strings blob (b.set k v) =
      .ok { e' with entryPoint := entryAt (b.set k v) } := by
    rw [tablesOf_congr (drop_set_entry hk v le_rfl), hheader]
    exact tablesOf_entry htables _
  have hmapped : List.Forall₂ Segment.MappedAs e.segments e'.segments :=
    (hsegments.imp fun s t hst => ⟨hst.address.symm, hst.size.symm, hst.flags.symm⟩).flip
  rw [readExecutableFromBuffer_eq hlen, hmagic, reject_of_not (not_not.mpr rfl), ok_bind, hcheck',
    ok_bind, contentsOf, hextents', ok_bind]
  simp only [htables', ok_bind, validate_entry hvalid (henter.congr hmapped), pure_eq_ok]

/-- Two `NOP`s; the program starts at the first. -/
def twoNops : Executable where
  segments := [
    { type := .text, flags := SegmentFlags.read ||| SegmentFlags.exec, name := str ".text",
      virtualSize := 16, data := List.replicate 16 0 }]

def twoNopsBytes : List UInt8 := ((writeExecutableToBuffer twoNops).toOption).getD []

/-- A wrong count of symbols. -/
theorem executable_corruption_detected_two_nops :
    (∃ message, readExecutableFromBuffer (twoNopsBytes.set 20 1) = .error message) ∨
      (8 ≤ 20 ∧ 20 < 16) ∧ EntersCode twoNops (entryAt (twoNopsBytes.set 20 1)) :=
  executable_corruption_detected twoNops twoNopsBytes (by decide +kernel) 20 (by decide +kernel) 1
    (by decide)

/-- With its ninth byte changed, the file starts at the second `NOP`. -/
theorem entry_point_not_pinned :
    ¬∀ e b, writeExecutableToBuffer e = .ok b → ∀ k (hk : k < b.length) v, v ≠ b[k] →
      ∃ message, readExecutableFromBuffer (b.set k v) = .error message := by
  intro h
  have hwrite : writeExecutableToBuffer twoNops = .ok twoNopsBytes := by decide +kernel
  have hread : (readExecutableFromBuffer twoNopsBytes).isOk = true := by decide +kernel
  have henter : EntersCode twoNops (entryAt (twoNopsBytes.set 8 8)) := by
    rw [show entryAt (twoNopsBytes.set 8 8) = 8 by decide +kernel]
    exact ⟨by decide, _, show twoNops.findSegment 8 = some twoNops.segments[0] by rfl, by decide⟩
  obtain ⟨message, hmessage⟩ := h twoNops twoNopsBytes hwrite 8 (by decide +kernel) 8 (by decide)
  cases hfile : readExecutableFromBuffer twoNopsBytes with
  | error message =>
    rw [hfile] at hread
    cases hread
  | ok e' =>
    rw [altered_entry_point hwrite hfile ⟨le_rfl, by decide⟩ henter] at hmessage
    cases hmessage

end Executable
end MiniTool
