import MiniToolchain.Common.Binary
import MiniToolchain.Common.Checksum

/-!
# The layout the two file formats share

A file is a 64-byte header, the record tables, the string table and a data blob.  The last half of
the header locates the string table and the blob, and holds the file size and the checksum of
everything after the header; the writers patch it in when the body is known, in the same way.

## Main definitions

* `Trailer` — the last 32 bytes of a header.
* `sealFile`, `file` — the end of both writers, and the bytes it produces.
* `checkContents`, `extents` — the size, checksum and layout checks of both readers.

* `Output`, `Writes` — the growing parts of a file, and what a turn of a writer loop does to them.

## Main results

* `Writes.foldl` — a writer loop appends one record for each entry.
* `sealFile_eq_ok` — the file a writer produces.
* `checkContents_file`, `extents_file` — such a file passes the checks of the readers, which find
  its string table and its blob.
* `extents_congr` — the layout check does not look into the tables.
-/

namespace MiniTool
namespace Binary

open ByteOrder

/-- The size of either header. -/
abbrev kHeaderSize : ℕ := 64

/-! ### Writing -/

/-- Byte offsets of the header fields that are patched after the body is built. -/
abbrev kStringOffsetField : ℕ := 32
abbrev kStringSizeField : ℕ := 40
abbrev kBlobOffsetField : ℕ := 48
abbrev kFileSizeField : ℕ := 56
abbrev kChecksumField : ℕ := 60

/-- Writes the fields that are patched later as zeros. -/
def Writer.unpatched (header : Writer) : Writer :=
  ((((header.u64v 0).u64v 0).u64v 0).u32v 0).u32v 0

/-- The end of both writers: patch the header, concatenate, and store the checksum. -/
def sealFile (tooLarge : String) (header tables : Writer) (strings : List UInt8) (blob : Writer) :
    Except String (List UInt8) :=
  let stringOffset := kHeaderSize + tables.size
  let blobOffset := stringOffset + strings.length
  let fileSize := blobOffset + blob.size
  if fileSize > 0xFFFFFFFF then .error tooLarge
  else
    let header := header.patchU64 kStringOffsetField (UInt64.ofNat stringOffset)
    let header := header.patchU64 kStringSizeField (UInt64.ofNat strings.length)
    let header := header.patchU64 kBlobOffsetField (UInt64.ofNat blobOffset)
    let header := header.patchU32 kFileSizeField (UInt32.ofNat fileSize)
    let buffer : Writer := ⟨header.bytes ++ tables.bytes ++ strings ++ blob.bytes⟩
    let checksum := crc32 (buffer.bytes.drop kHeaderSize)
    .ok (buffer.patchU32 kChecksumField checksum).bytes

/-! ### Reading -/

/-- The last 32 bytes of a header. -/
structure Trailer where
  stringOffset : UInt64
  stringSize : UInt64
  blobOffset : UInt64
  fileSize : UInt32
  checksum : UInt32
  deriving DecidableEq

def Trailer.read : Read Trailer := do
  let stringOffset ← Reader.u64v
  let stringSize ← Reader.u64v
  let blobOffset ← Reader.u64v
  let fileSize ← Reader.u32v
  let checksum ← Reader.u32v
  return { stringOffset, stringSize, blobOffset, fileSize, checksum }

/-- The size and checksum checks of both readers. -/
def checkContents (kind : String) (buffer : List UInt8) (trailer : Trailer) : Except String Unit :=
  if trailer.fileSize.toNat ≠ buffer.length then
    .error s!"{kind} claims to be {trailer.fileSize} bytes but is {buffer.length}"
  else
    let actual := crc32 (buffer.drop kHeaderSize)
    if actual ≠ trailer.checksum then
      let claimed := hexText 8 trailer.checksum.toNat
      let found := hexText 8 actual.toNat
      .error s!"{kind} checksum mismatch: header says 0x{claimed}, contents hash to 0x{found}"
    else .ok ()

/-- The layout check of both readers, and the string table and blob it yields.  The additions are
those of `u64`, which wrap. -/
def extents (kind : String) (buffer : List UInt8) (trailer : Trailer) (tablesEnd : ℕ) :
    Except String (List UInt8 × List UInt8) :=
  if tablesEnd > buffer.length ∨ trailer.stringOffset.toNat ≠ tablesEnd ∨
      (trailer.stringOffset + trailer.stringSize).toNat > buffer.length ∨
      trailer.blobOffset ≠ trailer.stringOffset + trailer.stringSize ∨
      trailer.blobOffset.toNat > buffer.length then
    .error s!"{kind} table layout is inconsistent"
  else do
    let stringTable ← Reader.rawAt buffer trailer.stringOffset trailer.stringSize
    return (stringTable, buffer.drop trailer.blobOffset.toNat)

/-! ### The file a writer produces -/

/-- The bytes of a trailer. -/
def Trailer.toBytes (t : Trailer) : List UInt8 :=
  littleEndian 8 t.stringOffset ++ (littleEndian 8 t.stringSize ++ (littleEndian 8 t.blobOffset ++
    (littleEndian 4 t.fileSize.toUInt64 ++ littleEndian 4 t.checksum.toUInt64)))

/-- The trailer of a file with the given tables, string table and blob. -/
def Trailer.of (tables strings blob : List UInt8) : Trailer where
  stringOffset := UInt64.ofNat (kHeaderSize + tables.length)
  stringSize := UInt64.ofNat strings.length
  blobOffset := UInt64.ofNat (kHeaderSize + tables.length + strings.length)
  fileSize := UInt32.ofNat (kHeaderSize + tables.length + strings.length + blob.length)
  checksum := crc32 (tables ++ (strings ++ blob))

/-- A file: the first half of its header, the trailer, the tables, the strings and the blob. -/
def file (head tables strings blob : List UInt8) : List UInt8 :=
  head ++ ((Trailer.of tables strings blob).toBytes ++ (tables ++ (strings ++ blob)))

@[simp] theorem Trailer.length_toBytes (t : Trailer) : t.toBytes.length = 32 := by
  simp [Trailer.toBytes]

theorem patchU64_append {pre old post : List UInt8} {offset : ℕ} (hpre : pre.length = offset)
    (hold : old.length = 8) (value : UInt64) :
    (Writer.patchU64 ⟨pre ++ (old ++ post)⟩ offset value)
      = ⟨pre ++ (littleEndian 8 value ++ post)⟩ := by
  subst hpre
  exact congrArg Writer.mk (take_append_store hold value)

theorem patchU32_append {pre old post : List UInt8} {offset : ℕ} (hpre : pre.length = offset)
    (hold : old.length = 4) (value : UInt32) :
    (Writer.patchU32 ⟨pre ++ (old ++ post)⟩ offset value)
      = ⟨pre ++ (littleEndian 4 value.toUInt64 ++ post)⟩ := by
  subst hpre
  exact congrArg Writer.mk (take_append_store hold value.toUInt64)

/-- The header after the four patches; the checksum is still zero. -/
theorem patched_header {head : List UInt8} (hhead : head.length = 32) (a b c : UInt64)
    (d : UInt32) :
    ((((Writer.unpatched ⟨head⟩).patchU64 kStringOffsetField a).patchU64
      kStringSizeField b).patchU64
      kBlobOffsetField c).patchU32 kFileSizeField d
      = ⟨head ++ (littleEndian 8 a ++ (littleEndian 8 b ++ (littleEndian 8 c
          ++ (littleEndian 4 d.toUInt64 ++ littleEndian 4 (0 : UInt32).toUInt64))))⟩ := by
  simp only [Writer.unpatched, Writer.u64v, Writer.u32v, Writer.word, List.append_assoc]
  rw [patchU64_append hhead (by simp), ← List.append_assoc head,
    patchU64_append (by simp [hhead]) (by simp), ← List.append_assoc (head ++ _),
    patchU64_append (by simp [hhead]) (by simp), ← List.append_assoc ((head ++ _) ++ _),
    patchU32_append (by simp [hhead]) (by simp)]
  simp only [List.append_assoc]

/-- The file: the first half of the header, the trailer, the tables, the strings and the blob. -/
theorem sealFile_eq_ok {tooLarge : String} {head : List UInt8} (hhead : head.length = 32)
    {tables blob : Writer} {strings buffer : List UInt8} :
    sealFile tooLarge (Writer.unpatched ⟨head⟩) tables strings blob = .ok buffer ↔
      kHeaderSize + tables.size + strings.length + blob.size < 2 ^ 32 ∧
      buffer = file head tables.bytes strings blob.bytes := by
  simp only [sealFile, patched_header hhead, Writer.size]
  split_ifs with hsize
  · constructor
    · rintro ⟨⟩
    · rintro ⟨h, _⟩
      omega
  · -- The first 60 bytes, the checksum field, and what the checksum covers.
    obtain ⟨pre, hpre⟩ : ∃ pre, pre = head ++ (littleEndian 8 (UInt64.ofNat
        (kHeaderSize + tables.bytes.length)) ++ (littleEndian 8 (UInt64.ofNat strings.length) ++
        (littleEndian 8 (UInt64.ofNat (kHeaderSize + tables.bytes.length + strings.length)) ++
        littleEndian 4 (UInt32.ofNat (kHeaderSize + tables.bytes.length + strings.length
          + blob.bytes.length)).toUInt64))) := ⟨_, rfl⟩
    have hlen : pre.length = kChecksumField := by simp [hpre, hhead]
    have hsplit : ∀ field rest : List UInt8, head ++ (littleEndian 8 (UInt64.ofNat
        (kHeaderSize + tables.bytes.length)) ++ (littleEndian 8 (UInt64.ofNat strings.length) ++
        (littleEndian 8 (UInt64.ofNat (kHeaderSize + tables.bytes.length + strings.length)) ++
        (littleEndian 4 (UInt32.ofNat (kHeaderSize + tables.bytes.length + strings.length
          + blob.bytes.length)).toUInt64 ++ (field ++ rest))))) = pre ++ (field ++ rest) := by
      intro field rest
      simp only [hpre, List.append_assoc]
    have hdrop : (pre ++ (littleEndian 4 (0 : UInt32).toUInt64 ++ (tables.bytes ++ (strings
        ++ blob.bytes)))).drop kHeaderSize = tables.bytes ++ (strings ++ blob.bytes) := by
      rw [← List.append_assoc]
      exact List.drop_left' (by simp [hlen])
    simp only [List.append_assoc, hsplit, hdrop, patchU32_append hlen (length_littleEndian _ _),
      file, Trailer.toBytes, Trailer.of, Except.ok.injEq]
    constructor
    · rintro rfl
      exact ⟨by omega, rfl⟩
    · rintro ⟨_, rfl⟩
      rfl

/-! ### What a reader finds -/

/-- The trailer at the front of some bytes. -/
def Trailer.ofBytes (bytes : List UInt8) : Trailer where
  stringOffset := load 8 bytes
  stringSize := load 8 (bytes.drop 8)
  blobOffset := load 8 (bytes.drop 16)
  fileSize := (load 4 (bytes.drop 24)).toUInt32
  checksum := (load 4 (bytes.drop 28)).toUInt32

theorem Trailer.read_fixedWidth : Reader.FixedWidth Trailer.read 32 Trailer.ofBytes := by
  have h := Reader.FixedWidth.u64v.bind fun stringOffset =>
    Reader.FixedWidth.u64v.bind fun stringSize =>
    Reader.FixedWidth.u64v.bind fun blobOffset =>
    Reader.FixedWidth.u32v.bind fun fileSize =>
    Reader.FixedWidth.u32v.bind fun checksum =>
    Reader.FixedWidth.pure
      ({ stringOffset, stringSize, blobOffset, fileSize, checksum } : Trailer)
  simp only [List.drop_drop] at h
  exact h

theorem Trailer.ofBytes_toBytes (t : Trailer) (rest : List UInt8) :
    Trailer.ofBytes (t.toBytes ++ rest) = t := by
  simp [Trailer.ofBytes, Trailer.toBytes, List.append_assoc]

section

variable {head tables strings blob : List UInt8}

theorem length_file (hhead : head.length = 32) : (file head tables strings blob).length
    = kHeaderSize + tables.length + strings.length + blob.length := by
  simp only [file, List.length_append, hhead, Trailer.length_toBytes]
  ring

theorem drop_file (hhead : head.length = 32) :
    (file head tables strings blob).drop kHeaderSize = tables ++ (strings ++ blob) := by
  rw [file, ← List.append_assoc]
  exact List.drop_left' (by simp [hhead])

/-- The size and checksum checks pass on a file a writer produced. -/
theorem checkContents_file (kind : String) (hhead : head.length = 32)
    (hsize : kHeaderSize + tables.length + strings.length + blob.length < 2 ^ 32) :
    checkContents kind (file head tables strings blob) (Trailer.of tables strings blob)
      = .ok () := by
  have hfile : (Trailer.of tables strings blob).fileSize.toNat
      = kHeaderSize + tables.length + strings.length + blob.length :=
    UInt32.toNat_ofNat'.trans (Nat.mod_eq_of_lt hsize)
  have hsum : crc32 (tables ++ (strings ++ blob)) = (Trailer.of tables strings blob).checksum := rfl
  rw [checkContents, length_file hhead, drop_file hhead, hfile, if_neg (not_not.mpr rfl), hsum]
  exact if_neg (not_not.mpr rfl)

/-- The layout check passes on a file a writer produced, and finds the two regions. -/
theorem extents_file (kind : String) (hhead : head.length = 32)
    (hsize : kHeaderSize + tables.length + strings.length + blob.length < 2 ^ 32) :
    extents kind (file head tables strings blob) (Trailer.of tables strings blob)
      (kHeaderSize + tables.length) = .ok (strings, blob) := by
  have hat : (file head tables strings blob).drop (kHeaderSize + tables.length)
      = strings ++ blob := by
    rw [← List.drop_drop, drop_file hhead, List.drop_left]
  have hoffset : (Trailer.of tables strings blob).stringOffset.toNat
      = kHeaderSize + tables.length := by
    rw [Trailer.of, UInt64.toNat_ofNat', Nat.mod_eq_of_lt (by omega)]
  have hstrings : (Trailer.of tables strings blob).stringSize.toNat = strings.length := by
    rw [Trailer.of, UInt64.toNat_ofNat', Nat.mod_eq_of_lt (by omega)]
  have hblob : (Trailer.of tables strings blob).blobOffset.toNat
      = kHeaderSize + tables.length + strings.length := by
    rw [Trailer.of, UInt64.toNat_ofNat', Nat.mod_eq_of_lt (by omega)]
  have hsum : (Trailer.of tables strings blob).blobOffset
      = (Trailer.of tables strings blob).stringOffset
        + (Trailer.of tables strings blob).stringSize := by
    rw [← UInt64.toNat_inj, UInt64.toNat_add, hblob, hoffset, hstrings,
      Nat.mod_eq_of_lt (by omega)]
  rw [extents, if_neg, Reader.rawAt, if_neg]
  · rw [hoffset, hat, hstrings, List.take_left, hblob, ← List.drop_drop, hat, List.drop_left]
    rfl
  · rw [hoffset, hstrings, length_file hhead]
    omega
  · rw [← hsum, hblob, hoffset, length_file hhead]
    simp only [ne_eq, not_true_eq_false, false_or]
    omega

end

/-- The tables are inside the buffer if the layout check passes. -/
theorem le_of_extents_eq_ok {kind : String} {buffer : List UInt8} {trailer : Trailer}
    {tablesEnd : ℕ} {regions : List UInt8 × List UInt8}
    (h : extents kind buffer trailer tablesEnd = .ok regions) : tablesEnd ≤ buffer.length := by
  rw [extents] at h
  split_ifs at h with hlayout
  omega

/-- The layout check reads nothing before the end of the tables. -/
theorem extents_congr (kind : String) {buffer other : List UInt8} (trailer : Trailer)
    {tablesEnd : ℕ} (hlen : buffer.length = other.length) (hshort : buffer.length < 2 ^ 32)
    (hdrop : buffer.drop tablesEnd = other.drop tablesEnd) :
    extents kind buffer trailer tablesEnd = extents kind other trailer tablesEnd := by
  rw [extents, extents, ← hlen]
  split_ifs with hlayout
  · rfl
  · obtain ⟨_, hoffset, _, hblob, _⟩ := by simpa only [not_or, not_not] using hlayout
    rw [Reader.rawAt, Reader.rawAt, ← hlen, hoffset, hdrop]
    split_ifs with hregion
    · rfl
    · have hge : trailer.blobOffset.toNat = tablesEnd + trailer.stringSize.toNat := by
        rw [hblob, UInt64.toNat_add, hoffset, Nat.mod_eq_of_lt (by omega)]
      rw [hge, ← List.drop_drop, hdrop, List.drop_drop]

/-! ### Writing tables -/

/-- The parts of a file that grow while its tables are written. -/
structure Output where
  strings : StringTable := {}
  tables : Writer := {}
  blob : Writer := {}

/-- A loop whose every turn appends `w` bytes to the tables. -/
theorem size_foldl {write : Output → α → Output} {w : ℕ}
    (h : ∀ out x, (write out x).tables.size = out.tables.size + w) (xs : List α) (out : Output) :
    (xs.foldl write out).tables.size = out.tables.size + xs.length * w := by
  induction xs generalizing out with
  | nil => simp
  | cons x xs ih =>
    rw [List.foldl_cons, ih, h, List.length_cons]
    ring

/-- What a piece of a writer does: the strings and the blob only grow, and it appends bytes to the
tables which, with every later state of the strings and the blob, satisfy `Reads`. -/
structure Writes (write : Output → Output)
    (Reads : List UInt8 → List UInt8 → List UInt8 → Prop) : Prop where
  strings_grow : ∀ out, out.strings.bytes <+: (write out).strings.bytes
  blob_grow : ∀ out, out.blob.bytes <+: (write out).blob.bytes
  sound : ∀ out, out.strings.Sound → (write out).strings.bytes.length < 2 ^ 32 →
    (write out).strings.Sound
  tables : ∀ out strings blob, out.strings.Sound →
    (write out).strings.bytes <+: strings → strings.length < 2 ^ 32 →
    (write out).blob.bytes <+: blob → blob.length < 2 ^ 32 →
    ∃ bytes, (write out).tables.bytes = out.tables.bytes ++ bytes ∧ Reads strings blob bytes

namespace Writes

theorem id : Writes (fun out => out) fun _ _ bytes => bytes = [] where
  strings_grow := fun _ => List.prefix_refl _
  blob_grow := fun _ => List.prefix_refl _
  sound := fun _ hsound _ => hsound
  tables := fun _ _ _ _ _ _ _ _ => ⟨[], by simp, rfl⟩

/-- One piece after another. -/
theorem comp {write next : Output → Output}
    {Reads Reads' : List UInt8 → List UInt8 → List UInt8 → Prop} (h : Writes write Reads)
    (h' : Writes next Reads') : Writes (fun out => next (write out)) fun strings blob bytes =>
      ∃ first second, bytes = first ++ second ∧ Reads strings blob first ∧
        Reads' strings blob second where
  strings_grow := fun out => (h.strings_grow out).trans (h'.strings_grow _)
  blob_grow := fun out => (h.blob_grow out).trans (h'.blob_grow _)
  sound := fun out hsound hlen =>
    h'.sound _ (h.sound out hsound ((h'.strings_grow _).length_le.trans_lt hlen)) hlen
  tables := fun out strings blob hsound hstrings hslen hblob hblen => by
    have hs := (h'.strings_grow (write out)).trans hstrings
    obtain ⟨first, hfirst, hreads⟩ := h.tables out strings blob hsound hs hslen
      ((h'.blob_grow _).trans hblob) hblen
    obtain ⟨second, hsecond, hreads'⟩ := h'.tables (write out) strings blob
      (h.sound out hsound (hs.length_le.trans_lt hslen)) hstrings hslen hblob hblen
    exact ⟨first ++ second, by rw [hsecond, hfirst, List.append_assoc], first, second, rfl, hreads,
      hreads'⟩

/-- A writer loop appends one record for each entry, and each reads as its entry. -/
theorem foldl {write : Output → α → Output} {encode : ρ → List UInt8}
    {reads : List UInt8 → List UInt8 → ρ → α → Prop} {xs : List α}
    (h : ∀ x ∈ xs, Writes (write · x) fun strings blob bytes =>
      ∃ fields, bytes = encode fields ∧ reads strings blob fields x) :
    Writes (fun out => xs.foldl write out) fun strings blob bytes =>
      ∃ table, bytes = table.flatMap encode ∧ List.Forall₂ (reads strings blob) table xs := by
  induction xs with
  | nil =>
    exact { id with
      tables := fun _ _ _ _ _ _ _ _ => ⟨[], by simp, [], rfl, List.Forall₂.nil⟩ }
  | cons x xs ih =>
    have hall := (h x (by simp)).comp (ih fun y hy => h y (List.mem_cons_of_mem _ hy))
    refine { hall with tables := fun out strings blob hsound hstrings hslen hblob hblen => ?_ }
    obtain ⟨bytes, hbytes, _, _, rfl, ⟨fields, rfl, hfields⟩, table, rfl, htable⟩ :=
      hall.tables out strings blob hsound hstrings hslen hblob hblen
    exact ⟨_, hbytes, fields :: table, List.flatMap_cons.symm, List.Forall₂.cons hfields htable⟩

end Writes

end Binary
end MiniTool
