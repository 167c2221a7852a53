import MiniToolchain.Common.ByteOrder
import MiniToolchain.Lib.Checked
import MiniToolchain.Lib.RecordTable

/-!
# Binary tables

What the two serialisers share: a writer that appends little-endian words and patches words it has
already written, a deduplicating string table, and a reader in which every access checks its own
bounds.

## Main definitions

* `Writer` — appending and patching.
* `StringTable`, `StringTable.intern`, `readString` — names stored once, each ended by a zero byte.
* `Reader`, `Read` — a cursor over untrusted bytes, and computations that move it or fail.
* `Reader.loop`, `Reader.readTable`, `Reader.tableAt` — the record loops.
* `Reader.FixedWidth` — a computation that consumes exactly `n` bytes and fails only on fewer.

## Main results

* `StringTable.intern_reads` — an interned name is read back from every later state of the table.
* `Reader.FixedWidth.bind` — widths add up, so a record of fields has a fixed width.
* `Reader.loop_eq`, `Reader.readTable_eq` — a record loop over enough bytes decodes the records of
  the table and checks them in order.
* `Reader.yields_tableAt` — so does one that first seeks to its table.
-/

namespace MiniTool
namespace Binary

open ByteOrder

/-- An unsigned number in upper-case hexadecimal, padded with zeros. -/
def hexText (width n : ℕ) : String :=
  let digits := (Nat.toDigits 16 n).map Char.toUpper
  String.ofList (List.replicate (width - digits.length) '0' ++ digits)

/-! ### Writing -/

/-- The bytes written so far. -/
structure Writer where
  bytes : List UInt8 := []

namespace Writer

def size (w : Writer) : ℕ := w.bytes.length

/-- Grows the buffer by one word and stores the word there. -/
def word (w : Writer) (width : ℕ) (value : UInt64) : Writer :=
  ⟨w.bytes ++ littleEndian width value⟩

def u8v (w : Writer) (value : UInt8) : Writer := ⟨w.bytes ++ [value]⟩
def u16v (w : Writer) (value : UInt16) : Writer := w.word 2 value.toUInt64
def u32v (w : Writer) (value : UInt32) : Writer := w.word 4 value.toUInt64
def u64v (w : Writer) (value : UInt64) : Writer := w.word 8 value
def i64v (w : Writer) (value : Int64) : Writer := w.word 8 value.toUInt64

def raw (w : Writer) (data : List UInt8) : Writer := ⟨w.bytes ++ data⟩

/-- Record padding. -/
def pad (w : Writer) (count : ℕ) : Writer := ⟨w.bytes ++ List.replicate count 0⟩

def patchU32 (w : Writer) (offset : ℕ) (value : UInt32) : Writer :=
  ⟨w.bytes.take offset ++ store 4 (w.bytes.drop offset) value.toUInt64⟩

def patchU64 (w : Writer) (offset : ℕ) (value : UInt64) : Writer :=
  ⟨w.bytes.take offset ++ store 8 (w.bytes.drop offset) value⟩

end Writer

/-- Storing over the middle of three parts. -/
theorem take_append_store {pre old post : List UInt8} {width : ℕ} (h : old.length = width)
    (value : UInt64) :
    (pre ++ (old ++ post)).take pre.length
        ++ store width ((pre ++ (old ++ post)).drop pre.length) value
      = pre ++ (littleEndian width value ++ post) := by
  rw [List.take_left, List.drop_left, store, ← h, List.drop_left]

/-! ### Fields -/

@[simp] theorem load_u64 (v : UInt64) (rest : List UInt8) : load 8 (littleEndian 8 v ++ rest) = v :=
  load_littleEndian_append (by omega) v.toNat_lt rest

@[simp] theorem load_u32 (v : UInt32) (rest : List UInt8) :
    (load 4 (littleEndian 4 v.toUInt64 ++ rest)).toUInt32 = v := by
  have hlt := v.toNat_lt
  rw [load_littleEndian_append (by omega) (by rw [UInt32.toNat_toUInt64]; omega),
    ← UInt32.toNat_inj, UInt64.toNat_toUInt32, UInt32.toNat_toUInt64, Nat.mod_eq_of_lt hlt]

@[simp] theorem load_u16 (v : UInt16) (rest : List UInt8) :
    (load 2 (littleEndian 2 v.toUInt64 ++ rest)).toUInt16 = v := by
  have hlt := v.toNat_lt
  rw [load_littleEndian_append (by omega) (by rw [UInt16.toNat_toUInt64]; omega),
    ← UInt16.toNat_inj, UInt64.toNat_toUInt16, UInt16.toNat_toUInt64, Nat.mod_eq_of_lt hlt]

/-- Skipping at least one field. -/
@[simp] theorem drop_littleEndian_append {width n : ℕ} (h : width ≤ n) (v : UInt64)
    (rest : List UInt8) : (littleEndian width v ++ rest).drop n = rest.drop (n - width) := by
  rw [List.drop_append, length_littleEndian, List.drop_eq_nil_of_le (by simpa using h),
    List.nil_append]

/-! ### The string table -/

/-- `offsets_` maps a name to the offset of its first byte in `bytes_`. -/
structure StringTable where
  bytes : List UInt8 := [0]
  offsets : List (Str × UInt32) := []

/-- The offset of `text`, inserted if new. -/
def StringTable.intern (t : StringTable) (text : Str) : UInt32 × StringTable :=
  match t.offsets.lookup text with
  | some offset => (offset, t)
  | none =>
    let offset := UInt32.ofNat t.bytes.length
    (offset, { bytes := t.bytes ++ text ++ [0], offsets := t.offsets ++ [(text, offset)] })

/-- Everything before the first zero byte, if there is one: the loop of `readString`. -/
def untilNul : List UInt8 → Option Str
  | [] => none
  | b :: bs => if b = 0 then some [] else (untilNul bs).map (b :: ·)

/-- The NUL-terminated string at `offset` inside a string table blob. -/
def readString (table : List UInt8) (offset : UInt32) : Except String Str :=
  if offset.toNat ≥ table.length then
    .error s!"string offset {offset} is outside the {table.length}-byte string table"
  else
    match untilNul (table.drop offset.toNat) with
    | some text => .ok text
    | none => .error s!"unterminated string at offset {offset}"

/-- No byte of the name is zero. -/
def NulFree (text : Str) : Prop := (0 : UInt8) ∉ text

instance (text : Str) : Decidable (NulFree text) := inferInstanceAs (Decidable (_ ∉ _))

theorem untilNul_append {text : Str} (h : NulFree text) (rest : List UInt8) :
    untilNul (text ++ 0 :: rest) = some text := by
  induction text with
  | nil => rfl
  | cons b text ih =>
    have hb : b ≠ 0 := fun h0 => h (by simp [h0])
    have htail : NulFree text := fun hmem => h (List.mem_cons_of_mem _ hmem)
    rw [List.cons_append, untilNul, if_neg hb, ih htail, Option.map_some]

theorem untilNul_append_right {bytes : List UInt8} {text : Str} (h : untilNul bytes = some text)
    (more : List UInt8) : untilNul (bytes ++ more) = some text := by
  induction bytes generalizing text with
  | nil => cases h
  | cons b bytes ih =>
    rw [untilNul] at h
    rw [List.cons_append, untilNul]
    split_ifs at h ⊢ with hb
    · exact h
    · obtain ⟨tail, htail, rfl⟩ := Option.map_eq_some_iff.mp h
      rw [ih htail, Option.map_some]

/-- What is read from a string table is still read when the table has grown. -/
theorem readString_of_prefix {table longer : List UInt8} {offset : UInt32} {text : Str}
    (h : readString table offset = .ok text) (hgrow : table <+: longer) :
    readString longer offset = .ok text := by
  obtain ⟨more, rfl⟩ := hgrow
  rw [readString] at h
  split_ifs at h with hoff
  rw [readString, if_neg (by rw [List.length_append]; omega),
    List.drop_append_of_le_length (by omega)]
  split at h
  · next t ht =>
    rw [untilNul_append_right ht]
    exact h
  · cases h

namespace StringTable

/-- Every recorded name can be read at its offset. -/
def Sound (t : StringTable) : Prop :=
  ∀ text offset, (text, offset) ∈ t.offsets → NulFree text → readString t.bytes offset = .ok text

theorem sound_empty : Sound {} := by
  intro text offset h
  cases h

theorem bytes_prefix_intern (t : StringTable) (text : Str) :
    t.bytes <+: (t.intern text).2.bytes := by
  rw [intern]
  split
  · exact List.prefix_refl _
  · exact ⟨text ++ [0], by simp⟩

private theorem readString_new {t : StringTable} {text : Str} (hfree : NulFree text)
    (hlen : t.bytes.length < 2 ^ 32) :
    readString (t.bytes ++ text ++ [0]) (UInt32.ofNat t.bytes.length) = .ok text := by
  have hoff : (UInt32.ofNat t.bytes.length).toNat = t.bytes.length := by
    rw [UInt32.toNat_ofNat', Nat.mod_eq_of_lt hlen]
  rw [readString, hoff, if_neg (by simp), List.append_assoc, List.drop_left,
    untilNul_append hfree]

/-- An interned name is read back from every later state of the table, as long as the table stays
within the 32 bits of an offset. -/
theorem intern_reads {t : StringTable} (hsound : t.Sound) {text : Str} (hfree : NulFree text)
    {later : List UInt8} (hlater : (t.intern text).2.bytes <+: later)
    (hlen : later.length < 2 ^ 32) : readString later (t.intern text).1 = .ok text := by
  refine readString_of_prefix ?_ hlater
  have hle := (bytes_prefix_intern t text).length_le.trans hlater.length_le
  rw [intern]
  cases hlookup : t.offsets.lookup text with
  | some offset =>
    obtain ⟨k, before, heq, _⟩ := List.lookup_eq_some_iff.mp hlookup
    exact hsound text offset (by simp [heq]) hfree
  | none => exact readString_new hfree (by omega)

theorem sound_intern {t : StringTable} (hsound : t.Sound) (text : Str)
    (hlen : (t.intern text).2.bytes.length < 2 ^ 32) : (t.intern text).2.Sound := by
  intro other offset hmem hfree
  have hshort : t.bytes.length < 2 ^ 32 := (bytes_prefix_intern t text).length_le.trans_lt hlen
  rw [intern] at hmem ⊢
  cases hlookup : t.offsets.lookup text with
  | some found =>
    rw [hlookup] at hmem
    exact hsound other offset hmem hfree
  | none =>
    rw [hlookup] at hmem
    simp only [List.mem_append, List.mem_singleton, Prod.mk.injEq] at hmem
    rcases hmem with hold | ⟨rfl, rfl⟩
    · exact readString_of_prefix (hsound other offset hold hfree) ⟨text ++ [0], by simp⟩
    · exact readString_new hfree hshort

end StringTable

/-! ### Reading -/

/-- A cursor over untrusted bytes. -/
structure Reader where
  data : List UInt8
  position : ℕ := 0

/-- A computation that moves a cursor, or fails with a message.  Where the source makes several
reads and tests them together, the first read that fails decides: each failure gives the message of
that one test. -/
abbrev Read := StateT Reader (Except String)

namespace Reader

/-- The bytes at the cursor. -/
def rest (r : Reader) : List UInt8 := r.data.drop r.position

def advance (r : Reader) (count : ℕ) : Reader := { r with position := r.position + count }

def has (r : Reader) (count : ℕ) : Bool := count ≤ r.data.length - min r.position r.data.length

def shortRead (r : Reader) (what : String) (count : ℕ) : String :=
  let remaining := r.data.length - min r.position r.data.length
  s!"truncated file: {count} bytes of {what} needed at offset {r.position}, only {remaining} remain"

/-- The common part of the word readers. -/
def word (width : ℕ) (what : String) : Read UInt64 := fun r =>
  if r.has width then .ok (load width r.rest, r.advance width)
  else .error (r.shortRead what width)

def u8v : Read UInt8 := fun r =>
  if r.has 1 then .ok (r.rest.headD 0, r.advance 1) else .error (r.shortRead "u8" 1)

def u16v : Read UInt16 := UInt64.toUInt16 <$> word 2 "u16"
def u32v : Read UInt32 := UInt64.toUInt32 <$> word 4 "u32"
def u64v : Read UInt64 := word 8 "u64"
def i64v : Read Int64 := UInt64.toInt64 <$> word 8 "i64"

def skip (count : ℕ) : Read Unit := fun r =>
  if r.has count then .ok ((), r.advance count) else .error (r.shortRead "padding" count)

def raw (count : ℕ) : Read (List UInt8) := fun r =>
  if r.has count then .ok (r.rest.take count, r.advance count)
  else .error (r.shortRead "blob" count)

/-- Borrows bytes at an absolute offset, leaving the cursor alone. -/
def rawAt (data : List UInt8) (offset count : UInt64) : Except String (List UInt8) :=
  if offset.toNat > data.length ∨ count.toNat > data.length - offset.toNat then
    let stop := offset + count
    .error s!"region [{offset}, {stop}) is outside the {data.length}-byte file"
  else .ok ((data.drop offset.toNat).take count.toNat)

def seek (offset : ℕ) : Read Unit := fun r => .ok ((), { r with position := offset })

/-- One error message for a group of reads. -/
def orError (message : String) (p : Read α) : Read α := fun r =>
  match p r with
  | .ok result => .ok result
  | .error _ => .error message

/-- The record loop `for (u32 i = 0; i < count; ++i)`, which builds up `object`. -/
def loop (step : σ → Read σ) : ℕ → σ → Read σ
  | 0, object => pure object
  | count + 1, object => step object >>= loop step count

/-- The end of a loop body: check the record and push what the check returns. -/
def push (check : ρ → Except String β) (done : List β) (fields : ρ) : Except String (List β) := do
  let entry ← check fields
  return done ++ [entry]

/-- A record loop that reads one record, checks it, and pushes what the check returns. -/
def readTable (record : Read ρ) (check : ρ → Except String β) (count : ℕ) : Read (List β) :=
  loop (fun done => do let fields ← record; push check done fields) count []

/-- A table at a known place of the file. -/
def tableAt (offset : ℕ) (record : Read ρ) (check : ρ → Except String β) (count : ℕ) :
    Read (List β) := do
  seek offset
  readTable record check count

theorem has_iff {r : Reader} {count : ℕ} : r.has count = true ↔ count ≤ r.rest.length := by
  rw [has, rest, List.length_drop, decide_eq_true_iff]
  omega

@[simp] theorem rest_advance (r : Reader) (count : ℕ) :
    (r.advance count).rest = r.rest.drop count := by
  rw [rest, advance, rest, List.drop_drop]

@[simp] theorem advance_zero (r : Reader) : r.advance 0 = r := rfl

@[simp] theorem advance_advance (r : Reader) (m n : ℕ) :
    (r.advance m).advance n = r.advance (m + n) := by
  simp only [advance, Nat.add_assoc]

/-- A computation that consumes `n` bytes, fails if there are fewer, and returns `f` of the bytes at
the cursor. -/
structure FixedWidth (p : Read α) (n : ℕ) (f : List UInt8 → α) : Prop where
  enough : ∀ r : Reader, n ≤ r.rest.length → p r = .ok (f r.rest, r.advance n)
  short : ∀ r : Reader, r.rest.length < n → ∃ message, p r = .error message

namespace FixedWidth

theorem pure (a : α) : FixedWidth (Pure.pure a) 0 fun _ => a where
  enough := fun _ _ => rfl
  short := fun _ h => absurd h (Nat.not_lt_zero _)

/-- Widths add up. -/
theorem bind {p : Read α} {q : α → Read β} {n m : ℕ} {f : List UInt8 → α}
    {g : α → List UInt8 → β} (hp : FixedWidth p n f) (hq : ∀ a, FixedWidth (q a) m (g a)) :
    FixedWidth (p >>= q) (n + m) fun bytes => g (f bytes) (bytes.drop n) where
  enough := fun r h => by
    have hrest : m ≤ (r.advance n).rest.length := by
      rw [rest_advance, List.length_drop]
      omega
    show p r >>= (fun x => q x.1 x.2) = _
    rw [hp.enough r (by omega)]
    show q (f r.rest) (r.advance n) = _
    rw [(hq _).enough _ hrest, rest_advance, advance_advance]
  short := fun r h => by
    show ∃ message, p r >>= (fun x => q x.1 x.2) = .error message
    rcases Nat.lt_or_ge r.rest.length n with hn | hn
    · obtain ⟨message, he⟩ := hp.short r hn
      exact ⟨message, by rw [he]; rfl⟩
    · have hrest : (r.advance n).rest.length < m := by
        rw [rest_advance, List.length_drop]
        omega
      obtain ⟨message, he⟩ := (hq (f r.rest)).short _ hrest
      exact ⟨message, by rw [hp.enough r hn]; exact he⟩

theorem map {p : Read α} {n : ℕ} {f : List UInt8 → α} (hp : FixedWidth p n f) (g : α → β) :
    FixedWidth (g <$> p) n fun bytes => g (f bytes) where
  enough := fun r h => by
    show (p r >>= fun x => .ok (g x.1, x.2)) = _
    rw [hp.enough r h]
    rfl
  short := fun r h => by
    obtain ⟨message, he⟩ := hp.short r h
    refine ⟨message, ?_⟩
    show (p r >>= fun x => .ok (g x.1, x.2)) = _
    rw [he]
    rfl

theorem word (width : ℕ) (what : String) :
    FixedWidth (Reader.word width what) width (load width) where
  enough := fun _ h => if_pos (has_iff.mpr h)
  short := fun r h => ⟨r.shortRead what width, if_neg fun hh => by have := has_iff.mp hh; omega⟩

theorem u8v : FixedWidth Reader.u8v 1 fun bytes => bytes.headD 0 where
  enough := fun _ h => if_pos (has_iff.mpr h)
  short := fun r h => ⟨r.shortRead "u8" 1, if_neg fun hh => by have := has_iff.mp hh; omega⟩

theorem u16v : FixedWidth Reader.u16v 2 fun bytes => (load 2 bytes).toUInt16 := (word 2 "u16").map _

theorem u32v : FixedWidth Reader.u32v 4 fun bytes => (load 4 bytes).toUInt32 := (word 4 "u32").map _

theorem u64v : FixedWidth Reader.u64v 8 (load 8) := word 8 "u64"

theorem i64v : FixedWidth Reader.i64v 8 fun bytes => (load 8 bytes).toInt64 := (word 8 "i64").map _

theorem skip (count : ℕ) : FixedWidth (Reader.skip count) count fun _ => () where
  enough := fun _ h => if_pos (has_iff.mpr h)
  short := fun r h =>
    ⟨r.shortRead "padding" count, if_neg fun hh => by have := has_iff.mp hh; omega⟩

theorem orError {p : Read α} {n : ℕ} {f : List UInt8 → α} (hp : FixedWidth p n f)
    (message : String) : FixedWidth (Reader.orError message p) n f where
  enough := fun r h => by rw [Reader.orError, hp.enough r h]
  short := fun r h => by
    obtain ⟨e, he⟩ := hp.short r h
    exact ⟨message, by rw [Reader.orError, he]⟩

end FixedWidth

/-- A record loop over enough bytes: decode the records, then check them in order. -/
theorem loop_eq {record : Read ρ} {w : ℕ} {f : List UInt8 → ρ} (hrecord : FixedWidth record w f)
    (accept : σ → ρ → Except String σ) (count : ℕ) (object : σ) (r : Reader)
    (hlen : count * w ≤ r.rest.length) :
    loop (fun object => do let fields ← record; accept object fields) count object r
      = ((RecordTable.records w f count r.rest).foldlM accept object).map
          (·, r.advance (count * w)) := by
  induction count generalizing object r with
  | zero =>
    rw [Nat.zero_mul, advance_zero]
    rfl
  | succ count ih =>
    rw [Nat.succ_mul] at hlen
    have hfirst := hrecord.enough r (by omega)
    have hrest : count * w ≤ (r.advance w).rest.length := by
      rw [rest_advance, List.length_drop]
      omega
    rw [RecordTable.records, List.foldlM_cons]
    show ((record r >>= fun x => (accept object x.1 >>= fun a => .ok (a, x.2))) >>= fun x =>
      loop _ count x.1 x.2) = _
    rw [hfirst]
    show ((accept object (f r.rest) >>= fun a => .ok (a, r.advance w)) >>= fun x =>
      loop _ count x.1 x.2) = _
    cases accept object (f r.rest) with
    | error e => rfl
    | ok next =>
      show loop _ count next (r.advance w) = _
      rw [ih next _ hrest, rest_advance, advance_advance, Nat.succ_mul, Nat.add_comm w]
      rfl

/-- A record loop that pushes over enough bytes. -/
theorem readTable_eq {record : Read ρ} {w : ℕ} {f : List UInt8 → ρ}
    (hrecord : FixedWidth record w f) (check : ρ → Except String β) (count : ℕ) (r : Reader)
    (hlen : count * w ≤ r.rest.length) :
    readTable record check count r
      = ((RecordTable.records w f count r.rest).mapM check).map (·, r.advance (count * w)) := by
  rw [readTable, loop_eq hrecord _ _ _ _ hlen]
  have hpush := RecordTable.foldlM_push check (RecordTable.records w f count r.rest) []
  rw [show push check = fun done x => do let y ← check x; return done ++ [y] from rfl, hpush]
  cases (RecordTable.records w f count r.rest).mapM check <;> rfl

/-! ### Tables at known places -/

/-- A computation whose outcome depends on the data of the cursor only, not on its position. -/
def Yields (p : Read α) (data : List UInt8) (outcome : Except String α) : Prop :=
  ∀ r : Reader, r.data = data → ∃ position, p r = outcome.map (·, ⟨data, position⟩)

namespace Yields

theorem pure (a : α) (data : List UInt8) : Yields (Pure.pure a) data (.ok a) := by
  rintro r rfl
  exact ⟨r.position, rfl⟩

theorem bind {p : Read α} {q : α → Read β} {data : List UInt8} {outcome : Except String α}
    {next : α → Except String β} (hp : Yields p data outcome)
    (hq : ∀ a, Yields (q a) data (next a)) : Yields (p >>= q) data (outcome >>= next) := by
  intro r hr
  obtain ⟨position, hposition⟩ := hp r hr
  show ∃ position, (p r >>= fun x => q x.1 x.2) = _
  rw [hposition]
  cases outcome with
  | error e => exact ⟨0, rfl⟩
  | ok a => exact hq a _ rfl

theorem run' {p : Read α} {data : List UInt8} {outcome : Except String α}
    (h : Yields p data outcome) : StateT.run' p { data := data } = outcome := by
  obtain ⟨position, hposition⟩ := h { data := data } rfl
  show Prod.fst <$> p { data := data } = _
  rw [hposition]
  cases outcome <;> rfl

end Yields

theorem yields_seek_loop {record : Read ρ} {w : ℕ} {f : List UInt8 → ρ}
    (hrecord : FixedWidth record w f) (accept : σ → ρ → Except String σ) {count offset : ℕ}
    (object : σ) {data : List UInt8} (hlen : offset + count * w ≤ data.length) :
    Yields (do seek offset
               loop (fun object => do let fields ← record; accept object fields) count object)
      data ((RecordTable.records w f count (data.drop offset)).foldlM accept object) := by
  rintro r rfl
  have hrest : count * w ≤ (Reader.mk r.data offset).rest.length := by
    simp only [rest, List.length_drop]
    omega
  exact ⟨_, loop_eq hrecord accept count object ⟨r.data, offset⟩ hrest⟩

theorem yields_tableAt {record : Read ρ} {w : ℕ} {f : List UInt8 → ρ}
    (hrecord : FixedWidth record w f) (check : ρ → Except String β) {count offset : ℕ}
    {data : List UInt8} (hlen : offset + count * w ≤ data.length) :
    Yields (tableAt offset record check count) data
      ((RecordTable.records w f count (data.drop offset)).mapM check) := by
  rintro r rfl
  have hrest : count * w ≤ (Reader.mk r.data offset).rest.length := by
    simp only [rest, List.length_drop]
    omega
  exact ⟨_, readTable_eq hrecord check count ⟨r.data, offset⟩ hrest⟩

end Reader

end Binary
end MiniTool
