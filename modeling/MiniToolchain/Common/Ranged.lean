import MiniToolchain.Common.Container
import MiniToolchain.Lib.Bounds

/-!
# Readers whose accesses can leave their span

A file is read through spans, and an index or a part outside its span has no meaning in the source.
Here the operations of a reader are written once more with every index and every part explicit: one
outside its span ends the computation with `none`.

## Main definitions

* `Ranged`, `RangedRead` — computations that can also end with `none`.
* `partOf`, `elementOf` — the accesses.
* `InRange`, `ReadInRange` — a computation is one of the total readers, and no access leaves its
  span.

## Main results

* `InRange.bind`, `ReadInRange.bind` — sequences.
* `partOf_inRange`, `elementOf_inRange` — accesses whose bounds have been checked.
* `readInRange_tableAt` — record loops.
-/

namespace MiniTool
namespace Binary

open ByteOrder Bounds Checked

/-- A computation that fails with a message, or ends with `none` when it accesses something outside
a span. -/
abbrev Ranged := ExceptT String Option

/-- The same with a cursor. -/
abbrev RangedRead := StateT Reader Ranged

namespace Ranged

variable {α β ρ σ : Type}

/-! ### Accesses -/

/-- `span.subspan(offset, count)`. -/
def partOf (span : List α) (offset count : ℕ) : Ranged (List α) :=
  ExceptT.mk ((subspan span offset count).map .ok)

/-- `span.subspan(offset)`. -/
def partFrom (span : List α) (offset : ℕ) : Ranged (List α) :=
  if offset ≤ span.length then partOf span offset (span.length - offset) else ExceptT.mk none

/-- `span[i]`. -/
def elementOf (span : List α) (i : ℕ) : Ranged α := ExceptT.mk (span[i]?.map .ok)

/-- A computation without accesses. -/
def lift (x : Except String α) : Ranged α := ExceptT.mk (some x)

/-! ### The operations of a reader -/

/-- The sum of the bytes of a word, taken from a span of its width. -/
def load (width : ℕ) (span : List UInt8) : Ranged UInt64 :=
  (List.range width).foldlM (fun wide i => do
    let byte ← elementOf span i
    return wide ||| byte.toUInt64 <<< UInt64.ofNat (8 * i)) 0

def word (width : ℕ) (what : String) : RangedRead UInt64 := fun r =>
  if r.has width then do
    let field ← partOf r.data r.position width
    let value ← load width field
    return (value, r.advance width)
  else lift (.error (r.shortRead what width))

def u8v : RangedRead UInt8 := fun r =>
  if r.has 1 then do
    let value ← elementOf r.data r.position
    return (value, r.advance 1)
  else lift (.error (r.shortRead "u8" 1))

def u16v : RangedRead UInt16 := UInt64.toUInt16 <$> word 2 "u16"
def u32v : RangedRead UInt32 := UInt64.toUInt32 <$> word 4 "u32"
def u64v : RangedRead UInt64 := word 8 "u64"
def i64v : RangedRead Int64 := UInt64.toInt64 <$> word 8 "i64"

def skip (count : ℕ) : RangedRead Unit := fun r => lift (Reader.skip count r)

def raw (count : ℕ) : RangedRead (List UInt8) := fun r =>
  if r.has count then do
    let result ← partOf r.data r.position count
    return (result, r.advance count)
  else lift (.error (r.shortRead "blob" count))

def rawAt (data : List UInt8) (offset count : UInt64) : Ranged (List UInt8) :=
  if offset.toNat > data.length ∨ count.toNat > data.length - offset.toNat then
    let stop := offset + count
    lift (.error s!"region [{offset}, {stop}) is outside the {data.length}-byte file")
  else partOf data offset.toNat count.toNat

def seek (offset : ℕ) : RangedRead Unit := fun r => lift (Reader.seek offset r)

/-- One error message for a group of reads. -/
def orError (message : String) (p : RangedRead α) : RangedRead α := fun r =>
  ExceptT.mk ((p r).run.map fun
    | .ok result => .ok result
    | .error _ => .error message)

/-- The loop of `readString`, from its turn `i` on. -/
def untilNul (tail : List UInt8) : ℕ → ℕ → Ranged (Option Str)
  | 0, _ => return none
  | left + 1, i => do
    let byte ← elementOf tail i
    if byte = 0 then
      let text ← partOf tail 0 i
      return some text
    else untilNul tail left (i + 1)

def readString (table : List UInt8) (offset : UInt32) : Ranged Str :=
  if offset.toNat ≥ table.length then
    lift (.error s!"string offset {offset} is outside the {table.length}-byte string table")
  else do
    let tail ← partFrom table offset.toNat
    match ← untilNul tail tail.length 0 with
    | some text => return text
    | none => lift (.error s!"unterminated string at offset {offset}")

/-- The record loop. -/
def loop (step : σ → RangedRead σ) : ℕ → σ → RangedRead σ
  | 0, object => pure object
  | count + 1, object => step object >>= loop step count

/-- A record loop at a known place of the file, which checks each record and pushes the result. -/
def tableAt (offset : ℕ) (record : RangedRead ρ) (check : ρ → Ranged β) (count : ℕ) :
    RangedRead (List β) := do
  seek offset
  loop (fun done => do
    let fields ← record
    let entry ← check fields
    return done ++ [entry]) count []

/-- The loop of `crc32`. -/
def crc32 (data : List UInt8) : Ranged UInt32 := do
  let state ← data.foldlM (fun (state : UInt32) byte => do
    let entry ← elementOf kTable ((state ^^^ byte.toUInt32) &&& 0xFF).toNat
    return entry ^^^ (state >>> 8)) 0xFFFFFFFF
  return state ^^^ 0xFFFFFFFF

def readTrailer : RangedRead Trailer := do
  let stringOffset ← u64v
  let stringSize ← u64v
  let blobOffset ← u64v
  let fileSize ← u32v
  let checksum ← u32v
  return { stringOffset, stringSize, blobOffset, fileSize, checksum }

def checkContents (kind : String) (buffer : List UInt8) (trailer : Trailer) : Ranged Unit :=
  if trailer.fileSize.toNat ≠ buffer.length then
    lift (.error s!"{kind} claims to be {trailer.fileSize} bytes but is {buffer.length}")
  else do
    let contents ← partFrom buffer kHeaderSize
    let actual ← crc32 contents
    if actual ≠ trailer.checksum then
      let claimed := hexText 8 trailer.checksum.toNat
      let found := hexText 8 actual.toNat
      lift (.error
        s!"{kind} checksum mismatch: header says 0x{claimed}, contents hash to 0x{found}")
    else return ()

def extents (kind : String) (buffer : List UInt8) (trailer : Trailer) (tablesEnd : ℕ) :
    Ranged (List UInt8 × List UInt8) :=
  if tablesEnd > buffer.length ∨ trailer.stringOffset.toNat ≠ tablesEnd ∨
      (trailer.stringOffset + trailer.stringSize).toNat > buffer.length ∨
      trailer.blobOffset ≠ trailer.stringOffset + trailer.stringSize ∨
      trailer.blobOffset.toNat > buffer.length then
    lift (.error s!"{kind} table layout is inconsistent")
  else do
    let stringTable ← rawAt buffer trailer.stringOffset trailer.stringSize
    let blob ← partFrom buffer trailer.blobOffset.toNat
    return (stringTable, blob)

end Ranged

/-! ### Computations that stay in range -/

open Ranged

variable {α β ρ σ : Type}

/-- The computation is the total one: no access leaves its span. -/
def InRange (p : Ranged α) (x : Except String α) : Prop := p = lift x

/-- The same for every state of the cursor. -/
def ReadInRange (p : RangedRead α) (q : Read α) : Prop := ∀ r, InRange (p r) (q r)

theorem InRange.lift (x : Except String α) : InRange (Ranged.lift x) x := rfl

theorem InRange.pure (a : α) : InRange (Pure.pure a) (.ok a) := rfl

/-- The second computation only runs on a result of the first. -/
theorem InRange.bind {p : Ranged α} {x : Except String α} {f : α → Ranged β}
    {g : α → Except String β} (hp : InRange p x) (hf : ∀ a, x = .ok a → InRange (f a) (g a)) :
    InRange (p >>= f) (x >>= g) := by
  unfold InRange at hp
  subst hp
  cases x with
  | error e => rfl
  | ok a => exact hf a rfl

/-- An access in range, and what follows it. -/
theorem InRange.then {p : Ranged α} {a : α} {f : α → Ranged β} {x : Except String β}
    (hp : InRange p (.ok a)) (hf : InRange (f a) x) : InRange (p >>= f) x := by
  unfold InRange at hp
  subst hp
  exact hf

/-- A loop whose turns stay in range. -/
theorem InRange.foldlM {step : σ → α → Ranged σ} (next : σ → α → σ) {xs : List α}
    (hstep : ∀ state, ∀ x ∈ xs, InRange (step state x) (.ok (next state x))) (state : σ) :
    InRange (xs.foldlM step state) (.ok (xs.foldl next state)) := by
  induction xs generalizing state with
  | nil => rfl
  | cons x xs ih =>
    rw [List.foldlM_cons, List.foldl_cons]
    exact (hstep state x List.mem_cons_self).then
      (ih (fun s y hy => hstep s y (List.mem_cons_of_mem x hy)) _)

theorem partOf_inRange (span : List α) (offset count : ℕ) (h : offset + count ≤ span.length) :
    InRange (partOf span offset count) (.ok ((span.drop offset).take count)) := by
  unfold partOf
  rw [subspan_of_le h]
  rfl

theorem partFrom_inRange {span : List α} {offset : ℕ} (h : offset ≤ span.length) :
    InRange (partFrom span offset) (.ok (span.drop offset)) := by
  have hpart := partOf_inRange span offset (span.length - offset) (by omega)
  rw [List.take_of_length_le (by rw [List.length_drop])] at hpart
  unfold partFrom
  rwa [if_pos h]

theorem elementOf_inRange {span : List α} {i : ℕ} {x : α} (h : span[i]? = some x) :
    InRange (elementOf span i) (.ok x) := by
  unfold elementOf
  rw [h]
  rfl

/-! ### Reading -/

namespace ReadInRange

theorem pure (a : α) : ReadInRange (Pure.pure a) (Pure.pure a) := fun _ => rfl

theorem bind_of {p : RangedRead α} {q : Read α} {f : α → RangedRead β} {g : α → Read β}
    (hp : ReadInRange p q)
    (hf : ∀ a, (∃ r r', q r = .ok (a, r')) → ReadInRange (f a) (g a)) :
    ReadInRange (p >>= f) (q >>= g) := fun r =>
  (hp r).bind fun x hx => hf x.1 ⟨r, x.2, hx⟩ x.2

theorem bind {p : RangedRead α} {q : Read α} {f : α → RangedRead β} {g : α → Read β}
    (hp : ReadInRange p q) (hf : ∀ a, ReadInRange (f a) (g a)) :
    ReadInRange (p >>= f) (q >>= g) := hp.bind_of fun a _ => hf a

theorem map {p : RangedRead α} {q : Read α} (hp : ReadInRange p q) (f : α → β) :
    ReadInRange (f <$> p) (f <$> q) := by
  intro r
  have h := hp r
  unfold InRange at h
  show (p r >>= fun x => Pure.pure (f x.1, x.2)) = _
  rw [h]
  show _ = Ranged.lift (q r >>= fun x => .ok (f x.1, x.2))
  cases q r <;> rfl

/-- The bytes at the cursor, once there are enough of them. -/
theorem partOf_rest {r : Reader} {count : ℕ} (hpos : 0 < count) (h : r.has count = true) :
    InRange (partOf r.data r.position count) (.ok (r.rest.take count)) := by
  have hle := Reader.has_iff.mp h
  rw [Reader.rest, List.length_drop] at hle
  exact partOf_inRange _ _ _ (by omega)

theorem load {width : ℕ} {span : List UInt8} (h : width ≤ span.length) :
    InRange (Ranged.load width span) (.ok (ByteOrder.load width span)) := by
  refine InRange.foldlM
    (fun wide i => wide ||| (span.getD i 0).toUInt64 <<< UInt64.ofNat (8 * i)) ?_ 0
  intro wide i hi
  have hlt : i < span.length := by
    have := List.mem_range.mp hi
    omega
  have hget : span[i]? = some (span.getD i 0) := by
    rw [List.getD_eq_getElem?_getD, List.getElem?_eq_getElem hlt, Option.getD_some]
  exact (elementOf_inRange hget).then (.pure _)

/-- A word is read from its own bytes only. -/
theorem load_take (width : ℕ) (bytes : List UInt8) :
    ByteOrder.load width (bytes.take width) = ByteOrder.load width bytes := by
  unfold ByteOrder.load
  apply List.foldl_ext
  intro wide i hi
  rw [List.getD_eq_getElem?_getD, List.getD_eq_getElem?_getD,
    List.getElem?_take_of_lt (List.mem_range.mp hi)]

theorem word {width : ℕ} (hpos : 0 < width) (what : String) :
    ReadInRange (Ranged.word width what) (Reader.word width what) := by
  intro r
  unfold Ranged.word Reader.word
  split_ifs with h
  · have hle := Reader.has_iff.mp h
    have hlength : width ≤ (r.rest.take width).length := by
      rw [List.length_take]
      omega
    have hload := load hlength
    rw [load_take] at hload
    exact (partOf_rest hpos h).then (hload.then (.pure _))
  · rfl

theorem u8v : ReadInRange Ranged.u8v Reader.u8v := by
  intro r
  unfold Ranged.u8v Reader.u8v
  split_ifs with h
  · have hle := Reader.has_iff.mp h
    have hget : r.data[r.position]? = some (r.rest.headD 0) := by
      cases hrest : r.rest with
      | nil =>
        rw [hrest] at hle
        simp at hle
      | cons byte rest =>
        have hdrop : r.rest[0]? = r.data[r.position]? := by
          rw [Reader.rest, List.getElem?_drop, Nat.add_zero]
        rw [← hdrop, hrest]
        rfl
    exact (elementOf_inRange hget).then (.pure _)
  · rfl

theorem u16v : ReadInRange Ranged.u16v Reader.u16v := (word (by decide) "u16").map _

theorem u32v : ReadInRange Ranged.u32v Reader.u32v := (word (by decide) "u32").map _

theorem u64v : ReadInRange Ranged.u64v Reader.u64v := word (by decide) "u64"

theorem i64v : ReadInRange Ranged.i64v Reader.i64v := (word (by decide) "i64").map _

theorem skip (count : ℕ) : ReadInRange (Ranged.skip count) (Reader.skip count) := fun _ => rfl

theorem raw {count : ℕ} (hpos : 0 < count) : ReadInRange (Ranged.raw count) (Reader.raw count) := by
  intro r
  unfold Ranged.raw Reader.raw
  split_ifs with h
  · exact (partOf_rest hpos h).then (.pure _)
  · rfl

theorem seek (offset : ℕ) : ReadInRange (Ranged.seek offset) (Reader.seek offset) := fun _ => rfl

theorem orError {p : RangedRead α} {q : Read α} (hp : ReadInRange p q) (message : String) :
    ReadInRange (Ranged.orError message p) (Reader.orError message q) := by
  intro r
  have h := hp r
  unfold InRange at h
  unfold Ranged.orError Reader.orError
  rw [h]
  cases q r <;> rfl

theorem loop {step : σ → RangedRead σ} {next : σ → Read σ}
    (hstep : ∀ object, ReadInRange (step object) (next object)) (count : ℕ) (object : σ) :
    ReadInRange (Ranged.loop step count object) (Reader.loop next count object) := by
  induction count generalizing object with
  | zero => exact pure object
  | succ count ih => exact (hstep object).bind fun object => ih object

/-- A record loop stays in range when its records and checks do. -/
theorem tableAt {record : RangedRead ρ} {fields : Read ρ} (hrecord : ReadInRange record fields)
    {check : ρ → Ranged β} {accept : ρ → Except String β}
    (hcheck : ∀ x, InRange (check x) (accept x)) (offset count : ℕ) :
    ReadInRange (Ranged.tableAt offset record check count)
      (Reader.tableAt offset fields accept count) := by
  refine (seek offset).bind fun _ => ReadInRange.loop (fun done => ?_) count []
  refine hrecord.bind fun x => ?_
  intro r
  have h := hcheck x
  unfold InRange at h
  unfold InRange Reader.push
  show ((check x >>= fun entry => Pure.pure (entry, r)) >>= fun entry =>
    Pure.pure (done ++ [entry.1], entry.2)) = _
  rw [h]
  show _ = Ranged.lift ((accept x >>= fun entry => .ok (done ++ [entry])) >>= fun a => .ok (a, r))
  cases accept x <;> rfl

/-- A computation that does not move the cursor. -/
theorem liftM {p : Ranged α} {x : Except String α} (hp : InRange p x) :
    ReadInRange (MonadLiftT.monadLift p) (MonadLiftT.monadLift x) := by
  intro r
  unfold InRange at hp
  subst hp
  cases x <;> rfl

theorem run' {p : RangedRead α} {q : Read α} (h : ReadInRange p q) (r : Reader) :
    InRange (StateT.run' p r) (StateT.run' q r) := by
  have hr := h r
  unfold InRange at hr ⊢
  show (p r >>= fun x => Pure.pure x.1) = _
  rw [hr]
  show _ = Ranged.lift (q r >>= fun x => .ok x.1)
  cases q r <;> rfl

theorem trailer : ReadInRange Ranged.readTrailer Trailer.read :=
  u64v.bind fun _ => u64v.bind fun _ => u64v.bind fun _ => u32v.bind fun _ => u32v.bind fun _ =>
    pure _

end ReadInRange

/-- A record loop pushes one entry for each record. -/
theorem length_of_tableAt {record : Read ρ} {check : ρ → Except String β} {offset count : ℕ}
    {r r' : Reader} {entries : List β}
    (h : Reader.tableAt offset record check count r = .ok (entries, r')) :
    entries.length = count := by
  have hloop : ∀ (count : ℕ) (done entries : List β) (r r' : Reader),
      Reader.loop (fun done => do let fields ← record; Reader.push check done fields) count done r =
        .ok (entries, r') → entries.length = done.length + count := by
    intro count
    induction count with
    | zero =>
      intro done entries r r' h
      cases h
      rfl
    | succ count ih =>
      intro done entries r r' h
      obtain ⟨⟨next, r₁⟩, hstep, hrest⟩ := bind_eq_ok.mp h
      obtain ⟨⟨fields, r₂⟩, -, hpush⟩ := bind_eq_ok.mp hstep
      have hpush : (Reader.push check done fields >>= fun a => Except.ok (a, r₂)) =
          .ok (next, r₁) := hpush
      obtain ⟨_, hnext, heq⟩ := bind_eq_ok.mp hpush
      cases heq
      obtain ⟨entry, -, heq⟩ := bind_eq_ok.mp hnext
      cases heq
      rw [ih _ entries r₁ r' hrest, List.length_append, List.length_singleton]
      omega
  have := hloop count [] entries _ _ h
  simpa using this

/-! ### Strings, checksums and the layout -/

/-- The loop stops at the first zero byte, or at the end of the span. -/
theorem untilNul_inRange {tail : List UInt8} :
    ∀ {left i : ℕ}, i + left = tail.length →
      InRange (Ranged.untilNul tail left i)
        (.ok ((Binary.untilNul (tail.drop i)).map (tail.take i ++ ·))) := by
  intro left
  induction left with
  | zero =>
    intro i hi
    rw [List.drop_of_length_le (by omega)]
    rfl
  | succ left ih =>
    intro i hi
    have hlt : i < tail.length := by omega
    refine (elementOf_inRange (List.getElem?_eq_getElem hlt)).then ?_
    rw [List.drop_eq_getElem_cons hlt, Binary.untilNul]
    split_ifs with hzero
    · refine (partOf_inRange tail 0 i (by omega)).then ?_
      rw [List.drop_zero, Option.map_some, List.append_nil]
      rfl
    · have htake : ∀ rest, tail.take (i + 1) ++ rest = tail.take i ++ tail[i] :: rest := by
        intro rest
        rw [List.take_succ_eq_append_getElem hlt, List.append_assoc, List.singleton_append]
      have hnext := ih (i := i + 1) (by omega)
      simp only [htake] at hnext
      rwa [Option.map_map]

theorem readString_inRange (table : List UInt8) (offset : UInt32) :
    InRange (Ranged.readString table offset) (Binary.readString table offset) := by
  unfold Ranged.readString Binary.readString
  split_ifs with h
  · rfl
  · refine (partFrom_inRange (by omega)).then ?_
    refine (untilNul_inRange (Nat.zero_add _)).then ?_
    rw [List.drop_zero]
    cases Binary.untilNul (table.drop offset.toNat) <;> rfl

theorem crc32_inRange (data : List UInt8) :
    InRange (Ranged.crc32 data) (.ok (MiniTool.crc32 data)) := by
  refine (InRange.foldlM crcUpdate ?_ _).then (.pure _)
  intro state byte _
  have hindex : ((state ^^^ byte.toUInt32) &&& 0xFF).toNat < kTable.length := by
    rw [UInt32.toNat_and, kTable, List.length_map, List.length_range]
    exact Nat.lt_succ_of_le Nat.and_le_right
  have hget := List.getElem?_eq_getElem hindex
  rw [← List.getD_eq_getElem _ 0 hindex] at hget
  exact (elementOf_inRange hget).then (.pure _)

theorem checkContents_inRange (kind : String) {buffer : List UInt8}
    (hlen : kHeaderSize ≤ buffer.length) (trailer : Trailer) :
    InRange (Ranged.checkContents kind buffer trailer)
      (Binary.checkContents kind buffer trailer) := by
  unfold Ranged.checkContents Binary.checkContents
  split_ifs with hsize
  · rfl
  · refine (partFrom_inRange hlen).then ((crc32_inRange _).then ?_)
    dsimp only
    split_ifs <;> rfl

theorem rawAt_inRange (data : List UInt8) (offset count : UInt64) :
    InRange (Ranged.rawAt data offset count) (Reader.rawAt data offset count) := by
  unfold Ranged.rawAt Reader.rawAt
  split_ifs with h
  · rfl
  · exact partOf_inRange _ _ _ (by omega)

/-- Also when the end of the string table wraps around. -/
theorem extents_inRange (kind : String) (buffer : List UInt8) (trailer : Trailer) (tablesEnd : ℕ) :
    InRange (Ranged.extents kind buffer trailer tablesEnd)
      (Binary.extents kind buffer trailer tablesEnd) := by
  unfold Ranged.extents Binary.extents
  split_ifs with h
  · rfl
  · refine (rawAt_inRange _ _ _).bind fun stringTable _ => ?_
    exact (partFrom_inRange (by omega)).then (.pure _)

end Binary
end MiniTool
