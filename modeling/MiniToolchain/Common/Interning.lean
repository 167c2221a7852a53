import Mathlib.Data.List.Nodup
import MiniToolchain.Common.Binary

/-!
# The string table over a sequence of calls

The names of the index, in the order in which they came, are the strings of the blob, behind the
empty string that the table starts with.  That one is not in the index: interning the empty string
stores it a second time.

## Main definitions

* `StringTable.internAll` — a sequence of calls.
* `strings` — the NUL-terminated strings of a blob.
* `StringTable.Consistent` — the blob and the index agree.
* `StringTable.InternedOnce` — what a sequence of calls should leave.

## Main results

* `StringTable.consistent_internAll` — every run keeps the blob and the index in agreement.
* `StringTable.internedOnce_iff` — a run does what it should unless it interns the empty string.
-/

namespace MiniTool
namespace Binary

/-! ### The strings of a blob -/

/-- The NUL-terminated strings of a blob, one after the other. -/
def strings : List UInt8 → List Str
  | [] => []
  | byte :: bytes =>
    if byte = 0 then [] :: strings bytes
    else
      match strings bytes with
      | [] => []
      | text :: texts => (byte :: text) :: texts

/-- The blob of a list of strings. -/
def blob (texts : List Str) : List UInt8 := texts.flatMap (· ++ [0])

theorem strings_append {text : Str} (hfree : NulFree text) (bytes : List UInt8) :
    strings (text ++ 0 :: bytes) = text :: strings bytes := by
  induction text with
  | nil => rfl
  | cons byte text ih =>
    have hbyte : byte ≠ 0 := fun h => hfree (h ▸ List.mem_cons_self)
    have htext : NulFree text := fun h => hfree (List.mem_cons_of_mem _ h)
    rw [List.cons_append, strings, if_neg hbyte, ih htext]

/-- The strings are read back from their blob. -/
theorem strings_blob {texts : List Str} (hfree : ∀ text ∈ texts, NulFree text) :
    strings (blob texts) = texts := by
  induction texts with
  | nil => rfl
  | cons text texts ih =>
    have hrest : ∀ text ∈ texts, NulFree text := fun other hother =>
      hfree other (List.mem_cons_of_mem _ hother)
    have hblob : blob (text :: texts) = text ++ 0 :: blob texts := by
      simp [blob]
    rw [hblob, strings_append (hfree text List.mem_cons_self), ih hrest]

namespace StringTable

/-! ### One call -/

/-- The names in the index, in the order in which they came. -/
def names (t : StringTable) : List Str := t.offsets.map Prod.fst

/-- A call finds the name in the index, or puts it there. -/
theorem intern_cases (t : StringTable) (text : Str) :
    (∃ offset, (text, offset) ∈ t.offsets ∧ t.intern text = (offset, t)) ∨
      (text ∉ t.names ∧ t.intern text = (UInt32.ofNat t.bytes.length,
        { bytes := t.bytes ++ text ++ [0],
          offsets := t.offsets ++ [(text, UInt32.ofNat t.bytes.length)] })) := by
  unfold intern
  cases hlookup : t.offsets.lookup text with
  | some offset =>
    obtain ⟨before, after, heq, -⟩ := List.lookup_eq_some_iff.mp hlookup
    exact .inl ⟨offset, by simp [heq], rfl⟩
  | none =>
    refine .inr ⟨fun hmem => ?_, rfl⟩
    obtain ⟨entry, hentry, rfl⟩ := List.mem_map.mp hmem
    have hne := List.lookup_eq_none_iff.mp hlookup entry hentry
    simp at hne

/-- The blob holds the names of the index behind the empty string, each name has one entry, and none
of the entries is at offset 0. -/
structure Consistent (t : StringTable) : Prop where
  sound : t.Sound
  blob_eq : t.bytes = blob ([] :: t.names)
  nodup : t.names.Nodup
  ne_zero : ∀ entry ∈ t.offsets, entry.2 ≠ 0

theorem consistent_empty : Consistent {} :=
  ⟨sound_empty, rfl, List.nodup_nil, nofun⟩

theorem consistent_intern {t : StringTable} (h : t.Consistent) (text : Str)
    (hlen : (t.intern text).2.bytes.length < 2 ^ 32) : (t.intern text).2.Consistent := by
  have hsound := sound_intern h.sound text hlen
  have hshort := (bytes_prefix_intern t text).length_le.trans_lt hlen
  rcases intern_cases t text with ⟨offset, -, heq⟩ | ⟨hnew, heq⟩
  · rw [heq]
    exact h
  · rw [heq] at hsound ⊢
    have hnames : (t.offsets ++ [(text, UInt32.ofNat t.bytes.length)]).map Prod.fst =
        t.names ++ [text] := by
      rw [List.map_append]
      rfl
    refine ⟨hsound, ?_, ?_, fun entry hentry => ?_⟩
    · unfold names
      rw [hnames, h.blob_eq]
      simp [blob]
    · unfold names
      rw [hnames]
      exact List.nodup_append.mpr ⟨h.nodup, List.nodup_singleton _, by
        rintro name hname _ hmem rfl
        exact hnew (List.mem_singleton.mp hmem ▸ hname)⟩
    · rcases List.mem_append.mp hentry with hold | hlast
      · exact h.ne_zero entry hold
      · -- the blob is never empty
        rw [List.mem_singleton.mp hlast]
        have hpos : 0 < t.bytes.length := by
          rw [h.blob_eq]
          exact Nat.succ_pos _
        intro hzero
        have hnat := congrArg UInt32.toNat hzero
        rw [UInt32.toNat_ofNat', Nat.mod_eq_of_lt hshort] at hnat
        exact absurd hnat (Nat.ne_of_gt hpos)

theorem offsets_prefix_intern (t : StringTable) (text : Str) :
    t.offsets <+: (t.intern text).2.offsets := by
  rcases intern_cases t text with ⟨offset, -, heq⟩ | ⟨-, heq⟩
  · have hsame : (t.intern text).2.offsets = t.offsets := by rw [heq]
    exact hsame ▸ List.prefix_refl _
  · rw [heq]
    exact List.prefix_append _ _

/-- What a call returns is in the index afterwards. -/
theorem mem_offsets_intern (t : StringTable) (text : Str) :
    (text, (t.intern text).1) ∈ (t.intern text).2.offsets := by
  rcases intern_cases t text with ⟨offset, hmem, heq⟩ | ⟨-, heq⟩
  · rw [heq]
    exact hmem
  · rw [heq]
    exact List.mem_append_right _ List.mem_cons_self

theorem mem_names_intern {t : StringTable} {text other : Str} :
    other ∈ (t.intern text).2.names ↔ other ∈ t.names ∨ other = text := by
  rcases intern_cases t text with ⟨offset, hmem, heq⟩ | ⟨-, heq⟩
  · rw [heq]
    refine ⟨.inl, ?_⟩
    rintro (hother | rfl)
    · exact hother
    · exact List.mem_map.mpr ⟨_, hmem, rfl⟩
  · rw [heq]
    simp [names]

/-! ### A sequence of calls -/

/-- A sequence of calls: each text with the offset that was returned for it, and the table
afterwards. -/
def internAll (t : StringTable) : List Str → List (Str × UInt32) × StringTable
  | [] => ([], t)
  | text :: texts =>
    let (offset, t) := t.intern text
    let (calls, t) := t.internAll texts
    ((text, offset) :: calls, t)

theorem internAll_cons (t : StringTable) (text : Str) (texts : List Str) :
    t.internAll (text :: texts) =
      ((text, (t.intern text).1) :: ((t.intern text).2.internAll texts).1,
        ((t.intern text).2.internAll texts).2) := rfl

theorem internAll_append (t : StringTable) (texts later : List Str) :
    t.internAll (texts ++ later) =
      ((t.internAll texts).1 ++ ((t.internAll texts).2.internAll later).1,
        ((t.internAll texts).2.internAll later).2) := by
  induction texts generalizing t with
  | nil => rfl
  | cons text texts ih =>
    rw [List.cons_append, internAll_cons, internAll_cons, ih, List.cons_append]

theorem bytes_prefix_internAll (t : StringTable) (texts : List Str) :
    t.bytes <+: (t.internAll texts).2.bytes := by
  induction texts generalizing t with
  | nil => exact List.prefix_refl _
  | cons text texts ih => exact (bytes_prefix_intern t text).trans (ih _)

theorem offsets_prefix_internAll (t : StringTable) (texts : List Str) :
    t.offsets <+: (t.internAll texts).2.offsets := by
  induction texts generalizing t with
  | nil => exact List.prefix_refl _
  | cons text texts ih => exact (offsets_prefix_intern t text).trans (ih _)

/-- Every run keeps the blob and the index in agreement. -/
theorem consistent_internAll {t : StringTable} (h : t.Consistent) {texts : List Str}
    (hlen : (t.internAll texts).2.bytes.length < 2 ^ 32) : (t.internAll texts).2.Consistent := by
  induction texts generalizing t with
  | nil => exact h
  | cons text texts ih =>
    rw [internAll_cons] at hlen ⊢
    have hgrow := bytes_prefix_internAll (t.intern text).2 texts
    exact ih (consistent_intern h text (hgrow.length_le.trans_lt hlen)) hlen

/-- What was returned during a run is in the index at its end. -/
theorem mem_offsets_internAll {t : StringTable} {texts : List Str} {call : Str × UInt32}
    (hcall : call ∈ (t.internAll texts).1) : call ∈ (t.internAll texts).2.offsets := by
  induction texts generalizing t with
  | nil => cases hcall
  | cons text texts ih =>
    rw [internAll_cons] at hcall ⊢
    rcases List.mem_cons.mp hcall with rfl | hcall
    · exact (offsets_prefix_internAll _ texts).subset (mem_offsets_intern t text)
    · exact ih hcall

theorem mem_names_internAll {t : StringTable} {texts : List Str} {name : Str} :
    name ∈ (t.internAll texts).2.names ↔ name ∈ t.names ∨ name ∈ texts := by
  induction texts generalizing t with
  | nil => simp [internAll]
  | cons text texts ih =>
    rw [internAll_cons]
    dsimp only
    rw [ih, mem_names_intern, List.mem_cons, or_assoc]

theorem map_fst_internAll (t : StringTable) (texts : List Str) :
    (t.internAll texts).1.map Prod.fst = texts := by
  induction texts generalizing t with
  | nil => rfl
  | cons text texts ih => rw [internAll_cons, List.map_cons, ih]

/-- Two entries of a consistent table with NUL-free names have the same offset exactly if they have
the same name. -/
theorem Consistent.offset_inj {t : StringTable} (h : t.Consistent) {entry entry' : Str × UInt32}
    (hentry : entry ∈ t.offsets) (hentry' : entry' ∈ t.offsets) (hfree : NulFree entry.1)
    (hfree' : NulFree entry'.1) : entry.2 = entry'.2 ↔ entry.1 = entry'.1 := by
  constructor
  · intro hoffset
    -- what is read there is both names
    have hread := h.sound _ _ hentry hfree
    rw [hoffset, h.sound _ _ hentry' hfree'] at hread
    exact (Except.ok.inj hread).symm
  · intro hname
    exact congrArg Prod.snd (List.inj_on_of_nodup_map h.nodup hentry hentry' hname)

/-! ### What a run leaves -/

/-- What the calls of a run should return, and what they should leave. -/
structure InternedOnce (texts : List Str) : Prop where
  /-- An offset reads its text back, however many calls follow. -/
  reads : ∀ earlier later, texts = earlier ++ later → ∀ call ∈ (internAll {} earlier).1,
    readString (internAll {} texts).2.bytes call.2 = .ok call.1
  same : ∀ call ∈ (internAll {} texts).1, ∀ call' ∈ (internAll {} texts).1,
    call.2 = call'.2 ↔ call.1 = call'.1
  zero : readString (internAll {} texts).2.bytes 0 = .ok [] ∧
    ∀ call ∈ (internAll {} texts).1, call.2 = 0 ↔ call.1 = []
  /-- Every text is stored exactly once. -/
  once : (strings (internAll {} texts).2.bytes).Nodup ∧
    ∀ text ∈ texts, text ∈ strings (internAll {} texts).2.bytes

/-- A run does what it should exactly if it does not intern the empty string. -/
theorem internedOnce_iff {texts : List Str} (hfree : ∀ text ∈ texts, NulFree text)
    (hlen : (internAll {} texts).2.bytes.length < 2 ^ 32) : InternedOnce texts ↔ [] ∉ texts := by
  have hfinal := consistent_internAll consistent_empty hlen
  have htext : ∀ call ∈ (internAll {} texts).1, call.1 ∈ texts := by
    intro call hcall
    rw [← map_fst_internAll {} texts]
    exact List.mem_map_of_mem hcall
  have hnames : ∀ name, name ∈ (internAll {} texts).2.names ↔ name ∈ texts := by
    intro name
    rw [mem_names_internAll]
    simp [names]
  constructor
  · intro h hempty
    -- the empty string was returned an offset behind the one it started at
    rw [← map_fst_internAll {} texts] at hempty
    obtain ⟨call, hcall, hname⟩ := List.mem_map.mp hempty
    exact hfinal.ne_zero call (mem_offsets_internAll hcall) ((h.zero.2 call hcall).mpr hname)
  · intro hempty
    have hstrings : strings (internAll {} texts).2.bytes = [] :: (internAll {} texts).2.names := by
      rw [hfinal.blob_eq]
      refine strings_blob fun name hname => ?_
      rcases List.mem_cons.mp hname with rfl | hname
      · exact List.not_mem_nil
      · exact hfree name ((hnames name).mp hname)
    refine ⟨?_, ?_, ⟨?_, ?_⟩, ?_, ?_⟩
    · rintro earlier later rfl call hcall
      have hmem : call ∈ (internAll {} (earlier ++ later)).1 := by
        rw [internAll_append]
        exact List.mem_append_left _ hcall
      exact hfinal.sound _ _ (mem_offsets_internAll hmem) (hfree _ (htext call hmem))
    · intro call hcall call' hcall'
      exact hfinal.offset_inj (mem_offsets_internAll hcall) (mem_offsets_internAll hcall')
        (hfree _ (htext call hcall)) (hfree _ (htext call' hcall'))
    · have hseed : readString [0] 0 = .ok [] := rfl
      exact readString_of_prefix hseed (bytes_prefix_internAll {} texts)
    · intro call hcall
      have hne : call.1 ≠ [] := fun h => hempty (h ▸ htext call hcall)
      exact ⟨fun h => absurd h (hfinal.ne_zero call (mem_offsets_internAll hcall)),
        fun h => absurd h hne⟩
    · rw [hstrings, List.nodup_cons, hnames]
      exact ⟨hempty, hfinal.nodup⟩
    · intro text hmem
      rw [hstrings]
      exact List.mem_cons_of_mem _ ((hnames text).mpr hmem)

/-- A name, another that ends like it, and the first again. -/
theorem internedOnce_main : InternedOnce [str "main", str "in", str "main"] :=
  (internedOnce_iff (by decide) (by decide)).mpr (by decide)

/-- A fresh table returns 1 for the empty string. -/
theorem empty_not_internedOnce : ¬InternedOnce [[]] := by
  intro h
  have hzero := (h.zero.2 ([], 1) (by decide)).mpr rfl
  revert hzero
  decide

end StringTable
end Binary
end MiniTool
