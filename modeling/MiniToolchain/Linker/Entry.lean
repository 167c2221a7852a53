import MiniToolchain.Linker.Order

/-!
# The entry point

What the last stage of a link checks is so for the regions of every link with the default bases, up
to the entry point.  The entry point passes when its label stands in front of an instruction; when
the label ends its section, what stands behind it is a matter of the order of the objects.

## Main definitions

* `Candidate` — a definition of the entry point that a link can choose.
* `EntryUsable`, `EntryEnds` — the label is in front of something, or at the end of its section.

## Main results

* `exists_buildExecutable` — the last stage succeeds when its entry point is in front of something.
* `candidate_of_link` — the entry point of a link that succeeds.
-/

namespace MiniTool
namespace Linker

open Object Bounds
open Executable (Segment SegmentFlags hasFlag overlap Valid validate checkEntry)
open Vm.VirtualMachine (ClearOf)

section

variable {options : LinkOptions} {objects : List ObjectFile} {start layout : Layout}

/-! ### Debug information -/

/-- Every entry of the line table names a file of the table of files. -/
def DebugInfo.Named (info : DebugInfo) : Prop :=
  ∀ entry ∈ info.entries, entry.file.toNat < info.sourceFiles.length

theorem DebugInfo.Named.addDebugEntry {info info' : DebugInfo} (h : info.Named) {i : ℕ}
    {o : ObjectFile} {entry : DebugEntry}
    (hstep : addDebugEntry layout i o info entry = .ok info') :
    info'.Named := by
  have hindex : ∀ file, (info.fileIndex file).2.Named ∧
      (info.fileIndex file).1.toNat < (info.fileIndex file).2.sourceFiles.length := by
    intro file
    have hofNat : ∀ n : ℕ, (UInt32.ofNat n).toNat ≤ n := fun n => Nat.mod_le n _
    unfold DebugInfo.fileIndex
    cases hfind : info.sourceFiles.findIdx? fun known => known = file with
    | some index =>
      have hlt := (List.findIdx?_eq_some_iff_getElem.mp hfind).1
      exact ⟨h, lt_of_le_of_lt (hofNat index) hlt⟩
    | none =>
      -- a new file is put behind the others
      have hlength : (info.sourceFiles ++ [file]).length = info.sourceFiles.length + 1 :=
        List.length_append
      refine ⟨fun entry hentry => ?_, ?_⟩
      · show entry.file.toNat < (info.sourceFiles ++ [file]).length
        have hlt := h entry hentry
        omega
      · show (UInt32.ofNat info.sourceFiles.length).toNat < (info.sourceFiles ++ [file]).length
        have hle := hofNat info.sourceFiles.length
        omega
  unfold Linker.addDebugEntry at hstep
  split_ifs at hstep
  · cases hstep
    exact h
  obtain ⟨placed, -, hstep⟩ := Checked.bind_eq_ok.mp hstep
  obtain ⟨found, -, hstep⟩ := Checked.bind_eq_ok.mp hstep
  cases found with
  | none =>
    cases hstep
    exact h
  | some placement =>
    obtain ⟨file, -, hstep⟩ := Checked.bind_eq_ok.mp hstep
    obtain ⟨region, -, hstep⟩ := Checked.bind_eq_ok.mp hstep
    cases hstep
    intro entry hentry
    obtain ⟨hnamed, hlt⟩ := hindex file
    rcases List.mem_append.mp hentry with hentry | hentry
    · exact hnamed entry hentry
    · rw [List.mem_singleton.mp hentry]
      exact hlt

theorem named_of_buildDebugInfo {info : DebugInfo} (h : buildDebugInfo layout objects = .ok info) :
    info.Named := by
  unfold buildDebugInfo at h
  obtain ⟨all, hfold, h⟩ := Checked.bind_eq_ok.mp h
  cases h
  have hall : all.Named := by
    refine Checked.foldlM_induction (p := DebugInfo.Named) ?_
      (fun _ hmem => absurd hmem List.not_mem_nil) hfold
    intro state entry state' _ hstate hstep
    exact Checked.foldlM_induction (p := DebugInfo.Named)
      (fun _ _ _ _ hkeep hone => hkeep.addDebugEntry hone) hstate hstep
  intro entry hentry
  exact hall entry (List.mem_mergeSort.mp hentry)

/-- The line table can always be built. -/
theorem exists_buildDebugInfo (h : InLayout objects layout) :
    ∃ info, buildDebugInfo layout objects = .ok info := by
  have helement : ∀ {α : Type} {xs : List α} {i : ℕ} {e : LinkError},
      elementAt xs i = .error e → e = .outOfRange := by
    intro α xs i e hfail
    unfold elementAt at hfail
    split at hfail
    · cases hfail
    · cases hfail
      rfl
  cases hbuild : buildDebugInfo layout objects with
  | ok info => exact ⟨info, rfl⟩
  | error e =>
    -- there is no other error than an access out of range
    exfalso
    by_cases hout : e = .outOfRange
    · rw [hout] at hbuild
      exact buildDebugInfo_ne_outOfRange h hbuild
    · have hstep : ∀ i o info entry, addDebugEntry layout i o info entry ≠ .error e := by
        intro i o info entry
        unfold Linker.addDebugEntry
        split_ifs
        · nofun
        refine Checked.bind_ne_error (fun hfail => hout (helement hfail)) fun placed _ => ?_
        refine Checked.bind_ne_error (fun hfail => hout (helement hfail)) fun found _ => ?_
        cases found with
        | none => nofun
        | some placement =>
          refine Checked.bind_ne_error (fun hfail => hout (helement hfail)) fun file _ => ?_
          exact Checked.bind_ne_error (fun hfail => hout (helement hfail)) fun region _ => nofun
      refine absurd hbuild ?_
      unfold buildDebugInfo
      refine Checked.bind_ne_error ?_ fun all _ => nofun
      refine Checked.foldlM_ne_error ?_ _ _
      intro info entry
      exact Checked.foldlM_ne_error (hstep entry.2 entry.1) _ info

/-! ### Segments -/

/-- What the loader checks of a region, and how the region of code differs from the others. -/
structure Region.Laid (region : Region) : Prop where
  base_le : region.base.toNat ≤ 0x300000
  writeXorExec : ¬(hasFlag region.flags SegmentFlags.write = true ∧
    hasFlag region.flags SegmentFlags.exec = true)
  bss : region.segment = .bss → region.zeroFilled = true
  text : region.type = .text →
    region.base.toNat = 0x10000 ∧ hasFlag region.flags SegmentFlags.exec = true
  notText : region.type ≠ .text →
    0x100000 ≤ region.base.toNat ∧ hasFlag region.flags SegmentFlags.exec = false

theorem laid_of_same (hbases : options.DefaultBases) {regions : List Region}
    (hsame : List.Forall₂ Region.Same (initRegions options) regions) :
    ∀ region ∈ regions, region.Laid := by
  have hinit : ∀ region ∈ initRegions options, region.Laid := by
    obtain ⟨htext, hrodata, hdata, hbss⟩ := hbases
    unfold initRegions
    rw [htext, hrodata, hdata, hbss]
    intro region hregion
    simp only [List.mem_cons, List.not_mem_nil, or_false] at hregion
    rcases hregion with rfl | rfl | rfl | rfl
    · exact ⟨by decide, by decide, nofun, fun _ => ⟨rfl, rfl⟩, fun h => absurd rfl h⟩
    · exact ⟨by decide, by decide, nofun, nofun, fun _ => ⟨by decide, rfl⟩⟩
    · exact ⟨by decide, by decide, nofun, nofun, fun _ => ⟨by decide, rfl⟩⟩
    · exact ⟨by decide, by decide, fun _ => rfl, nofun, fun _ => ⟨by decide, rfl⟩⟩
  intro region hregion
  obtain ⟨i, hi, rfl⟩ := List.mem_iff_getElem.mp hregion
  have hlength := hsame.length_eq
  have hone := hsame.get (by omega) hi
  have hlaid := hinit _ (List.get_mem _ ⟨i, by omega⟩)
  simp only [List.get_eq_getElem] at hone hlaid
  obtain ⟨hbase, hflags, hbss, htext, hnotText⟩ := hlaid
  rw [← hone.base, ← hone.flags, ← hone.segment, ← hone.zeroFilled, ← hone.type] at *
  exact ⟨hbase, hflags, hbss, htext, hnotText⟩

/-- The regions of a link become segments that pass the checks of the loader. -/
theorem valid_segmentOf {region : Region} (hlaid : region.Laid) (hsound : region.Sound)
    (hsize : region.size ≠ 0) : (segmentOf region).Valid := by
  have hcap : kRegionSize.toNat = 0xF0000 := rfl
  have hle := hsound.size_le
  have hbase := hlaid.base_le
  refine ⟨hsize, ?_, ?_, ?_, hlaid.writeXorExec⟩
  · show (if region.zeroFilled = true then [] else region.data).length ≤ region.size.toNat
    split_ifs with hzero
    · exact Nat.zero_le _
    · exact (hsound.data (Bool.eq_false_iff.mpr hzero)).le
  · show ¬region.base > 0xFFFFFFFFFFFFFFFF - region.size
    have hsub : (0xFFFFFFFFFFFFFFFF - region.size).toNat = 2 ^ 64 - 1 - region.size.toNat :=
      UInt64.toNat_sub_of_le
        _ _ (UInt64.le_iff_toNat_le.mpr (Nat.le_of_lt_succ region.size.toNat_lt))
    rw [gt_iff_lt, UInt64.lt_iff_toNat_lt, hsub]
    omega
  · rintro ⟨hbss, hdata⟩
    refine hdata ?_
    show (if region.zeroFilled = true then [] else region.data) = []
    rw [if_pos (hlaid.bss hbss)]

/-- The segments of some regions. -/
def segmentsOf (regions : List Region) : List Segment :=
  (regions.filter fun region => region.size ≠ 0).map segmentOf

theorem valid_segmentsOf (hbases : options.DefaultBases) {regions : List Region}
    (hsame : List.Forall₂ Region.Same (initRegions options) regions)
    (hsound : ∀ region ∈ regions, region.Sound) :
    (∀ s ∈ segmentsOf regions, s.Valid) ∧
      (segmentsOf regions).Pairwise fun a b => overlap a b = false := by
  have hvalid : ∀ s ∈ segmentsOf regions, s.Valid := by
    intro s hs
    obtain ⟨region, hregion, rfl⟩ := List.mem_map.mp hs
    obtain ⟨hmem, hsize⟩ := List.mem_filter.mp hregion
    exact valid_segmentOf (laid_of_same hbases hsame region hmem) (hsound region hmem)
      (of_decide_eq_true hsize)
  refine ⟨hvalid, ?_⟩
  have hclear : (segmentsOf regions).Pairwise fun a b =>
      ClearOf a b.virtualAddress b.virtualSize := by
    unfold segmentsOf
    rw [List.pairwise_map]
    exact (pairwise_of_capped (capped_of_same hbases hsame hsound) (by decide)).filter _
  refine hclear.imp_of_mem ?_
  intro a b ha hb hab
  rw [← Vm.VirtualMachine.overlaps_regionOf]
  exact Vm.VirtualMachine.overlaps_of_clearOf (hvalid a ha)
    (Vm.VirtualMachine.noWrap_of_valid (hvalid b hb)) hab

/-! ### The entry point -/

/-- The symbol stands in front of an instruction or the like. -/
def EntryUsable (o : ObjectFile) (s : Symbol) : Prop :=
  ∃ input, o.sections[s.sectionId.toNat]? = some input ∧ input.type = .text ∧
    8 ∣ s.value.toNat ∧ s.value.toNat < input.size.toNat

instance (o : ObjectFile) (s : Symbol) : Decidable (EntryUsable o s) :=
  decidable_of_iff ((o.sections[s.sectionId.toNat]?).any fun input =>
      input.type = .text ∧ 8 ∣ s.value.toNat ∧ s.value.toNat < input.size.toNat) (by
    unfold EntryUsable
    simp only [Option.any_eq_true, decide_eq_true_eq])

/-- The symbol stands at the end of a section of code. -/
def EntryEnds (o : ObjectFile) (s : Symbol) : Prop :=
  ∃ input, o.sections[s.sectionId.toNat]? = some input ∧ input.type = .text ∧
    s.value.toNat = input.size.toNat

/-- Where the address of a definition is. -/
theorem address_cases (h : ∀ o ∈ objects, Linkable o)
    (hmerge : mergeSections options objects = .ok start) {i : ℕ} {o : ObjectFile} {s : Symbol}
    (hobject : objects[i]? = some o) (hs : s ∈ o.symbols.symbols) (hdefined : s.defined = true)
    {address : UInt64} (haddress : addressOf start i o s = .ok address) :
    ∃ input offset region, o.sections[s.sectionId.toNat]? = some input ∧ region ∈ start.regions ∧
      region.type = input.type ∧ 8 ∣ offset.toNat ∧
      offset.toNat + input.size.toNat ≤ region.size.toNat ∧ s.value.toNat ≤ input.size.toNat ∧
      address = region.base + (offset + s.value) := by
  obtain ⟨input, hinput, hvalue⟩ := (h o (List.mem_of_getElem? hobject)).values s hs hdefined
  obtain ⟨placed, placement, region, hplaced, hplacement, hat, hregion, htype, hle, -⟩ :=
    exists_placement h hmerge (.refl start) hobject hinput
  have hlt := (List.getElem?_eq_some_iff.mp hinput).1
  unfold addressOf at haddress
  rw [if_neg (not_le.mpr hlt), elementAt_eq_ok hplaced, Checked.ok_bind,
    elementAt_eq_ok hplacement, Checked.ok_bind] at haddress
  dsimp only at haddress
  rw [elementAt_eq_ok hregion] at haddress
  refine ⟨input, placement.offset, region, hinput, List.mem_of_getElem? hregion, htype,
    dvd_placement h hmerge hat, hle, hvalue, ?_⟩
  rw [← UInt64.add_assoc]
  exact (Except.ok.inj haddress).symm

/-- A symbol of an executable that can be entered stands in front of something, unless it ends its
section. -/
theorem usable_of_checkEntry (h : ∀ o ∈ objects, Linkable o) (hbases : options.DefaultBases)
    (hmerge : mergeSections options objects = .ok start) {executable : Executable}
    (hvalid : executable.Valid) (hsegments : ∃ regions : List Region,
      List.Forall₂ Region.Same (initRegions options) regions ∧
      (∀ region ∈ regions, region.Sound) ∧ executable.segments = segmentsOf regions)
    {i : ℕ} {o : ObjectFile} {s : Symbol} (hobject : objects[i]? = some o)
    (hs : s ∈ o.symbols.symbols) (hdefined : s.defined = true)
    (haddress : addressOf start i o s = .ok executable.entryPoint) :
    EntryUsable o s ∨ EntryEnds o s := by
  have hcap : kRegionSize.toNat = 0xF0000 := rfl
  obtain ⟨input, offset, region, hinput, hregion, htype, hdvd, hle, hvalue, heq⟩ :=
    address_cases h hmerge hobject hs hdefined haddress
  have hmerged := merged_of_mergeSections hmerge
  have hlaid := laid_of_same hbases hmerged.same region hregion
  have hsize := (hmerged.sound region hregion).size_le
  have hbase := hlaid.base_le
  have hoffset : (offset + s.value).toNat = offset.toNat + s.value.toNat := by
    rw [UInt64.toNat_add, Nat.mod_eq_of_lt (by omega)]
  have hentry : executable.entryPoint.toNat =
      region.base.toNat + (offset.toNat + s.value.toNat) := by
    rw [heq, UInt64.toNat_add, hoffset, Nat.mod_eq_of_lt (by omega)]
  -- only the segment of code can be entered
  obtain ⟨haligned, segment, hsegment, hexec, hfrom, hto⟩ := entry_of_valid hvalid
  obtain ⟨regions, hsame, hsound, hall⟩ := hsegments
  rw [hall] at hsegment
  obtain ⟨code, hcode, rfl⟩ := List.mem_map.mp hsegment
  have hcodeMem := (List.mem_filter.mp hcode).1
  have hcodeLaid := laid_of_same hbases hsame code hcodeMem
  have hcodeSize := (hsound code hcodeMem).size_le
  have hcodeText : code.type = .text := by
    by_contra hnot
    have hflags := (hcodeLaid.notText hnot).2
    rw [show (segmentOf code).flags = code.flags from rfl, hflags] at hexec
    cases hexec
  have hcodeBase := (hcodeLaid.text hcodeText).1
  have hto' : executable.entryPoint.toNat < code.base.toNat + code.size.toNat := hto
  have htext : region.type = .text := by
    by_contra hnot
    have hfar := (hlaid.notText hnot).1
    omega
  have hregionBase := (hlaid.text htext).1
  rcases Nat.lt_or_eq_of_le hvalue with hlt | heq
  · refine Or.inl ⟨input, hinput, htype.symm.trans htext, ?_, hlt⟩
    omega
  · exact Or.inr ⟨input, hinput, htype.symm.trans htext, heq⟩

/-- An executable can be entered at a symbol in front of something. -/
theorem checkEntry_of_usable (h : ∀ o ∈ objects, Linkable o) (hbases : options.DefaultBases)
    (hmerge : mergeSections options objects = .ok start) (hpatched : start.Patched layout)
    {executable : Executable} (hsegments : executable.segments = segmentsOf layout.regions)
    (hsame : List.Forall₂ Region.Same (initRegions options) layout.regions)
    (hsound : ∀ region ∈ layout.regions, region.Sound) {i : ℕ} {o : ObjectFile} {s : Symbol}
    (hobject : objects[i]? = some o) (hs : s ∈ o.symbols.symbols) (hdefined : s.defined = true)
    (haddress : addressOf start i o s = .ok executable.entryPoint) (husable : EntryUsable o s) :
    checkEntry executable = .ok () ∧ executable.segments ≠ [] := by
  have hcap : kRegionSize.toNat = 0xF0000 := rfl
  obtain ⟨input, offset, region, hinput, hregion, htype, hdvd, hle, -, heq⟩ :=
    address_cases h hmerge hobject hs hdefined haddress
  obtain ⟨input', hinput', htext, hvalueDvd, hlt⟩ := husable
  rw [hinput] at hinput'
  cases hinput'
  obtain ⟨k, hk⟩ := List.mem_iff_getElem?.mp hregion
  obtain ⟨after, hafter, hone⟩ := hpatched.getElem?_left hk
  have hmem := List.mem_of_getElem? hafter
  have hlaid := laid_of_same hbases hsame after hmem
  have hafterText : after.type = .text := (hone.same.type.trans htype).trans htext
  obtain ⟨hbase, hexec⟩ := hlaid.text hafterText
  have hsize := (hsound after hmem).size_le
  rw [← hone.same.base] at heq
  rw [← hone.size] at hle
  have hoffset : (offset + s.value).toNat = offset.toNat + s.value.toNat := by
    rw [UInt64.toNat_add, Nat.mod_eq_of_lt (by omega)]
  have hentry : executable.entryPoint.toNat =
      after.base.toNat + (offset.toNat + s.value.toNat) := by
    rw [heq, UInt64.toNat_add, hoffset, Nat.mod_eq_of_lt (by omega)]
  have hnonempty : after.size ≠ 0 := by
    intro hzero
    rw [hzero] at hle
    have hzero' : (0 : UInt64).toNat = 0 := rfl
    omega
  have hsegment : segmentOf after ∈ executable.segments := by
    rw [hsegments]
    exact List.mem_map_of_mem (List.mem_filter.mpr ⟨hmem, decide_eq_true hnonempty⟩)
  obtain ⟨hvalid, hapart⟩ := valid_segmentsOf hbases hsame hsound
  rw [← hsegments] at hvalid hapart
  have hfind : executable.findSegment executable.entryPoint = some (segmentOf after) := by
    rw [heq]
    refine Executable.findSegment_of_apart hvalid hapart hsegment (offset + s.value) ?_
    rw [UInt64.lt_iff_toNat_lt, hoffset]
    show _ < after.size.toNat
    omega
  refine ⟨?_, List.ne_nil_of_mem hsegment⟩
  have haligned : ¬executable.entryPoint % UInt64.ofNat Isa.kInstructionSize ≠ 0 := by
    rw [not_not, ← UInt64.toNat_inj, UInt64.toNat_mod, hentry]
    show (after.base.toNat + (offset.toNat + s.value.toNat)) % 8 = 0
    omega
  unfold checkEntry
  dsimp only
  rw [if_neg haligned, hfind]
  dsimp only
  exact if_pos hexec

/-! ### The definition that is chosen -/

/-- A definition of a name that resolution can choose: a global one, or any if there is no global
one. -/
structure Candidate (objects : List ObjectFile) (name : Str) (o : ObjectFile) (s : Symbol) :
    Prop where
  object : o ∈ objects
  symbol : s ∈ o.symbols.symbols
  named : s.name = name
  offered : Offered s = true
  strongest : ∀ t ∈ allSymbols objects, t.name = name → Offered t = true → t.binding = .global →
    s.binding = .global

theorem Candidate.perm {objects' : List ObjectFile} {name : Str} {o : ObjectFile} {s : Symbol}
    (h : Candidate objects name o s) (hperm : objects.Perm objects') :
    Candidate objects' name o s where
  object := hperm.mem_iff.mp h.object
  symbol := h.symbol
  named := h.named
  offered := h.offered
  strongest t ht := h.strongest t ((perm_allSymbols hperm).mem_iff.mpr ht)

/-- What resolution leaves of a name that is defined. -/
theorem exists_candidate (hplain : PlainBindings objects) {symbols : Symbols}
    (hresolve : resolveSymbols start objects = .ok symbols) {name : Str} {d : Definition}
    (hlookup : symbols.definitions.lookup name = some d) :
    d.address = 0 ∧ (¬∃ o s, Candidate objects name o s) ∨
      ∃ i o s, objects[i]? = some o ∧ Candidate objects name o s ∧
        addressOf start i o s = .ok d.address := by
  obtain ⟨first, -, hresolved, hsecond⟩ := resolveSymbols_cases hplain hresolve
  have hgrown := grown_of_checkReferences hsecond
  have hname := hresolved name
  cases hchosen : chosen (fun v : (ObjectFile × ℕ) × Symbol => decide (v.2.binding = .global))
      (offersOf name (visits objects)) with
  | none =>
    rw [hchosen] at hname
    refine Or.inl ⟨hgrown.added name hname d hlookup, ?_⟩
    rintro ⟨o, s, hcandidate⟩
    have hdefined : DefinedIn objects name :=
      ⟨s, List.mem_flatMap.mpr ⟨o, hcandidate.object, hcandidate.symbol⟩, hcandidate.named,
        hcandidate.offered⟩
    exact hresolved.definedIn.mpr hdefined hname
  | some v =>
    rw [hchosen] at hname
    obtain ⟨d', hd', hdefines⟩ := hname
    rw [hgrown.kept name d' hd'] at hlookup
    cases hlookup
    obtain ⟨hv, hboth⟩ := List.mem_filter.mp (chosen_mem hchosen)
    obtain ⟨hvname, hoffered⟩ := (Bool.and_eq_true _ _).mp hboth
    obtain ⟨hobject, hs⟩ := mem_visits hv
    refine Or.inr ⟨v.1.2, v.1.1, v.2, hobject, ?_, hdefines.2⟩
    refine ⟨List.mem_of_getElem? hobject, hs, of_decide_eq_true hvname, hoffered, ?_⟩
    intro t ht htname htoffered htglobal
    obtain ⟨w, hw, rfl⟩ := mem_allSymbols.mp ht
    have hoffer : w ∈ offersOf name (visits objects) :=
      List.mem_filter.mpr ⟨hw, by rw [htoffered, decide_eq_true htname]; rfl⟩
    have hstrong := strong_of_chosen hoffer (by simpa using htglobal) hchosen
    exact of_decide_eq_true hstrong

/-- **The last stage succeeds** when every candidate for the entry point stands in front of
something. -/
theorem exists_buildExecutable (h : ∀ o ∈ objects, Linkable o) (hbases : options.DefaultBases)
    (hmerge : mergeSections options objects = .ok start) {symbols : Symbols}
    (hresolve : resolveSymbols start objects = .ok symbols)
    (hpatch : applyRelocations symbols objects start = .ok layout)
    (hexists : ∃ o s, Candidate objects options.entry o s)
    (husable : ∀ o s, Candidate objects options.entry o s → EntryUsable o s) :
    ∃ executable, buildExecutable options layout symbols objects = .ok executable := by
  have hplain := plainBindings_of_linkable h
  have hpatched := patched_of_applyRelocations hpatch
  obtain ⟨hsame, hsound⟩ := regions_of_link hmerge hpatch
  obtain ⟨info, hinfo⟩ :=
    exists_buildDebugInfo ((inLayout_of_mergeSections hmerge).patched hpatched)
  have hfound : symbols.definitions.lookup options.entry ≠ none := by
    obtain ⟨o, s, hcandidate⟩ := hexists
    obtain ⟨i, hobject⟩ := List.mem_iff_getElem?.mp hcandidate.object
    have hv : ((o, i), s) ∈ visits objects :=
      List.mem_flatMap.mpr ⟨(o, i), List.mem_zipIdx_iff_getElem?.mpr hobject,
        List.mem_map_of_mem hcandidate.symbol⟩
    have hprivate : ¬(s.defined = true ∧ s.binding = .local) := by
      rintro ⟨-, hlocal⟩
      have hoffered := ((Bool.and_eq_true _ _).mp hcandidate.offered).2
      rw [hlocal] at hoffered
      cases hoffered
    have hlookup := lookup_of_resolveSymbols hplain hresolve hv hprivate
    rwa [hcandidate.named] at hlookup
  obtain ⟨d, hd⟩ := Option.ne_none_iff_exists'.mp hfound
  rcases exists_candidate hplain hresolve hd with
    ⟨-, hnone⟩ | ⟨i, o, s, hobject, hcandidate, haddress⟩
  · exact absurd hexists hnone
  have hdefined := ((Bool.and_eq_true _ _).mp hcandidate.offered).1
  generalize hexecutable : ({
    entryPoint := d.address
    segments := segmentsOf layout.regions
    symbols := symbolEntries options symbols
    debugInfo := info.entries
    sourceFiles := info.sourceFiles } : Executable) = executable
  have hsegments : executable.segments = segmentsOf layout.regions := by rw [← hexecutable]
  have hentry : executable.entryPoint = d.address := by rw [← hexecutable]
  rw [← hentry] at haddress
  obtain ⟨hcheck, hne⟩ := checkEntry_of_usable h hbases hmerge hpatched hsegments hsame
    hsound hobject hcandidate.symbol hdefined haddress (husable o s hcandidate)
  obtain ⟨hvalid, hapart⟩ := valid_segmentsOf hbases hsame hsound
  rw [← hsegments] at hvalid hapart
  have hall : executable.Valid := {
    version := by rw [← hexecutable]
    segments_ne_nil := hne
    segments := hvalid
    apart := hapart
    entry := hcheck
    files := by
      rw [← hexecutable]
      exact named_of_buildDebugInfo hinfo }
  refine ⟨executable, ?_⟩
  unfold buildExecutable
  rw [hd]
  dsimp only
  rw [hinfo, Checked.ok_bind]
  unfold segmentsOf at hexecutable
  rw [hexecutable, Executable.validate_eq_ok.mpr hall]

theorem exists_link (h : ∀ o ∈ objects, Linkable o) (hbases : options.DefaultBases)
    (hne : objects ≠ []) (hpatched : (do
      let layout ← mergeSections options objects
      let symbols ← resolveSymbols layout objects
      applyRelocations symbols objects layout).isOk = true)
    (hexists : ∃ o s, Candidate objects options.entry o s)
    (husable : ∀ o s, Candidate objects options.entry o s → EntryUsable o s) :
    ∃ executable, link objects options = .ok executable := by
  unfold link
  rw [if_neg hne]
  cases hmerge : mergeSections options objects with
  | error e =>
    rw [hmerge] at hpatched
    cases hpatched
  | ok start =>
    rw [hmerge, Checked.ok_bind] at hpatched
    rw [Checked.ok_bind]
    cases hresolve : resolveSymbols start objects with
    | error e =>
      rw [hresolve] at hpatched
      cases hpatched
    | ok symbols =>
      rw [hresolve, Checked.ok_bind] at hpatched
      rw [Checked.ok_bind]
      cases hpatch : applyRelocations symbols objects start with
      | error e =>
        rw [hpatch] at hpatched
        cases hpatched
      | ok layout => exact exists_buildExecutable h hbases hmerge hresolve hpatch hexists husable

/-- **The entry point of a link that succeeds** is a candidate, and stands in front of something or
ends its section. -/
theorem candidate_of_link (h : ∀ o ∈ objects, Linkable o) (hbases : options.DefaultBases)
    {executable : Executable} (hlink : link objects options = .ok executable) :
    ∃ o s, Candidate objects options.entry o s ∧ (EntryUsable o s ∨ EntryEnds o s) := by
  have hvalid := Executable.validate_eq_ok.mp (validate_of_link hlink)
  have hsegments := segments_of_link hlink
  obtain ⟨-, start, symbols, layout, hmerge, hresolve, hpatch, hbuild⟩ := link_cases hlink
  obtain ⟨d, info, hd, -, hexecutable, -⟩ := buildExecutable_cases hbuild
  have hentry : executable.entryPoint = d.address := by rw [hexecutable]
  rcases exists_candidate (plainBindings_of_linkable h) hresolve hd with
    ⟨hzero, -⟩ | ⟨i, o, s, hobject, hcandidate, haddress⟩
  · -- there is no segment at the address 0
    exfalso
    obtain ⟨-, segment, hsegment, -, hfrom, -⟩ := entry_of_valid hvalid
    obtain ⟨regions, hsame, hsound, hall⟩ := hsegments
    rw [hall] at hsegment
    obtain ⟨region, hregion, rfl⟩ := List.mem_map.mp hsegment
    have hlaid := laid_of_same hbases hsame region (List.mem_filter.mp hregion).1
    rw [hentry, hzero] at hfrom
    have hbase : region.base.toNat ≤ 0 := hfrom
    by_cases htext : region.type = .text
    · have hcode := (hlaid.text htext).1
      omega
    · have hfar := (hlaid.notText htext).1
      omega
  · have hdefined := ((Bool.and_eq_true _ _).mp hcandidate.offered).1
    rw [← hentry] at haddress
    exact ⟨o, s, hcandidate, usable_of_checkEntry h hbases hmerge hvalid hsegments hobject
      hcandidate.symbol hdefined haddress⟩

/-! ### Objects without a defect -/

/-- Nothing about the objects keeps a link of them from succeeding. -/
structure Flawless (entry : Str) (objects : List ObjectFile) : Prop where
  nonempty : objects ≠ []
  noConflicts : NoConflicts objects
  supplied : Supplied objects
  readable : ∀ o ∈ objects, ∀ r ∈ o.relocations, Readable o r
  entered : ∃ o s, Candidate objects entry o s
  usable : ∀ o s, Candidate objects entry o s → EntryUsable o s

theorem Flawless.perm {entry : Str} {objects' : List ObjectFile} (h : Flawless entry objects)
    (hperm : objects.Perm objects') : Flawless entry objects' where
  nonempty := by
    intro hnil
    rw [hnil] at hperm
    exact h.nonempty hperm.eq_nil
  noConflicts := h.noConflicts.perm hperm
  supplied := h.supplied.perm hperm
  readable o ho := h.readable o (hperm.mem_iff.mpr ho)
  entered := by
    obtain ⟨o, s, hcandidate⟩ := h.entered
    exact ⟨o, s, hcandidate.perm hperm⟩
  usable o s hcandidate := h.usable o s (hcandidate.perm hperm.symm)

/-- The candidates for the entry point are alike, and none ends its section. -/
structure EntrySettled (entry : Str) (objects : List ObjectFile) : Prop where
  agree : ∀ o s o' s', Candidate objects entry o s → Candidate objects entry o' s' →
    EntryUsable o s → EntryUsable o' s'
  ends : ∀ o s, Candidate objects entry o s → ¬EntryEnds o s

theorem EntrySettled.perm {entry : Str} {objects' : List ObjectFile}
    (h : EntrySettled entry objects) (hperm : objects.Perm objects') :
    EntrySettled entry objects' where
  agree o s o' s' ho ho' := h.agree o s o' s' (ho.perm hperm.symm) (ho'.perm hperm.symm)
  ends o s ho := h.ends o s (ho.perm hperm.symm)

theorem flawless_of_link (h : ∀ o ∈ objects, Linkable o) (hbases : options.DefaultBases)
    (hunmixed : Unmixed objects) (hsettled : EntrySettled options.entry objects)
    {executable : Executable} (hlink : link objects options = .ok executable) :
    Flawless options.entry objects := by
  have hplain := plainBindings_of_linkable h
  obtain ⟨o, s, hcandidate, husable⟩ := candidate_of_link h hbases hlink
  obtain ⟨hne, start, symbols, layout, hmerge, hresolve, hpatch, -⟩ := link_cases hlink
  have hone : EntryUsable o s := husable.resolve_right (hsettled.ends o s hcandidate)
  exact {
    nonempty := hne
    noConflicts := noConflicts_of_resolveSymbols hplain hresolve
    supplied := supplied_of_resolveSymbols hplain hunmixed hresolve
    readable := readable_of_applyRelocations h hmerge hpatch
    entered := ⟨o, s, hcandidate⟩
    usable := fun o' s' hcandidate' => hsettled.agree o s o' s' hcandidate hcandidate' hone }

/-- **A link of objects without a defect fails only because something does not fit.** -/
theorem overflows_of_link (h : ∀ o ∈ objects, Linkable o) (hbases : options.DefaultBases)
    (hflawless : Flawless options.entry objects) {e : LinkError}
    (hfail : link objects options = .error e) : Overflows e := by
  unfold link at hfail
  rw [if_neg hflawless.nonempty] at hfail
  cases hmerge : mergeSections options objects with
  | error e' =>
    rw [hmerge] at hfail
    cases hfail
    exact overflows_of_mergeSections hmerge
  | ok start =>
    rw [hmerge, Checked.ok_bind] at hfail
    have haddress : ∀ v ∈ visits objects, v.2.defined = true →
        ∃ address, addressOf start v.1.2 v.1.1 v.2 = .ok address := by
      intro v hv hdefined
      obtain ⟨hobject, hs⟩ := mem_visits hv
      exact exists_addressOf h hmerge (.refl start) hobject hs hdefined
    obtain ⟨symbols, hresolve⟩ := exists_resolveSymbols (plainBindings_of_linkable h) haddress
      hflawless.noConflicts hflawless.supplied
    rw [hresolve, Checked.ok_bind] at hfail
    cases hpatch : applyRelocations symbols objects start with
    | error e' =>
      rw [hpatch] at hfail
      cases hfail
      exact overflows_of_applyRelocations h hmerge hresolve hflawless.readable hpatch
    | ok layout =>
      rw [hpatch, Checked.ok_bind] at hfail
      obtain ⟨executable, hbuild⟩ := exists_buildExecutable h hbases hmerge hresolve hpatch
        hflawless.entered hflawless.usable
      rw [hbuild] at hfail
      cases hfail

end

end Linker
end MiniTool
