import MiniToolchain.Linker.Patch
import MiniToolchain.Vm.Loading

/-!
# Linked executables load

The linker and the loader do not know each other.  They agree because every region starts at its
base and stays below its cap: the regions end before the heap begins, and the heap ends below the
stack.

## Main definitions

* `LinkOptions.DefaultBases` — the regions are where the source puts them.
* `Loadable` — what the loader needs of an executable.

## Main results

* `link_cases` — what a successful link went through.
* `validate_of_link`, `segments_of_link` — what it gives.
* `link_loads` — the executable is valid, and every machine loads it.
-/

namespace MiniTool
namespace Linker

open Executable (Segment SegmentFlags hasFlag validate)
open Object (ObjectFile)
open Vm (VirtualMachine)
open Vm.VirtualMachine (ClearOf)

/-- The regions are where the source puts them. -/
structure LinkOptions.DefaultBases (options : LinkOptions) : Prop where
  text : options.textBase = kTextBase
  rodata : options.rodataBase = kRodataBase
  data : options.dataBase = kDataBase
  bss : options.bssBase = kBssBase

/-- What the loader needs of an executable: nothing wraps, nothing overlaps, and the entry point is
aligned and inside executable memory. -/
structure Loadable (executable : Executable) : Prop where
  noWrap : ∀ s ∈ executable.segments, s.virtualAddress.toNat + s.virtualSize.toNat < 2 ^ 64
  apart : executable.segments.Pairwise fun a b => ClearOf a b.virtualAddress b.virtualSize
  stack : ∀ s ∈ executable.segments, ClearOf s (Vm.kStackTop - Vm.kStackSize) Vm.kStackSize
  heap : ∀ s ∈ executable.segments, ClearOf s Vm.kHeapBase Vm.kHeapSize
  entry_aligned : executable.entryPoint.toNat % 8 = 0
  entry_executable : ∃ s ∈ executable.segments, hasFlag s.flags SegmentFlags.exec = true ∧
    s.virtualAddress.toNat ≤ executable.entryPoint.toNat ∧
    executable.entryPoint.toNat < s.virtualAddress.toNat + s.virtualSize.toNat

/-! ### A successful link -/

/-- What a successful link went through. -/
theorem link_cases {objects : List ObjectFile} {options : LinkOptions} {executable : Executable}
    (h : link objects options = .ok executable) :
    objects ≠ [] ∧ ∃ layout symbols patched,
      mergeSections options objects = .ok layout ∧
      resolveSymbols layout objects = .ok symbols ∧
      applyRelocations symbols objects layout = .ok patched ∧
      buildExecutable options patched symbols objects = .ok executable := by
  unfold link at h
  split_ifs at h with hobjects
  · cases h
  obtain ⟨layout, hmerge, h⟩ := Checked.bind_eq_ok.mp h
  obtain ⟨symbols, hresolve, h⟩ := Checked.bind_eq_ok.mp h
  obtain ⟨patched, hpatch, hbuild⟩ := Checked.bind_eq_ok.mp h
  exact ⟨hobjects, layout, symbols, patched, hmerge, hresolve, hpatch, hbuild⟩

/-- What a successful last stage builds. -/
theorem buildExecutable_cases {options : LinkOptions} {layout : Layout} {symbols : Symbols}
    {objects : List ObjectFile} {executable : Executable}
    (h : buildExecutable options layout symbols objects = .ok executable) :
    ∃ entry info, symbols.definitions.lookup options.entry = some entry ∧
      buildDebugInfo layout objects = .ok info ∧
      executable =
        { entryPoint := entry.address
          segments := (layout.regions.filter fun region => region.size ≠ 0).map segmentOf
          symbols := symbolEntries options symbols
          debugInfo := info.entries
          sourceFiles := info.sourceFiles } ∧
      validate executable = .ok () := by
  unfold buildExecutable at h
  cases hentry : symbols.definitions.lookup options.entry with
  | none =>
    rw [hentry] at h
    cases h
  | some entry =>
    rw [hentry] at h
    obtain ⟨info, hinfo, h⟩ := Checked.bind_eq_ok.mp h
    dsimp only at h
    split at h
    · cases h
    · next hvalid =>
      cases h
      exact ⟨entry, info, rfl, hinfo, rfl, hvalid⟩

theorem validate_of_link {objects : List ObjectFile} {options : LinkOptions}
    {executable : Executable} (h : link objects options = .ok executable) :
    validate executable = .ok () := by
  obtain ⟨-, _, _, _, -, -, -, hbuild⟩ := link_cases h
  obtain ⟨_, _, -, -, -, hvalid⟩ := buildExecutable_cases hbuild
  exact hvalid

/-- The segments of a linked executable are the regions that are not empty. -/
theorem segments_of_link {objects : List ObjectFile} {options : LinkOptions}
    {executable : Executable} (h : link objects options = .ok executable) :
    ∃ regions : List Region, List.Forall₂ Region.Same (initRegions options) regions ∧
      (∀ region ∈ regions, region.Sound) ∧
      executable.segments = (regions.filter fun region => region.size ≠ 0).map segmentOf := by
  obtain ⟨-, layout, symbols, patched, hmerge, -, hpatch, hbuild⟩ := link_cases h
  obtain ⟨_, _, -, -, rfl, -⟩ := buildExecutable_cases hbuild
  obtain ⟨hsame, hsound⟩ := regions_of_link hmerge hpatch
  exact ⟨patched.regions, hsame, hsound, rfl⟩

/-! ### Where the segments are -/

/-- A region that starts at an address and stays below its cap. -/
def Capped (base : ℕ) (region : Region) : Prop :=
  region.base.toNat = base ∧ region.size.toNat ≤ kRegionSize.toNat

/-- The regions of a link with the default bases. -/
theorem capped_of_same {options : LinkOptions} (hbases : options.DefaultBases)
    {regions : List Region} (hsame : List.Forall₂ Region.Same (initRegions options) regions)
    (hsound : ∀ region ∈ regions, region.Sound) :
    List.Forall₂ Capped [0x10000, 0x100000, 0x200000, 0x300000] regions := by
  obtain ⟨htext, hrodata, hdata, hbss⟩ := hbases
  unfold initRegions at hsame
  rw [htext, hrodata, hdata, hbss] at hsame
  have hcapped : ∀ {a b : Region}, a.Same b → b ∈ regions → Capped a.base.toNat b :=
    fun hab hb => ⟨by rw [hab.base], (hsound _ hb).size_le⟩
  cases hsame with
  | cons h₁ hsame =>
  cases hsame with
  | cons h₂ hsame =>
  cases hsame with
  | cons h₃ hsame =>
  cases hsame with
  | cons h₄ hsame =>
  cases hsame
  exact .cons (hcapped h₁ (by simp)) (.cons (hcapped h₂ (by simp))
    (.cons (hcapped h₃ (by simp)) (.cons (hcapped h₄ (by simp)) .nil)))

/-- Where a segment of a link with the default bases is. -/
structure InPlace (segment : Segment) : Prop where
  base_le : segment.virtualAddress.toNat ≤ 0x300000
  size_le : segment.virtualSize.toNat ≤ kRegionSize.toNat

theorem inPlace_of_capped {base : ℕ} {region : Region} (h : Capped base region)
    (hbase : base ≤ 0x300000) : InPlace (segmentOf region) :=
  ⟨le_of_eq_of_le h.1 hbase, h.2⟩

theorem apart_of_capped {a b : ℕ} {first second : Region} (ha : Capped a first)
    (hb : Capped b second) (hab : a + kRegionSize.toNat ≤ b) :
    ClearOf (segmentOf first) (segmentOf second).virtualAddress (segmentOf second).virtualSize := by
  left
  show first.base.toNat + first.size.toNat ≤ second.base.toNat
  have h₁ := ha.1
  have h₂ := ha.2
  have h₃ := hb.1
  omega

/-- Regions in place stay apart. -/
theorem pairwise_of_capped {bases : List ℕ} {regions : List Region}
    (h : List.Forall₂ Capped bases regions)
    (hbases : bases.Pairwise fun a b => a + kRegionSize.toNat ≤ b) :
    regions.Pairwise fun first second =>
      ClearOf (segmentOf first) (segmentOf second).virtualAddress
        (segmentOf second).virtualSize := by
  induction h with
  | nil => exact .nil
  | @cons base region bases regions hfirst hrest ih =>
    rw [List.pairwise_cons] at hbases ⊢
    refine ⟨fun second hsecond => ?_, ih hbases.2⟩
    obtain ⟨i, hi, rfl⟩ := List.mem_iff_getElem.mp hsecond
    have hlength := hrest.length_eq
    exact apart_of_capped hfirst (hrest.get (by omega) hi) (hbases.1 _ (List.getElem_mem _))

theorem inPlace_of_link {objects : List ObjectFile} {options : LinkOptions}
    (hbases : options.DefaultBases) {executable : Executable}
    (h : link objects options = .ok executable) :
    (∀ s ∈ executable.segments, InPlace s) ∧
      executable.segments.Pairwise fun a b => ClearOf a b.virtualAddress b.virtualSize := by
  obtain ⟨regions, hsame, hsound, hsegments⟩ := segments_of_link h
  have hcapped := capped_of_same hbases hsame hsound
  rw [hsegments]
  constructor
  · intro s hs
    obtain ⟨region, hregion, rfl⟩ := List.mem_map.mp hs
    obtain ⟨i, hi, rfl⟩ := List.mem_iff_getElem.mp (List.mem_filter.mp hregion).1
    have hlength := hcapped.length_eq
    have hbase : ∀ base ∈ [0x10000, 0x100000, 0x200000, 0x300000], base ≤ 0x300000 := by decide
    exact inPlace_of_capped (hcapped.get (by omega) hi) (hbase _ (List.getElem_mem _))
  · rw [List.pairwise_map]
    exact (pairwise_of_capped hcapped (by decide)).filter _

/-- A segment in place ends before the heap begins. -/
theorem InPlace.heap {segment : Segment} (h : InPlace segment) :
    ClearOf segment Vm.kHeapBase Vm.kHeapSize := by
  have hcap : kRegionSize.toNat = 0xF0000 := rfl
  have hheap : Vm.kHeapBase.toNat = 0x10000000 := rfl
  have hbase := h.base_le
  have hsize := h.size_le
  left
  omega

theorem InPlace.stack {segment : Segment} (h : InPlace segment) :
    ClearOf segment (Vm.kStackTop - Vm.kStackSize) Vm.kStackSize := by
  have hcap : kRegionSize.toNat = 0xF0000 := rfl
  have hstack : (Vm.kStackTop - Vm.kStackSize).toNat = 0x7FEF0000 := rfl
  have hbase := h.base_le
  have hsize := h.size_le
  left
  omega

/-! ### The entry point -/

/-- What the check of the entry point establishes. -/
theorem entry_of_valid {executable : Executable} (h : executable.Valid) :
    executable.entryPoint.toNat % 8 = 0 ∧
      ∃ s ∈ executable.segments, hasFlag s.flags SegmentFlags.exec = true ∧
        s.virtualAddress.toNat ≤ executable.entryPoint.toNat ∧
        executable.entryPoint.toNat < s.virtualAddress.toNat + s.virtualSize.toNat := by
  have hentry := h.entry
  unfold Executable.checkEntry at hentry
  dsimp only at hentry
  split_ifs at hentry with haligned
  split at hentry
  · cases hentry
  · next s hfind =>
    split_ifs at hentry with hexec
    have haligned : executable.entryPoint.toNat % 8 = 0 := by
      have hmod := congrArg UInt64.toNat (not_not.mp haligned)
      rwa [UInt64.toNat_mod] at hmod
    have hin := List.find?_some hfind
    rw [Bool.and_eq_true, decide_eq_true_iff, decide_eq_true_iff, ge_iff_le,
      UInt64.le_iff_toNat_le, UInt64.lt_iff_toNat_lt] at hin
    obtain ⟨hle, hlt⟩ := hin
    rw [UInt64.toNat_sub_of_le _ _ (UInt64.le_iff_toNat_le.mpr hle)] at hlt
    exact ⟨haligned, s, List.mem_of_find?_eq_some hfind, hexec, hle, by omega⟩

/-! ### Loading -/

/-- Whatever the linker emits, the loader maps. -/
theorem link_loads {objects : List ObjectFile} {options : LinkOptions}
    (hbases : options.DefaultBases) {executable : Executable}
    (h : link objects options = .ok executable) (vm : VirtualMachine) :
    validate executable = .ok () ∧ (∃ start, vm.load executable = (.ok (), start)) ∧
      Loadable executable := by
  have hvalid := validate_of_link h
  have hv := Executable.validate_eq_ok.mp hvalid
  obtain ⟨hplace, hapart⟩ := inPlace_of_link hbases h
  obtain ⟨haligned, hexec⟩ := entry_of_valid hv
  refine ⟨hvalid, Vm.VirtualMachine.exists_load vm hvalid (fun s hs => (hplace s hs).stack)
    (fun s hs => (hplace s hs).heap), ?_⟩
  exact {
    noWrap := fun s hs => Vm.VirtualMachine.noWrap_of_valid (hv.segments s hs)
    apart := hapart
    stack := fun s hs => (hplace s hs).stack
    heap := fun s hs => (hplace s hs).heap
    entry_aligned := haligned
    entry_executable := hexec }

/-- `_start: HALT` as an object file. -/
def haltObject : ObjectFile where
  sections := [
    {},
    { name := str ".text", type := .text,
      flags := Object.SectionFlags.alloc ||| Object.SectionFlags.exec, alignment := 8,
      data := [0, 0, 0, 0, 0, 0, 0, 1], size := 8, index := 1 }]
  symbols := ⟨[
    { name := str "_start", binding := .global, type := .function, sectionId := 1,
      defined := true }],
    List.nodup_singleton _⟩

/-- `haltObject`, linked. -/
def haltExecutable : Executable where
  entryPoint := 0x10000
  segments := [
    { type := .text, flags := SegmentFlags.read ||| SegmentFlags.exec, name := str ".text",
      virtualAddress := 0x10000, virtualSize := 8, data := [0, 0, 0, 0, 0, 0, 0, 1] }]
  symbols := [{ name := str "_start", address := 0x10000, size := 0, kind := .function }]

theorem link_halt : link [haltObject] {} = .ok haltExecutable := by decide +kernel

theorem link_loads_halt : validate haltExecutable = .ok () ∧
    (∃ start, VirtualMachine.load {} haltExecutable = (.ok (), start)) ∧
    Loadable haltExecutable :=
  link_loads ⟨rfl, rfl, rfl, rfl⟩ link_halt {}

end Linker
end MiniTool
