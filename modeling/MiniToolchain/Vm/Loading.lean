import MiniToolchain.Vm.Step

/-!
# When loading succeeds

The loader maps the segments one after another, then the stack and the heap.  Every one of these
calls succeeds when the segments are valid and stay clear of the two.

## Main definitions

* `ClearOf` — a segment ends before a range of addresses or starts after it.
* `LeftBehind` — the memory after a load that fails.

## Main results

* `exists_mapSegments` — segments that overlap neither each other nor what is mapped.
* `exists_load`, `load_of_valid` — loading a valid executable, and when that fails.
-/

namespace MiniTool
namespace Vm
namespace VirtualMachine

open Executable (Segment overlap Valid)

/-- The segment ends before a range of addresses, or starts after it. -/
def ClearOf (segment : Segment) (base size : UInt64) : Prop :=
  segment.virtualAddress.toNat + segment.virtualSize.toNat ≤ base.toNat ∨
    base.toNat + size.toNat ≤ segment.virtualAddress.toNat

/-- Two segments overlap as the second overlaps the region of the first. -/
theorem overlaps_regionOf (a b : Segment) :
    VirtualMemory.overlaps (regionOf a) b.virtualAddress b.virtualSize = overlap a b :=
      Bool.and_comm _ _

theorem wraps_of_valid {segment : Segment} (h : segment.Valid) :
    VirtualMemory.wraps segment.virtualAddress segment.virtualSize = false := by
  unfold VirtualMemory.wraps
  rw [Bool.or_eq_false_iff, decide_eq_false_iff_not, decide_eq_false_iff_not]
  exact ⟨h.nonempty, h.noWrap⟩

/-- A valid segment ends within the address space. -/
theorem noWrap_of_valid {segment : Segment} (h : segment.Valid) :
    segment.virtualAddress.toNat + segment.virtualSize.toNat < 2 ^ 64 :=
  (VirtualMemory.bounded_of_not_wraps (wraps_of_valid h)).2

/-- Segments can be mapped when they overlap neither each other nor what is mapped. -/
theorem exists_mapSegments {segments : List Segment} :
    ∀ {memory : VirtualMemory}, (∀ s ∈ segments, s.Valid) →
      segments.Pairwise (fun a b => overlap a b = false) →
      (∀ r ∈ memory.regions, ∀ s ∈ segments,
        VirtualMemory.overlaps r s.virtualAddress s.virtualSize = false) →
      ∃ memory', mapSegments memory segments = (.ok (), memory') := by
  induction segments with
  | nil => exact fun {memory} _ _ _ => ⟨memory, rfl⟩
  | cons segment rest ih =>
    intro memory hvalid hapart hclear
    rw [List.pairwise_cons] at hapart
    obtain ⟨memory', hadd⟩ := VirtualMemory.exists_addRegion segment.name
      (permissionsOf segment.flags) segment.data
      (wraps_of_valid (hvalid segment List.mem_cons_self))
      fun r hr => hclear r hr segment List.mem_cons_self
    -- the new region is the segment's, and no later segment overlaps that
    have hclear' : ∀ r ∈ memory'.regions, ∀ s ∈ rest,
        VirtualMemory.overlaps r s.virtualAddress s.virtualSize = false := by
      intro r hr s hs
      rw [(VirtualMemory.addRegion_eq_some hadd).1, List.mem_append] at hr
      rcases hr with hr | hr
      · exact hclear r hr s (List.mem_cons_of_mem _ hs)
      · rw [List.mem_singleton.mp hr]
        exact (overlaps_regionOf segment s).trans (hapart.1 s hs)
    obtain ⟨final, hfinal⟩ := ih (fun s hs => hvalid s (List.mem_cons_of_mem _ hs)) hapart.2 hclear'
    refine ⟨final, ?_⟩
    unfold mapSegments
    rw [hadd]
    exact hfinal

theorem overlaps_of_clearOf {segment : Segment} (hvalid : segment.Valid) {base size : UInt64}
    (hrange : base.toNat + size.toNat < 2 ^ 64) (h : ClearOf segment base size) :
    VirtualMemory.overlaps (regionOf segment) base size = false := by
  have hsegment := noWrap_of_valid hvalid
  show (base < segment.virtualAddress + segment.virtualSize &&
    segment.virtualAddress < base + size) = false
  simp only [Bool.and_eq_false_iff, decide_eq_false_iff_not, UInt64.lt_iff_toNat_lt,
    UInt64.toNat_add, Nat.mod_eq_of_lt hsegment, Nat.mod_eq_of_lt hrange, not_lt]
  exact h

/-- A valid executable whose segments keep clear of the stack and the heap can be loaded. -/
theorem exists_load (vm : VirtualMachine) {executable : Executable}
    (hvalid : executable.validate = .ok ())
    (hstack : ∀ s ∈ executable.segments, ClearOf s (kStackTop - kStackSize) kStackSize)
    (hheap : ∀ s ∈ executable.segments, ClearOf s kHeapBase kHeapSize) :
    ∃ start, vm.load executable = (.ok (), start) := by
  have hv : Valid executable := Executable.validate_eq_ok.mp hvalid
  have hmap : ∃ memory, mapSegments VirtualMemory.empty executable.segments = (.ok (), memory) :=
    exists_mapSegments hv.segments hv.apart fun r hr => absurd hr List.not_mem_nil
  obtain ⟨segments, hsegments⟩ := hmap
  have hregions : segments.regions = executable.segments.map regionOf := by
    rw [regions_of_mapSegments hsegments]
    rfl
  obtain ⟨stack, haddStack⟩ := VirtualMemory.exists_addRegion (m := segments)
    (str "stack") readWrite [] (show VirtualMemory.wraps (kStackTop - kStackSize) kStackSize =
        false by decide) (by
      intro r hr
      rw [hregions, List.mem_map] at hr
      obtain ⟨s, hs, rfl⟩ := hr
      exact overlaps_of_clearOf (hv.segments s hs) (by decide) (hstack s hs))
  obtain ⟨heap, haddHeap⟩ := VirtualMemory.exists_addRegion (m := stack) (str "heap") readWrite
    [] (show VirtualMemory.wraps kHeapBase kHeapSize = false by decide) (by
      intro r hr
      rw [(VirtualMemory.addRegion_eq_some haddStack).1, hregions, List.mem_append, List.mem_map]
        at hr
      rcases hr with ⟨s, hs, rfl⟩ | hr
      · exact overlaps_of_clearOf (hv.segments s hs) (by decide) (hheap s hs)
      · rw [List.mem_singleton.mp hr]
        show VirtualMemory.overlaps stackRegion kHeapBase kHeapSize = false
        decide)
  unfold load
  rw [hvalid]
  dsimp only
  rw [hsegments]
  dsimp only
  rw [haddStack]
  dsimp only
  rw [haddHeap]
  exact ⟨_, rfl⟩

/-! ### When loading fails -/

theorem addRegion_eq_none {m : VirtualMemory} {name : Str} {base size : UInt64}
    {permissions : Permission} {initial : List UInt8}
    (hwraps : VirtualMemory.wraps base size = false) :
    m.addRegion name base size permissions initial = none ↔
      ∃ r ∈ m.regions, VirtualMemory.overlaps r base size = true := by
  constructor
  · intro hnone
    by_contra hclear
    have hapart : ∀ r ∈ m.regions, VirtualMemory.overlaps r base size = false := by
      intro r hr
      rw [← Bool.not_eq_true]
      exact fun hover => hclear ⟨r, hr, hover⟩
    obtain ⟨m', hadd⟩ := VirtualMemory.exists_addRegion name permissions initial hwraps hapart
    rw [hnone] at hadd
    cases hadd
  · rintro ⟨r, hr, hover⟩
    unfold VirtualMemory.addRegion
    rw [dif_neg (by simp [hwraps]), dif_pos (List.any_eq_true.mpr ⟨r, hr, hover⟩)]

theorem overlaps_iff_not_clearOf {segment : Segment} (hvalid : segment.Valid) {base size : UInt64}
    (hrange : base.toNat + size.toNat < 2 ^ 64) :
    VirtualMemory.overlaps (regionOf segment) base size = true ↔ ¬ClearOf segment base size := by
  constructor
  · intro hover hclear
    rw [overlaps_of_clearOf hvalid hrange hclear] at hover
    cases hover
  · intro hclear
    have hsegment := noWrap_of_valid hvalid
    unfold ClearOf at hclear
    show (base < segment.virtualAddress + segment.virtualSize &&
      segment.virtualAddress < base + size) = true
    rw [Bool.and_eq_true, decide_eq_true_eq, decide_eq_true_eq, UInt64.lt_iff_toNat_lt,
      UInt64.lt_iff_toNat_lt, UInt64.toNat_add, UInt64.toNat_add, Nat.mod_eq_of_lt hsegment,
      Nat.mod_eq_of_lt hrange]
    omega

/-- Where the heap starts after the segments are mapped: at the last one named `heap`. -/
def heapStart (segments : List Segment) (next : UInt64) : UInt64 :=
  segments.foldl (fun next s => if s.name = str "heap" then s.virtualAddress else next) next

theorem heapNext_of_mapSegments {segments : List Segment} :
    ∀ {memory memory' : VirtualMemory}, mapSegments memory segments = (.ok (), memory') →
      memory'.heapNext = heapStart segments memory.heapNext := by
  induction segments with
  | nil =>
    intro memory memory' h
    cases h
    rfl
  | cons segment rest ih =>
    intro memory memory' h
    unfold mapSegments at h
    split at h
    · simp at h
    · next hadd =>
      rw [ih h, (VirtualMemory.addRegion_eq_some hadd).2]
      rfl

/-- No segment reaches into the stack. -/
def ClearOfStack (executable : Executable) : Prop :=
  ∀ s ∈ executable.segments, ClearOf s (kStackTop - kStackSize) kStackSize

/-- No segment reaches into the heap. -/
def ClearOfHeap (executable : Executable) : Prop :=
  ∀ s ∈ executable.segments, ClearOf s kHeapBase kHeapSize

/-- What a load that fails has mapped: the segments, and the stack if they keep clear of it. -/
structure LeftBehind (executable : Executable) (memory : VirtualMemory) : Prop where
  without : ¬ClearOfStack executable → memory.regions = executable.segments.map regionOf
  withStack : ClearOfStack executable →
    memory.regions = executable.segments.map regionOf ++ [stackRegion]
  heap : memory.heapNext = heapStart executable.segments 0

theorem LeftBehind.eq {executable : Executable} {m m' : VirtualMemory}
    (h : LeftBehind executable m) (h' : LeftBehind executable m') : m = m' := by
  have hregions : m.regions = m'.regions := by
    by_cases hstack : ClearOfStack executable
    · rw [h.withStack hstack, h'.withStack hstack]
    · rw [h.without hstack, h'.without hstack]
  have hheap : m.heapNext = m'.heapNext := h.heap.trans h'.heap.symm
  cases m
  cases m'
  cases hregions
  cases hheap
  rfl

/-- Loading a valid executable fails exactly when a segment reaches into the stack or the heap; the
memory is then a partial mapping, and nothing else has changed. -/
theorem load_of_valid (vm : VirtualMachine) {executable : Executable}
    (hvalid : executable.validate = .ok ()) :
    (ClearOfStack executable ∧ ClearOfHeap executable ∧
      ∃ start, vm.load executable = (.ok (), start)) ∨
    ¬(ClearOfStack executable ∧ ClearOfHeap executable) ∧
      ∃ e memory, LeftBehind executable memory ∧
        vm.load executable = (.error e, { vm with memory }) := by
  by_cases hclear : ClearOfStack executable ∧ ClearOfHeap executable
  · exact Or.inl ⟨hclear.1, hclear.2, exists_load vm hvalid hclear.1 hclear.2⟩
  refine Or.inr ⟨hclear, ?_⟩
  have hv : Valid executable := Executable.validate_eq_ok.mp hvalid
  obtain ⟨segments, hsegments⟩ : ∃ memory,
      mapSegments VirtualMemory.empty executable.segments = (.ok (), memory) :=
    exists_mapSegments hv.segments hv.apart fun r hr => absurd hr List.not_mem_nil
  have hregions : segments.regions = executable.segments.map regionOf := by
    rw [regions_of_mapSegments hsegments]
    rfl
  have hheapNext : segments.heapNext = heapStart executable.segments 0 :=
    heapNext_of_mapSegments hsegments
  unfold load
  rw [hvalid]
  dsimp only
  rw [hsegments]
  dsimp only
  -- the first region that cannot be mapped decides what is left behind
  cases hadd : segments.addRegion (str "stack") (kStackTop - kStackSize) kStackSize
      readWrite [] with
  | none =>
    have hstack : ¬ClearOfStack executable := by
      intro hstack
      obtain ⟨r, hr, hover⟩ := (addRegion_eq_none (by decide)).mp hadd
      rw [hregions, List.mem_map] at hr
      obtain ⟨s, hs, rfl⟩ := hr
      exact (overlaps_iff_not_clearOf (hv.segments s hs) (by decide)).mp hover (hstack s hs)
    exact ⟨_, segments, ⟨fun _ => hregions, fun h => absurd h hstack, hheapNext⟩, rfl⟩
  | some stack =>
    obtain ⟨hstackRegions, hstackHeap⟩ := VirtualMemory.addRegion_eq_some hadd
    have hempty : Window.overwrite (fun _ => (0 : UInt8)) 0 [] = fun _ => 0 :=
      Window.overwrite_nil _ _
    rw [hregions, List.take_nil, hempty] at hstackRegions
    have hstack : ClearOfStack executable := by
      intro s hs
      by_contra hreaches
      have hover := (overlaps_iff_not_clearOf (hv.segments s hs) (by decide)).mpr hreaches
      have hnone := (@addRegion_eq_none segments (str "stack") (kStackTop - kStackSize) kStackSize
        readWrite [] (by decide)).mpr
          ⟨regionOf s, by rw [hregions]; exact List.mem_map_of_mem hs, hover⟩
      rw [hadd] at hnone
      cases hnone
    have hleft : LeftBehind executable stack :=
      ⟨fun h => absurd hstack h, fun _ => hstackRegions, hstackHeap.trans hheapNext⟩
    dsimp only
    cases hheap : stack.addRegion (str "heap") kHeapBase kHeapSize readWrite [] with
    | none => exact ⟨_, stack, hleft, rfl⟩
    | some heap =>
      refine absurd ⟨hstack, fun s hs => ?_⟩ hclear
      by_contra hreaches
      have hover := (overlaps_iff_not_clearOf (hv.segments s hs) (by decide)).mpr hreaches
      have hnone := (@addRegion_eq_none stack (str "heap") kHeapBase kHeapSize readWrite []
        (by decide)).mpr
          ⟨regionOf s, by
            rw [hstackRegions]
            exact List.mem_append_left _ (List.mem_map_of_mem hs), hover⟩
      rw [hheap] at hnone
      cases hnone

/-- A load that fails leaves the machine as it was, or without a program. -/
def LoadAtomic (vm : VirtualMachine) (executable : Executable) : Prop :=
  let (outcome, after) := vm.load executable
  ∀ e, outcome = .error e →
    (after.memory = vm.memory ∧ after.cpu = vm.cpu ∧ after.loaded = vm.loaded) ∨
    (after.loaded = false ∧
      (∃ fault, after.step = (.error fault, after) ∧ fault.error = .notLoaded) ∧
      ∀ budget, (after.run budget).1.error = .notLoaded)

/-- A data segment that ends in the stack. -/
def stackCollision : Executable where
  segments := [
    { type := .text, flags := Executable.SegmentFlags.read ||| Executable.SegmentFlags.exec,
      name := str ".text", virtualSize := 8, data := List.replicate 8 0 },
    { type := .data, flags := Executable.SegmentFlags.read ||| Executable.SegmentFlags.write,
      name := str ".data", virtualAddress := 0x7FFEFFF8, virtualSize := 8 }]

/-- A machine that has executed its program refuses a second one: the memory is that of the second,
the processor that of the first, and it goes on as loaded. -/
theorem load_mixes : load {} Executable.nopExecutable = (.ok (), loadedNop) ∧
    Runs loadedNop loadedNop.step.2 ∧ stackCollision.validate = .ok () ∧
    ¬LoadAtomic loadedNop.step.2 stackCollision := by
  refine ⟨load_nop, Relation.ReflTransGen.single (.step loadedNop), by decide, ?_⟩
  intro hatomic
  have hloaded : (loadedNop.step.2.load stackCollision).2.loaded = true := by rfl
  have hregions : (loadedNop.step.2.load stackCollision).2.memory.regions.length ≠
      loadedNop.step.2.memory.regions.length := by decide
  rcases hatomic _ rfl with ⟨hmemory, -, -⟩ | ⟨hnot, -, -⟩
  · exact hregions (congrArg (fun m : VirtualMemory => m.regions.length) hmemory)
  · replace hnot : (loadedNop.step.2.load stackCollision).2.loaded = false := hnot
    rw [hloaded] at hnot
    cases hnot

/-- Loading is atomic exactly when nothing is loaded, the executable is refused before anything is
mapped, its segments keep clear of the stack and the heap, or the memory happens to be what the
failed load leaves behind. -/
theorem loadAtomic_iff (vm : VirtualMachine) (executable : Executable) :
    LoadAtomic vm executable ↔
      vm.loaded = false ∨ executable.validate ≠ .ok () ∨
        (ClearOfStack executable ∧ ClearOfHeap executable) ∨ LeftBehind executable vm.memory := by
  unfold LoadAtomic
  cases hvalid : executable.validate with
  | error e =>
    -- the first check comes before the memory is cleared
    have hload : vm.load executable = (.error e, vm) := by
      unfold load
      rw [hvalid]
    rw [hload]
    exact ⟨fun _ => Or.inr (Or.inl nofun), fun _ _ _ => Or.inl ⟨rfl, rfl, rfl⟩⟩
  | ok u =>
    rcases load_of_valid vm hvalid with
      ⟨hstack, hheap, start, hload⟩ | ⟨hclear, e, memory, hleft, hload⟩
    · rw [hload]
      exact ⟨fun _ => Or.inr (Or.inr (Or.inl ⟨hstack, hheap⟩)), fun _ _ h => nomatch h⟩
    · rw [hload]
      constructor
      · intro hatomic
        rcases hatomic e rfl with ⟨hmemory, -, -⟩ | ⟨hloaded, -, -⟩
        · replace hmemory : memory = vm.memory := hmemory
          rw [← hmemory]
          exact Or.inr (Or.inr (Or.inr hleft))
        · exact Or.inl hloaded
      · rintro (hloaded | hinvalid | hstays | hsame) e' -
        · right
          refine ⟨hloaded, ⟨⟨.notLoaded, "no program is loaded", vm.cpu.pc⟩, ?_, rfl⟩,
            fun budget => ?_⟩
          · unfold step
            dsimp only
            rw [hloaded]
            rfl
          · unfold run
            dsimp only
            rw [hloaded]
            rfl
        · exact absurd rfl hinvalid
        · exact absurd hstays hclear
        · exact Or.inl ⟨hleft.eq hsame, rfl, rfl⟩

end VirtualMachine
end Vm
end MiniTool
