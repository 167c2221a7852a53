import MiniToolchain.Vm.Step

/-!
# The heap

The blocks a program is given, over any run of a loaded machine.  The allocator compares
`heap_next` with `end - rounded`, which wraps for a request larger than the address of the end: such
a request succeeds, and the next one starts where it wrapped to.

## Main definitions

* `Request` — a call of `allocate`, with the memory it was made on.
* `HeapRun` — a run, with its requests.
* `Request.Meets` — the requests the comparison is right about.
* `Sound` — what an allocator owes its callers.

## Main results

* `sound_iff` — the blocks of a run are sound exactly when each request meets the condition.
* `heap_blocks_overlap` — a loaded machine that returns one block twice.
-/

namespace MiniTool
namespace Vm

open Checked Isa

abbrev heapEnd : ℕ := kHeapBase.toNat + kHeapSize.toNat

/-! ### Rounding -/

theorem and_not_seven (x : UInt64) : (x &&& ~~~7).toNat = x.toNat / 8 * 8 := by
  have hmask : (~~~(7 : UInt64)).toNat = (2 ^ 61 - 1) * 2 ^ 3 := rfl
  have hlt : x.toNat < 2 ^ 64 := x.toNat_lt
  rw [UInt64.toNat_and, hmask]
  apply Nat.eq_of_testBit_eq
  intro i
  rw [Nat.testBit_and, Nat.testBit_mul_two_pow, show 8 = 2 ^ 3 from rfl, Nat.testBit_mul_two_pow,
    Nat.testBit_div_two_pow, Nat.testBit_two_pow_sub_one]
  by_cases hi : 3 ≤ i
  · rw [Nat.sub_add_cancel hi]
    by_cases hlarge : i < 64
    · simp [hi, show i - 3 < 61 by omega]
    · have hbit : x.toNat.testBit i = false :=
        Nat.testBit_lt_two_pow (lt_of_lt_of_le hlt (Nat.pow_le_pow_right (by omega) (by omega)))
      simp [hbit]
  · simp [hi]

/-- Rounding overflows for the last seven sizes only. -/
theorem rounded_lt_iff (size : UInt64) :
    VirtualMemory.rounded size < size ↔ 2 ^ 64 - 8 < size.toNat := by
  have hlt : size.toNat < 2 ^ 64 := size.toNat_lt
  have h7 : (7 : UInt64).toNat = 7 := rfl
  rw [VirtualMemory.rounded, UInt64.lt_iff_toNat_lt, and_not_seven, UInt64.toNat_add, h7]
  omega

theorem toNat_rounded {size : UInt64} (h : size.toNat ≤ 2 ^ 64 - 8) :
    (VirtualMemory.rounded size).toNat = (size.toNat + 7) / 8 * 8 := by
  have h7 : (7 : UInt64).toNat = 7 := rfl
  rw [VirtualMemory.rounded, and_not_seven, UInt64.toNat_add, h7, Nat.mod_eq_of_lt (by omega)]

/-! ### Requests -/

/-- A call of `allocate`. -/
structure Request where
  memory : VirtualMemory
  size : UInt64

namespace Request

/-- What the call returns. -/
def block (request : Request) : Except MemoryFault UInt64 :=
  (request.memory.allocate request.size).1

/-- The memory after the call. -/
def after (request : Request) : VirtualMemory := (request.memory.allocate request.size).2

/-- The room the rounded block needs is left in the heap. -/
def Fits (request : Request) : Prop :=
  request.memory.heapNext.toNat + (request.size.toNat + 7) / 8 * 8 ≤ heapEnd

/-- The comparison of the allocator is right about the request.  While the heap has room, the size
is not beyond the address of its end, or so large that the rounding overflows.  Once it is full, no
segment that the program itself named `heap` starts there, or the request is refused on it. -/
def Meets (request : Request) : Prop :=
  (request.memory.heapNext.toNat < heapEnd →
      request.size.toNat ≤ heapEnd ∨ 2 ^ 64 - 8 < request.size.toNat) ∧
    (request.memory.heapNext.toNat = heapEnd → ∀ r ∈ request.memory.regions,
      r.name = str "heap" → r.base.toNat = heapEnd →
        request.size = 0 ∨ 2 ^ 64 - 8 < request.size.toNat ∨
          (r.size.toNat < (request.size.toNat + 7) / 8 * 8 ∧
            (request.size.toNat + 7) / 8 * 8 ≤ r.stop))

instance (request : Request) : Decidable request.Meets :=
  inferInstanceAs (Decidable ((_ → _) ∧ (_ → ∀ r ∈ request.memory.regions, _ → _ → _)))

end Request

/-- What an allocator owes its callers: a block is aligned and inside the heap, two blocks share no
byte, a request that fails changes nothing, and one that fits does not fail. -/
structure Sound (log : List Request) : Prop where
  inside : ∀ request ∈ log, 0 < request.size.toNat → ∀ block, request.block = .ok block →
    block.toNat % 8 = 0 ∧ kHeapBase.toNat ≤ block.toNat ∧
      block.toNat + request.size.toNat ≤ heapEnd
  disjoint : log.Pairwise fun first second => 0 < first.size.toNat → 0 < second.size.toNat →
    ∀ a b, first.block = .ok a → second.block = .ok b →
      a.toNat + first.size.toNat ≤ b.toNat ∨ b.toNat + second.size.toNat ≤ a.toNat
  failing : ∀ request ∈ log, ∀ fault, request.block = .error fault →
    request.after = request.memory
  fitting : ∀ request ∈ log, 0 < request.size.toNat → request.Fits →
    ∃ block, request.block = .ok block

/-! ### One request -/

section

variable {m : VirtualMemory} {size : UInt64}

/-- When the allocator finds room, in the region the heap stands in. -/
theorem exists_allocate_iff (size : UInt64) {r : Region} (hr : m.regionAt m.heapNext = some r)
    (hname : r.name = str "heap") :
    (∃ block, (m.allocate size).1 = .ok block) ↔ size.toNat ≤ 2 ^ 64 - 8 ∧
      (m.heapNext.toNat + (size.toNat + 7) / 8 * 8 ≤ r.stop ∨
        r.stop < (size.toNat + 7) / 8 * 8) := by
  obtain ⟨hmem, hcontains⟩ := VirtualMemory.regionAt_eq_some.mp hr
  obtain ⟨-, hstop⟩ := m.bounded r hmem
  obtain ⟨-, hinside⟩ := Region.contains_iff.mp hcontains
  have hsum : (r.base + r.size).toNat = r.stop := by
    rw [UInt64.toNat_add]
    exact Nat.mod_eq_of_lt hstop
  unfold VirtualMemory.allocate
  simp only [hr, hname, ne_eq, not_true, if_false]
  by_cases hround : 2 ^ 64 - 8 < size.toNat
  · rw [if_pos ((rounded_lt_iff size).mpr hround)]
    constructor
    · rintro ⟨block, hblock⟩
      cases hblock
    · rintro ⟨hle, -⟩
      omega
  · rw [if_neg fun h => hround ((rounded_lt_iff size).mp h)]
    have hrounded := toNat_rounded (not_lt.mp hround)
    have hlt := (VirtualMemory.rounded size).toNat_lt
    have hfull : m.heapNext > r.base + r.size - VirtualMemory.rounded size ↔
        ¬(m.heapNext.toNat + (size.toNat + 7) / 8 * 8 ≤ r.stop ∨
          r.stop < (size.toNat + 7) / 8 * 8) := by
      rw [gt_iff_lt, UInt64.lt_iff_toNat_lt, UInt64.toNat_sub, hsum, hrounded]
      omega
    by_cases hroom : m.heapNext.toNat + (size.toNat + 7) / 8 * 8 ≤ r.stop ∨
        r.stop < (size.toNat + 7) / 8 * 8
    · rw [if_neg fun h => hfull.mp h hroom]
      exact ⟨fun _ => ⟨not_lt.mp hround, hroom⟩, fun _ => ⟨_, rfl⟩⟩
    · rw [if_pos (hfull.mpr hroom)]
      constructor
      · rintro ⟨block, hblock⟩
        cases hblock
      · rintro ⟨-, h⟩
        exact absurd h hroom

/-- The allocator finds room in a region named `heap` only. -/
theorem region_of_allocate {block : UInt64} (h : (m.allocate size).1 = .ok block) :
    block = m.heapNext ∧ ∃ r, m.regionAt m.heapNext = some r ∧ r.name = str "heap" := by
  constructor
  · rcases VirtualMemory.allocate_cases m size with hcase | hcase
    · rw [hcase] at h
      cases h
    · rw [hcase] at h
      cases h
      rfl
  · unfold VirtualMemory.allocate at h
    dsimp only at h
    split at h
    · cases h
    · next r hr =>
      by_cases hname : r.name = str "heap"
      · exact ⟨r, hr, hname⟩
      · rw [if_pos hname] at h
        cases h

/-- The heap region is where `load` maps it, and the next block starts in it, or at its end. -/
structure HeapInvariant (m : VirtualMemory) : Prop where
  mapped : VirtualMachine.heapRegion.shape ∈ m.shapes
  aligned : m.heapNext.toNat % 8 = 0
  low : kHeapBase.toNat ≤ m.heapNext.toNat
  high : m.heapNext.toNat ≤ heapEnd

namespace HeapInvariant

/-- The heap of the machine. -/
theorem exists_region (h : HeapInvariant m) : ∃ r ∈ m.regions, r.name = str "heap" ∧
    r.base.toNat = kHeapBase.toNat ∧ r.stop = heapEnd := by
  obtain ⟨r, hr, hshape⟩ := List.mem_map.mp h.mapped
  have hname : r.name = str "heap" := congrArg (·.1) hshape
  have hbase : r.base = kHeapBase := congrArg (·.2.1) hshape
  have hsize : r.size = kHeapSize := congrArg (·.2.2.1) hshape
  exact ⟨r, hr, hname, by rw [hbase], by rw [Region.stop, hbase, hsize]⟩

/-- While there is room, the heap stands in its region. -/
theorem regionAt_of_lt (h : HeapInvariant m) (hlt : m.heapNext.toNat < heapEnd) :
    ∃ r, m.regionAt m.heapNext = some r ∧ r.name = str "heap" ∧ r.stop = heapEnd := by
  obtain ⟨r, hr, hname, hbase, hstop⟩ := h.exists_region
  refine ⟨r, VirtualMemory.regionAt_eq_some.mpr ⟨hr, ?_⟩, hname, hstop⟩
  rw [Region.contains_iff, hbase, hstop]
  exact ⟨h.low, hlt⟩

/-- Past its region, the heap stands at the start of another one. -/
theorem base_of_eq (h : HeapInvariant m) (heq : m.heapNext.toNat = heapEnd) {r : Region}
    (hr : m.regionAt m.heapNext = some r) : r ∈ m.regions ∧ r.base.toNat = heapEnd := by
  have hbaselt : kHeapBase.toNat < heapEnd := by decide
  obtain ⟨hmem, hcontains⟩ := VirtualMemory.regionAt_eq_some.mp hr
  obtain ⟨heap, hheap, -, hbase, hstop⟩ := h.exists_region
  obtain ⟨hle, hlt⟩ := Region.contains_iff.mp hcontains
  refine ⟨hmem, ?_⟩
  by_contra hne
  have hlast : ∃ address : UInt64, heap.contains address = true ∧ r.contains address = true := by
    refine ⟨m.heapNext - 1, ?_⟩
    have h1 : (1 : UInt64).toNat = 1 := rfl
    have hprev : (m.heapNext - 1).toNat = m.heapNext.toNat - 1 :=
      UInt64.toNat_sub_of_le _ _ (UInt64.le_iff_toNat_le.mpr (by omega))
    rw [Region.contains_iff, Region.contains_iff, hprev]
    omega
  obtain ⟨address, hin, hin'⟩ := hlast
  obtain rfl := VirtualMemory.eq_of_contains hheap hmem hin hin'
  omega

/-- The condition is exact: the request meets it when the block it returns, if any, is aligned and
inside the heap. -/
theorem meets_iff (h : HeapInvariant m) (size : UInt64) : Request.Meets ⟨m, size⟩ ↔
    (0 < size.toNat → ∀ block, Request.block ⟨m, size⟩ = .ok block →
      block.toNat % 8 = 0 ∧ kHeapBase.toNat ≤ block.toNat ∧
        block.toNat + size.toNat ≤ heapEnd) := by
  have hend : heapEnd = 269484032 := rfl
  have hlow := h.low
  have hhigh := h.high
  have haligned := h.aligned
  have hbase : kHeapBase.toNat % 8 = 0 := by decide
  show (m.heapNext.toNat < heapEnd → size.toNat ≤ heapEnd ∨ 2 ^ 64 - 8 < size.toNat) ∧
    (m.heapNext.toNat = heapEnd → ∀ r ∈ m.regions, r.name = str "heap" → r.base.toNat = heapEnd →
      size = 0 ∨ 2 ^ 64 - 8 < size.toNat ∨ (r.size.toNat < (size.toNat + 7) / 8 * 8 ∧
        (size.toNat + 7) / 8 * 8 ≤ r.stop)) ↔ _
  constructor
  · rintro ⟨hroom, hfull⟩ hpos block hblock
    replace hblock : (m.allocate size).1 = .ok block := hblock
    obtain ⟨rfl, r, hr, hname⟩ := region_of_allocate hblock
    obtain ⟨hsize, hcompare⟩ := (exists_allocate_iff size hr hname).mp ⟨_, hblock⟩
    refine ⟨haligned, hlow, ?_⟩
    rcases Nat.lt_or_ge m.heapNext.toNat heapEnd with hlt | hge
    · obtain ⟨heap, hheap, -, hstop⟩ := h.regionAt_of_lt hlt
      obtain rfl := Option.some_inj.mp (hr.symm.trans hheap)
      have := hroom hlt
      omega
    · have heq : m.heapNext.toNat = heapEnd := by omega
      obtain ⟨hmem, hbase⟩ := h.base_of_eq heq hr
      have hzero : size ≠ 0 := fun h0 => by simp [h0] at hpos
      rcases hfull heq r hmem hname hbase with h0 | hlarge | hrefused
      · exact absurd h0 hzero
      · omega
      · unfold Region.stop at hrefused hcompare
        omega
  · intro hinside
    refine ⟨fun hlt => ?_, fun heq r hr hname hbase => ?_⟩
    · by_contra hbad
      obtain ⟨heap, hheap, hname, hstop⟩ := h.regionAt_of_lt hlt
      obtain ⟨block, hblock⟩ := (exists_allocate_iff size hheap hname).mpr
        ⟨by omega, Or.inr (by omega)⟩
      have := hinside (by omega) block hblock
      omega
    · by_contra hbad
      simp only [not_or] at hbad
      obtain ⟨hzero, hsize, hrefused⟩ := hbad
      have hpos : 0 < size.toNat := by
        rcases Nat.eq_zero_or_pos size.toNat with h0 | hpos
        · exact absurd (UInt64.toNat_inj.mp h0) hzero
        · exact hpos
      have hr' : m.regionAt m.heapNext = some r := by
        have := (m.bounded r hr).1
        refine VirtualMemory.regionAt_eq_some.mpr ⟨hr, ?_⟩
        rw [Region.contains_iff, Region.stop]
        omega
      obtain ⟨block, hblock⟩ := (exists_allocate_iff size hr' hname).mpr ⟨by omega, by
        unfold Region.stop at hrefused ⊢
        omega⟩
      obtain ⟨rfl, -⟩ := region_of_allocate hblock
      have := hinside hpos _ hblock
      omega

/-- A request that meets the condition and is granted moves the heap past its block. -/
theorem heapNext_of_meets (h : HeapInvariant m) (hmeets : Request.Meets ⟨m, size⟩)
    {block : UInt64} (hblock : (m.allocate size).1 = .ok block) :
    ((m.allocate size).2.heapNext).toNat = m.heapNext.toNat + (size.toNat + 7) / 8 * 8 ∧
      m.heapNext.toNat + (size.toNat + 7) / 8 * 8 ≤ heapEnd := by
  have hend : heapEnd = 269484032 := rfl
  have haligned := h.aligned
  have hhigh := h.high
  obtain ⟨rfl, r, hr, hname⟩ := region_of_allocate hblock
  obtain ⟨hsize, -⟩ := (exists_allocate_iff size hr hname).mp ⟨_, hblock⟩
  have hfits : m.heapNext.toNat + (size.toNat + 7) / 8 * 8 ≤ heapEnd := by
    rcases Nat.eq_zero_or_pos size.toNat with h0 | hpos
    · rw [h0]
      exact hhigh
    · have := (h.meets_iff size).mp hmeets hpos _ hblock
      omega
  refine ⟨?_, hfits⟩
  rcases VirtualMemory.allocate_cases m size with hcase | hcase
  · rw [hcase] at hblock
    cases hblock
  · rw [hcase]
    show (m.heapNext + VirtualMemory.rounded size).toNat = _
    rw [UInt64.toNat_add, toNat_rounded hsize]
    exact Nat.mod_eq_of_lt (by omega)

theorem allocate (h : HeapInvariant m) (hmeets : Request.Meets ⟨m, size⟩) :
    HeapInvariant (m.allocate size).2 ∧
      m.heapNext.toNat ≤ ((m.allocate size).2.heapNext).toNat := by
  cases hblock : (m.allocate size).1 with
  | error fault =>
    rcases VirtualMemory.allocate_cases m size with hcase | hcase
    · rw [hcase]
      exact ⟨h, le_refl _⟩
    · rw [hcase] at hblock
      cases hblock
  | ok block =>
    have haligned := h.aligned
    have hlow := h.low
    obtain ⟨hnext, hfits⟩ := h.heapNext_of_meets hmeets hblock
    refine ⟨⟨?_, ?_, ?_, ?_⟩, ?_⟩
    · rw [(VirtualMemory.change_of_allocate m size).shapes_eq]
      exact h.mapped
    · omega
    · omega
    · omega
    · omega

/-- A request with room left for it is granted. -/
theorem exists_block_of_fits (h : HeapInvariant m) (hpos : 0 < size.toNat)
    (hfits : Request.Fits ⟨m, size⟩) : ∃ block, Request.block ⟨m, size⟩ = .ok block := by
  have hend : heapEnd = 269484032 := rfl
  replace hfits : m.heapNext.toNat + (size.toNat + 7) / 8 * 8 ≤ heapEnd := hfits
  obtain ⟨r, hr, hname, hstop⟩ := h.regionAt_of_lt (by omega)
  exact (exists_allocate_iff size hr hname).mpr ⟨by omega, Or.inl (by omega)⟩

end HeapInvariant

/-- A request that fails changes nothing. -/
theorem after_of_error {fault : MemoryFault} (h : (m.allocate size).1 = .error fault) :
    (m.allocate size).2 = m := by
  rcases VirtualMemory.allocate_cases m size with hcase | hcase
  · rw [hcase]
  · rw [hcase] at h
    cases h

end

/-! ### Runs -/

namespace VirtualMachine

/-- The size the next step asks the heap for, if it is such a call. -/
def request (vm : VirtualMachine) : Option UInt64 :=
  if !vm.loaded || vm.cpu.halted then none
  else
    match vm.fetch with
    | .error _ => none
    | .ok instruction =>
      if instruction.opcode = .SYSCALL ∧
          instruction.imm.toUInt64 = SyscallNumber.allocate.value then
        some (vm.cpu.registers kArg1)
      else none

theorem heapNext_of_effect {vm vm' : VirtualMachine} {instruction : Instruction}
    (h : Effect vm instruction vm') (hcall : ¬(instruction.opcode = .SYSCALL ∧
      instruction.imm.toUInt64 = SyscallNumber.allocate.value)) :
    vm'.memory.heapNext = vm.memory.heapNext := by
  cases h with
  | compute hsp hflags => rfl
  | store hwrite => exact VirtualMemory.heapNext_of_writeU64 hwrite
  | push hroom hwrite => exact VirtualMemory.heapNext_of_writeU64 hwrite
  | pop hroom => rfl
  | syscall hsp hflags hopcode =>
    exact DefaultSyscallProvider.heapNext_of_invoke _ vm.context
      fun hnumber => hcall ⟨hopcode, hnumber⟩

/-- A step that asks for nothing leaves the heap where it is. -/
theorem heapNext_of_step {vm : VirtualMachine} (h : vm.request = none) :
    vm.step.2.memory.heapNext = vm.memory.heapNext := by
  rcases step_cases vm with hstep | ⟨instruction, hloaded, hhalted, hfetch, hstep⟩
  · rw [hstep]
  · rw [hstep]
    have hcall : ¬(instruction.opcode = .SYSCALL ∧
        instruction.imm.toUInt64 = SyscallNumber.allocate.value) := by
      intro hcall
      unfold request at h
      simp [hloaded, hhalted, hfetch, hcall] at h
    have hadvance : vm.advance.memory.heapNext = vm.memory.heapNext := rfl
    rw [heapNext_of_effect (effect_of_execute vm.advance instruction vm.cpu.pc) hcall, hadvance]

/-- A step that asks for a block does what `allocate` does, and returns the block in R14. -/
theorem step_of_request {vm : VirtualMachine} {size : UInt64} (h : vm.request = some size) :
    vm.step.2.memory = (vm.memory.allocate size).2 ∧
      vm.step.2.cpu.registers kReturnValue =
        match (vm.memory.allocate size).1 with
        | .ok block => block
        | .error _ => 0 := by
  unfold request at h
  split_ifs at h with hstopped
  rw [Bool.or_eq_true, not_or, Bool.not_eq_true', Bool.not_eq_false, Bool.not_eq_true] at hstopped
  obtain ⟨hloaded, hhalted⟩ := hstopped
  cases hfetch : vm.fetch with
  | error fault =>
    rw [hfetch] at h
    cases h
  | ok instruction =>
    rw [hfetch] at h
    dsimp only at h
    split_ifs at h with hcall
    obtain ⟨hopcode, hnumber⟩ := hcall
    cases h
    obtain ⟨hdst, hsrc⟩ := validRegisters_of_fetch hfetch
    rw [step_of_fetch hloaded hhalted hfetch]
    unfold execute
    simp only [hdst, hsrc, Bool.not_true, Bool.or_self, Bool.false_eq_true, if_false, hopcode]
    unfold executeSyscall
    rw [hnumber, DefaultSyscallProvider.invoke_allocate]
    unfold DefaultSyscallProvider.doAllocate
    rcases VirtualMemory.allocate_cases vm.memory (vm.cpu.registers kArg1) with hcase | hcase
    · simp [context, advance, hcase]
    · simp [context, advance, hcase]

/-- A run, and the requests made in it: by the program, or by the host. -/
inductive HeapRun (start : VirtualMachine) : List Request → VirtualMachine → Prop
  | start : HeapRun start [] start
  | step {log : List Request} {vm : VirtualMachine} (hrun : HeapRun start log vm)
      (hrequest : vm.request = none) : HeapRun start log vm.step.2
  | requestStep {log : List Request} {vm : VirtualMachine} {size : UInt64}
      (hrun : HeapRun start log vm) (hrequest : vm.request = some size) :
      HeapRun start (log ++ [⟨vm.memory, size⟩]) vm.step.2
  | allocate {log : List Request} {vm : VirtualMachine} (hrun : HeapRun start log vm)
      (size : UInt64) :
      HeapRun start (log ++ [⟨vm.memory, size⟩]) { vm with memory := (vm.memory.allocate size).2 }
  | provide {log : List Request} {vm : VirtualMachine} (hrun : HeapRun start log vm)
      (syscalls : DefaultSyscallProvider) : HeapRun start log { vm with syscalls }

theorem heapInvariant_of_load {vm start : VirtualMachine} {executable : Executable}
    (h : vm.load executable = (.ok (), start)) : HeapInvariant start.memory := by
  have hnext := heapNext_of_load h
  refine ⟨?_, ?_, ?_, ?_⟩
  · rw [VirtualMemory.shapes, regions_of_load h]
    simp
  · rw [hnext]
    decide
  · rw [hnext]
  · rw [hnext]
    decide

end VirtualMachine

open VirtualMachine

theorem HeapInvariant.congr {m m' : VirtualMemory} (h : HeapInvariant m)
    (hshapes : m'.shapes = m.shapes) (hnext : m'.heapNext = m.heapNext) : HeapInvariant m' :=
  ⟨hshapes ▸ h.mapped, hnext ▸ h.aligned, hnext ▸ h.low, hnext ▸ h.high⟩

/-- What holds after requests that meet the condition: their blocks lie below the next one. -/
structure Granted (log : List Request) (m : VirtualMemory) : Prop where
  heap : HeapInvariant m
  below : ∀ request ∈ log, 0 < request.size.toNat → ∀ block, request.block = .ok block →
    block.toNat + request.size.toNat ≤ m.heapNext.toNat
  sound : Sound log

namespace Granted

variable {log : List Request} {m m' : VirtualMemory}

theorem congr (h : Granted log m) (hshapes : m'.shapes = m.shapes)
    (hnext : m'.heapNext = m.heapNext) : Granted log m' :=
  ⟨h.heap.congr hshapes hnext, hnext ▸ h.below, h.sound⟩

/-- One more request that meets the condition. -/
theorem request (h : Granted log m) {size : UInt64} (hmeets : Request.Meets ⟨m, size⟩) :
    Granted (log ++ [⟨m, size⟩]) (m.allocate size).2 := by
  have hinside := (h.heap.meets_iff size).mp hmeets
  obtain ⟨hheap, hgrows⟩ := h.heap.allocate hmeets
  refine ⟨hheap, ?_, ⟨?_, ?_, ?_, ?_⟩⟩
  · intro request hrequest hpos block hblock
    rcases List.mem_append.mp hrequest with hrequest | hrequest
    · exact (h.below request hrequest hpos block hblock).trans hgrows
    · rw [List.mem_singleton] at hrequest
      subst hrequest
      obtain ⟨rfl, -⟩ := region_of_allocate hblock
      obtain ⟨hnext, -⟩ := h.heap.heapNext_of_meets hmeets hblock
      rw [hnext]
      show m.heapNext.toNat + size.toNat ≤ _
      omega
  · intro request hrequest
    rcases List.mem_append.mp hrequest with hrequest | hrequest
    · exact h.sound.inside request hrequest
    · rw [List.mem_singleton] at hrequest
      subst hrequest
      exact hinside
  · rw [List.pairwise_append]
    refine ⟨h.sound.disjoint, List.pairwise_singleton _ _, ?_⟩
    intro first hfirst second hsecond hpos _ a b ha hb
    rw [List.mem_singleton] at hsecond
    subst hsecond
    obtain ⟨rfl, -⟩ := region_of_allocate hb
    exact Or.inl (h.below first hfirst hpos a ha)
  · intro request hrequest fault hfault
    exact after_of_error hfault
  · intro request hrequest
    rcases List.mem_append.mp hrequest with hrequest | hrequest
    · exact h.sound.fitting request hrequest
    · rw [List.mem_singleton] at hrequest
      subst hrequest
      exact h.heap.exists_block_of_fits

theorem run {start vm : VirtualMachine} (hstart : HeapInvariant start.memory)
    (hrun : HeapRun start log vm) :
    (∀ request ∈ log, request.Meets) → Granted log vm.memory := by
  induction hrun with
  | start => exact fun _ => ⟨hstart, by simp, ⟨by simp, by simp, by simp, by simp⟩⟩
  | @step log vm hrun hrequest ih =>
    exact fun hmeets => (ih hmeets).congr (change_of_step vm).shapes_eq (heapNext_of_step hrequest)
  | requestStep hrun hrequest ih =>
    intro hmeets
    rw [List.forall_mem_append] at hmeets
    rw [(step_of_request hrequest).1]
    exact (ih hmeets.1).request (hmeets.2 _ (List.mem_singleton_self _))
  | allocate hrun size ih =>
    intro hmeets
    rw [List.forall_mem_append] at hmeets
    exact (ih hmeets.1).request (hmeets.2 _ (List.mem_singleton_self _))
  | provide hrun syscalls ih => exact ih

end Granted

theorem Sound.of_append {log rest : List Request} (h : Sound (log ++ rest)) : Sound log :=
  ⟨fun request hrequest => h.inside request (List.mem_append_left _ hrequest),
    (List.pairwise_append.mp h.disjoint).1,
    fun request hrequest => h.failing request (List.mem_append_left _ hrequest),
    fun request hrequest => h.fitting request (List.mem_append_left _ hrequest)⟩

/-- The first request that does not meet the condition is granted a block outside of the heap. -/
theorem meets_of_sound {start vm : VirtualMachine} {log : List Request}
    (hstart : HeapInvariant start.memory) (hrun : HeapRun start log vm) :
    Sound log → ∀ request ∈ log, request.Meets := by
  have hlast : ∀ {log : List Request} {m : VirtualMemory} {size : UInt64}, Granted log m →
      Sound (log ++ [⟨m, size⟩]) → Request.Meets ⟨m, size⟩ := by
    intro log m size hgranted hsound
    exact (hgranted.heap.meets_iff size).mpr
      (hsound.inside _ (List.mem_append_right _ (List.mem_singleton_self _)))
  induction hrun with
  | start => simp
  | step hrun hrequest ih => exact ih
  | requestStep hrun hrequest ih =>
    intro hsound
    have hmeets := ih hsound.of_append
    rw [List.forall_mem_append, List.forall_mem_singleton]
    exact ⟨hmeets, hlast (Granted.run hstart hrun hmeets) hsound⟩
  | allocate hrun size ih =>
    intro hsound
    have hmeets := ih hsound.of_append
    rw [List.forall_mem_append, List.forall_mem_singleton]
    exact ⟨hmeets, hlast (Granted.run hstart hrun hmeets) hsound⟩
  | provide hrun syscalls ih => exact ih

/-- In every run of a loaded machine, the blocks are sound exactly when every request meets the
condition. -/
theorem sound_iff {vm start reached : VirtualMachine} {executable : Executable}
    (hload : vm.load executable = (.ok (), start)) {log : List Request}
    (hrun : HeapRun start log reached) : Sound log ↔ ∀ request ∈ log, request.Meets :=
  ⟨meets_of_sound (heapInvariant_of_load hload) hrun,
    fun hmeets => (Granted.run (heapInvariant_of_load hload) hrun hmeets).sound⟩

/-- A request for sixteen bytes. -/
def sixteen : Request := ⟨loadedNop.memory, 16⟩

/-- A request for the whole heap, of which sixteen bytes are gone. -/
def whole : Request := ⟨sixteen.after, 0x100000⟩

def afterWhole : Request := ⟨whole.after, 20⟩

/-- A request that wraps, back to the start of the heap. -/
def wrapping : Request := ⟨sixteen.after, 0xFFFFFFFFFFFFFFF0⟩

def sixteenAgain : Request := ⟨wrapping.after, 16⟩

/-- Of two runs that begin with the same request, one goes on with a request that is refused, the
other with one that wraps. -/
theorem sound_iff_sixteen : Sound [sixteen, whole, afterWhole] ∧
    ¬Sound [sixteen, wrapping, sixteenAgain] := by
  have hrefused := sound_iff load_nop
    (((HeapRun.start.allocate 16).allocate 0x100000).allocate 20)
  have hwraps := sound_iff load_nop
    (((HeapRun.start.allocate 16).allocate 0xFFFFFFFFFFFFFFF0).allocate 16)
  constructor
  · refine hrefused.mpr ?_
    show ∀ request ∈ [sixteen, whole, afterWhole], request.Meets
    decide
  · refine fun hsound => absurd (hwraps.mp hsound) ?_
    show ¬∀ request ∈ [sixteen, wrapping, sixteenAgain], request.Meets
    decide

/-- Sixteen bytes, a request that wraps, and sixteen bytes again: the first and the last block are
the same. -/
theorem heap_blocks_overlap : load {} Executable.nopExecutable = (.ok (), loadedNop) ∧
    (∃ reached, HeapRun loadedNop [sixteen, wrapping, sixteenAgain] reached) ∧
      sixteen.block = .ok 0x10000000 ∧ wrapping.block = .ok 0x10000010 ∧
      sixteenAgain.block = .ok 0x10000000 ∧ ¬Sound [sixteen, wrapping, sixteenAgain] := by
  have hfirst : sixteen.block = .ok 0x10000000 := by decide
  have hsecond : wrapping.block = .ok 0x10000010 := by decide
  have hthird : sixteenAgain.block = .ok 0x10000000 := by decide
  refine ⟨load_nop, ⟨{ loadedNop with memory := sixteenAgain.after }, ?_⟩, hfirst, hsecond, hthird,
    fun hsound => ?_⟩
  · exact ((HeapRun.start.allocate 16).allocate 0xFFFFFFFFFFFFFFF0).allocate 16
  · have hapart := (List.pairwise_cons.mp hsound.disjoint).1 sixteenAgain (by simp)
      (by decide) (by decide) _ _ hfirst hthird
    revert hapart
    decide

end Vm
end MiniTool
