import MiniToolchain.Vm.Agree

/-!
# Code beside the memory

A machine whose memory has regions of its own, besides those of another machine, does what the other
does unless the other faults.  It leaves its own regions alone, so what it fetches from them stays
the same.

## Main definitions

* `Extends` — a memory with regions in front of those of another.
* `VirtualMachine.beside` — a machine with another memory, program counter and instruction count.
* `Fetches` — what is fetched at an address.

## Main results

* `Executes.beside` — an instruction does the same on the larger memory.
* `byteAt_of_executes` — an instruction writes the bytes it stores, and no others.
* `fetch_of_extends` — fetching depends on the regions in front.
-/

namespace MiniTool
namespace Vm

open Isa Checked ByteOrder

namespace VirtualMemory

/-- The regions of `m'` are those of `code`, which are not the heap, and those of `m`. -/
structure Extends (code m m' : VirtualMemory) : Prop where
  regions : m'.regions = code.regions ++ m.regions
  heapNext : m'.heapNext = m.heapNext
  heap : ∀ r ∈ code.regions, r.name ≠ str "heap"

namespace Extends

variable {code m m' : VirtualMemory} {address : UInt64}

/-- The regions share no address. -/
theorem not_contains (h : Extends code m m') {r c : Region} (hr : r ∈ m.regions)
    (hc : c ∈ code.regions) (haddress : r.contains address = true) :
    c.contains address = false := by
  by_contra hcontains
  have hdisjoint := m'.disjoint
  rw [h.regions, List.pairwise_append] at hdisjoint
  have hapart := hdisjoint.2.2 c hc r hr
  have hin := Region.contains_iff.mp haddress
  have hin' := Region.contains_iff.mp (Bool.eq_true_of_not_eq_false hcontains)
  unfold Region.Disjoint at hapart
  omega

theorem regionAt (h : Extends code m m') {r : Region} (hat : m.regionAt address = some r) :
    m'.regionAt address = some r := by
  obtain ⟨hr, hcontains⟩ := regionAt_eq_some.mp hat
  refine regionAt_eq_some.mpr ⟨?_, hcontains⟩
  rw [h.regions]
  exact List.mem_append_right _ hr

theorem checkAccess (h : Extends code m m') {size : UInt64} {needed : Permission} {r : Region}
    (hcheck : m.checkAccess address size needed = .ok r) :
    m'.checkAccess address size needed = .ok r := by
  obtain ⟨hr, hallowed⟩ := checkAccess_eq_ok.mp hcheck
  refine checkAccess_eq_ok.mpr ⟨?_, hallowed⟩
  rw [h.regions]
  exact List.mem_append_right _ hr

theorem readBytes (h : Extends code m m') {count : ℕ} {bytes : List UInt8}
    (hread : m.readBytes address count = .ok bytes) : m'.readBytes address count = .ok bytes := by
  unfold VirtualMemory.readBytes at hread ⊢
  split_ifs at hread ⊢ with hcount
  · exact hread
  · obtain ⟨r, hcheck, hbytes⟩ := Checked.bind_eq_ok.mp hread
    exact Checked.bind_eq_ok.mpr ⟨r, h.checkAccess hcheck, hbytes⟩

theorem readU64 (h : Extends code m m') {value : UInt64} (hread : m.readU64 address = .ok value) :
    m'.readU64 address = .ok value := by
  obtain ⟨r, hcheck, hvalue⟩ := Checked.bind_eq_ok.mp hread
  exact Checked.bind_eq_ok.mpr ⟨r, h.checkAccess hcheck, hvalue⟩

theorem overwrite (h : Extends code m m') {r : Region} (hr : r ∈ m.regions)
    (haddress : r.contains address = true) (bytes : List UInt8) :
    Extends code (m.overwrite address bytes) (m'.overwrite address bytes) := by
  have hsame : code.regions.map (fun c => if c.contains address then
      c.overwrite (address - c.base).toNat bytes else c) = code.regions := by
    conv_rhs => rw [← List.map_id code.regions]
    refine List.map_congr_left fun c hc => if_neg ?_
    simp [h.not_contains hr hc haddress]
  refine ⟨?_, h.heapNext, h.heap⟩
  show m'.regions.map _ = code.regions ++ m.regions.map _
  rw [h.regions, List.map_append, hsame]

theorem writeBytes (h : Extends code m m') {data : List UInt8} {after : VirtualMemory}
    (hwrite : m.writeBytes address data = .ok after) :
    ∃ after', m'.writeBytes address data = .ok after' ∧ Extends code after after' := by
  unfold VirtualMemory.writeBytes at hwrite ⊢
  split_ifs at hwrite ⊢ with hdata
  · cases hwrite
    exact ⟨m', rfl, h⟩
  · obtain ⟨r, hcheck, hafter⟩ := Checked.bind_eq_ok.mp hwrite
    cases hafter
    obtain ⟨hr, haddress, -⟩ := checkAccess_eq_ok.mp hcheck
    exact ⟨_, Checked.bind_eq_ok.mpr ⟨r, h.checkAccess hcheck, rfl⟩, h.overwrite hr haddress data⟩

theorem writeU64 (h : Extends code m m') {value : UInt64} {after : VirtualMemory}
    (hwrite : m.writeU64 address value = .ok after) :
    ∃ after', m'.writeU64 address value = .ok after' ∧ Extends code after after' := by
  rw [writeU64_eq] at hwrite ⊢
  exact h.writeBytes hwrite

/-- An allocation finds the same heap. -/
theorem allocate (h : Extends code m m') (size : UInt64) :
    (m'.allocate size).1 = (m.allocate size).1 ∧
      Extends code (m.allocate size).2 (m'.allocate size).2 := by
  unfold VirtualMemory.allocate
  dsimp only
  rw [h.heapNext]
  cases hat : m.regionAt m.heapNext with
  | some heap =>
    rw [h.regionAt hat]
    dsimp only
    split_ifs
    · exact ⟨rfl, h⟩
    · exact ⟨rfl, h⟩
    · exact ⟨rfl, h⟩
    · exact ⟨rfl, h.regions, rfl, h.heap⟩
  | none =>
    cases hat' : m'.regionAt m.heapNext with
    | none => exact ⟨rfl, h⟩
    | some c =>
      -- what is not the heap of the smaller memory is not the heap
      obtain ⟨hmem, hcontains⟩ := regionAt_eq_some.mp hat'
      rw [h.regions] at hmem
      rcases List.mem_append.mp hmem with hc | hc
      · dsimp only
        rw [if_pos (h.heap c hc)]
        exact ⟨rfl, h⟩
      · rw [regionAt_eq_some.mpr ⟨hc, hcontains⟩] at hat
        cases hat

/-- Fetching from the regions in front. -/
theorem fetchInstruction (h : Extends code m m') {word : UInt64}
    (hfetch : code.fetchInstruction address = .ok word) :
    m'.fetchInstruction address = .ok word := by
  obtain ⟨r, hcheck, hword⟩ := Checked.bind_eq_ok.mp hfetch
  obtain ⟨hr, hallowed⟩ := checkAccess_eq_ok.mp hcheck
  refine Checked.bind_eq_ok.mpr ⟨r, checkAccess_eq_ok.mpr ⟨?_, hallowed⟩, hword⟩
  rw [h.regions]
  exact List.mem_append_left _ hr

end Extends

end VirtualMemory

/-! ### System calls -/

namespace DefaultSyscallProvider

open VirtualMemory

variable {code m' : VirtualMemory} {provider provider' : DefaultSyscallProvider} {number : UInt64}
  {context context' : SyscallContext}

theorem invoke_extends (hinvoke : provider.invoke number context = (.ok (), provider', context'))
    (h : Extends code context.memory m') :
    ∃ m'', provider.invoke number { context with memory := m' } =
        (.ok (), provider', { context' with memory := m'' }) ∧
        Extends code context'.memory m'' := by
  unfold invoke at hinvoke ⊢
  cases hnumber : SyscallNumber.ofValue number with
  | none =>
    rw [hnumber] at hinvoke
    cases hinvoke
  | some call =>
    rw [hnumber] at hinvoke
    cases call with
    | exit =>
      cases hinvoke
      exact ⟨m', rfl, h⟩
    | write =>
      dsimp only at hinvoke ⊢
      unfold doWrite at hinvoke ⊢
      dsimp only at hinvoke ⊢
      split_ifs at hinvoke ⊢ with hfd hlength
      · cases hinvoke
      · cases hinvoke
      · cases hread : context.memory.readBytes (context.registers kArg2)
            (context.registers kArg3).toNat with
        | error fault =>
          rw [hread] at hinvoke
          cases hinvoke
        | ok bytes =>
          rw [hread] at hinvoke
          cases hinvoke
          rw [h.readBytes hread]
          exact ⟨m', rfl, h⟩
    | read =>
      dsimp only at hinvoke ⊢
      unfold doRead at hinvoke ⊢
      dsimp only at hinvoke ⊢
      split_ifs at hinvoke ⊢ with hfd hlength
      · cases hinvoke
      · cases hinvoke
      · cases htake : provider.take (context.registers kArg3).toNat with
        | mk bytes rest =>
          rw [htake] at hinvoke
          dsimp only at hinvoke ⊢
          cases hwrite : context.memory.writeBytes (context.registers kArg2) bytes with
          | error fault =>
            rw [hwrite] at hinvoke
            cases hinvoke
          | ok memory =>
            rw [hwrite] at hinvoke
            cases hinvoke
            obtain ⟨m'', hwrite', h'⟩ := h.writeBytes hwrite
            rw [hwrite']
            exact ⟨m'', rfl, h'⟩
    | allocate =>
      dsimp only at hinvoke ⊢
      unfold doAllocate at hinvoke ⊢
      dsimp only at hinvoke ⊢
      obtain ⟨hresult, hmemory⟩ := h.allocate (context.registers kArg1)
      cases hallocate : context.memory.allocate (context.registers kArg1) with
      | mk result memory =>
        cases hallocate' : m'.allocate (context.registers kArg1) with
        | mk result' memory' =>
          rw [hallocate, hallocate'] at hresult hmemory
          dsimp only at hresult hmemory
          subst hresult
          rw [hallocate] at hinvoke
          cases result' with
          | error fault =>
            cases hinvoke
            exact ⟨memory', rfl, hmemory⟩
          | ok block =>
            cases hinvoke
            exact ⟨memory', rfl, hmemory⟩

/-- A call that succeeds writes what it stores, and no other byte. -/
theorem byteAt_of_invoke (hinvoke : provider.invoke number context = (.ok (), provider', context'))
    {x : UInt64} (hx : ¬provider.stores number context x) :
    context'.memory.byteAt x = context.memory.byteAt x := by
  unfold invoke at hinvoke
  cases hnumber : SyscallNumber.ofValue number with
  | none =>
    rw [hnumber] at hinvoke
    cases hinvoke
  | some call =>
    obtain rfl := SyscallNumber.eq_value_of_ofValue hnumber
    rw [hnumber] at hinvoke
    cases call with
    | exit =>
      cases hinvoke
      rfl
    | write =>
      have hmemory := memory_of_doWrite provider context
      rw [show provider.doWrite context = (.ok (), provider', context') from hinvoke] at hmemory
      rw [hmemory]
    | read =>
      dsimp only at hinvoke
      unfold doRead at hinvoke
      dsimp only at hinvoke
      split_ifs at hinvoke with hfd hlength
      · cases hinvoke
      · cases hinvoke
      · have hcount := length_take_le provider (context.registers kArg3).toNat
        have hfits := (context.registers kArg3).toNat_lt
        unfold stores at hx
        cases htake : provider.take (context.registers kArg3).toNat with
        | mk bytes rest =>
          rw [htake] at hinvoke hcount hx
          dsimp only at hinvoke hcount hx
          cases hwrite : context.memory.writeBytes (context.registers kArg2) bytes with
          | error fault =>
            rw [hwrite] at hinvoke
            cases hinvoke
          | ok memory =>
            rw [hwrite] at hinvoke
            cases hinvoke
            show memory.byteAt x = _
            by_cases hbytes : bytes = []
            · unfold writeBytes at hwrite
              rw [if_pos hbytes] at hwrite
              cases hwrite
              rfl
            · have houtside := (writes_writeBytes context.memory (context.registers kArg2) hbytes
                (by omega)).outside x fun hrange => hx ⟨rfl, hrange⟩
              rw [hwrite] at houtside
              exact houtside
    | allocate =>
      have hmemory := memory_of_doAllocate provider context
      rw [show provider.doAllocate context = (.ok (), provider', context') from hinvoke] at hmemory
      dsimp only at hmemory
      rw [hmemory]
      rcases allocate_cases context.memory (context.registers kArg1) with hcase | hcase
      · rw [hcase]
      · rw [hcase]
        rfl

end DefaultSyscallProvider

namespace VirtualMachine

open VirtualMemory

variable {code m' : VirtualMemory} {vm after : VirtualMachine} {machine : Instruction}

/-- The machine with another memory, program counter and instruction count. -/
def beside (vm : VirtualMachine) (memory : VirtualMemory) (pc count : UInt64) : VirtualMachine :=
  { vm with memory, cpu := { vm.cpu with pc, instructionCount := count } }

/-- An instruction does the same on the larger memory. -/
theorem Executes.beside (h : Executes vm machine after) (hmemory : Extends code vm.memory m')
    (pc count : UInt64) :
    ∃ m'', Executes (vm.beside m' pc count) machine (after.beside m'' pc count) ∧
      Extends code after.memory m'' := by
  cases h with
  | nop hop => exact ⟨m', .nop hop, hmemory⟩
  | halt hop => exact ⟨m', .halt hop, hmemory⟩
  | move hop => exact ⟨m', .move hop, hmemory⟩
  | immediate hop => exact ⟨m', .immediate hop, hmemory⟩
  | alu hop hvalue => exact ⟨m', @Executes.alu (vm.beside m' pc count) _ _ hop hvalue, hmemory⟩
  | load hop hread =>
    exact ⟨m', @Executes.load (vm.beside m' pc count) _ _ hop (hmemory.readU64 hread), hmemory⟩
  | store hop hwrite =>
    obtain ⟨m'', hwrite', hmemory'⟩ := hmemory.writeU64 hwrite
    exact ⟨m'', @Executes.store (vm.beside m' pc count) _ _ hop hwrite', hmemory'⟩
  | push hop hpush =>
    obtain ⟨memory, hroom, hwrite, rfl, -⟩ := push_eq_ok hpush
    obtain ⟨m'', hwrite', hmemory'⟩ := hmemory.writeU64 hwrite
    exact ⟨m'', .push hop (@push_of_room (vm.beside m' pc count) _ _ _ hroom hwrite'), hmemory'⟩
  | @pop value _ hop hpop =>
    obtain ⟨hroom, hread, rfl, -⟩ := pop_eq_ok hpop
    exact ⟨m', @Executes.pop (vm.beside m' pc count) _ _ _ hop
      (@pop_of_room (vm.beside m' pc count) value 0 hroom (hmemory.readU64 hread)), hmemory⟩
  | syscall hop hcall =>
    unfold executeSyscall at hcall
    cases hinvoke : vm.syscalls.invoke machine.imm.toUInt64 vm.context with
    | mk result rest =>
      obtain ⟨provider, context⟩ := rest
      rw [hinvoke] at hcall
      cases result with
      | error message => cases hcall
      | ok _ =>
        obtain ⟨m'', hinvoke', hmemory'⟩ :=
          DefaultSyscallProvider.invoke_extends hinvoke
            (show Extends code vm.context.memory m' from hmemory)
        have hcall' : ∀ vm', (vm.beside m' pc count).executeSyscall machine 0 = (.ok (), vm') →
            Executes (vm.beside m' pc count) machine vm' := fun vm' => .syscall hop
        unfold executeSyscall at hcall'
        rw [show (vm.beside m' pc count).syscalls.invoke machine.imm.toUInt64
            (vm.beside m' pc count).context =
          (.ok (), provider, { context with memory := m'' }) from hinvoke'] at hcall'
        dsimp only at hcall hcall'
        split_ifs at hcall hcall' with hhalt
        · cases hcall
          exact ⟨m'', hcall' _ rfl, hmemory'⟩
        · cases hcall
          exact ⟨m'', hcall' _ rfl, hmemory'⟩

/-- An instruction writes the bytes it stores, and no others. -/
theorem byteAt_of_executes (h : Executes vm machine after) {x : UInt64}
    (hx : ¬vm.stores machine x) : after.memory.byteAt x = vm.memory.byteAt x := by
  cases h with
  | @store memory hop hwrite =>
    have hagree : AgreeOutside {y | vm.stores machine y} memory vm.memory :=
      .of_writeU64 hwrite fun y hy => .inl ⟨hop, hy⟩
    exact hagree.bytes x hx
  | push hop hpush =>
    obtain ⟨memory, -, hwrite, rfl, -⟩ := push_eq_ok hpush
    have hagree : AgreeOutside {y | vm.stores machine y} memory vm.memory :=
      .of_writeU64 hwrite fun y hy => .inr (.inl ⟨by rw [hop]; rfl, hy⟩)
    exact hagree.bytes x hx
  | pop hop hpop =>
    obtain ⟨-, -, rfl, -⟩ := pop_eq_ok hpop
    rfl
  | syscall hop hcall =>
    unfold executeSyscall at hcall
    cases hinvoke : vm.syscalls.invoke machine.imm.toUInt64 vm.context with
    | mk result rest =>
      obtain ⟨provider, context⟩ := rest
      rw [hinvoke] at hcall
      cases result with
      | error message => cases hcall
      | ok _ =>
        have hbyte := DefaultSyscallProvider.byteAt_of_invoke hinvoke (x := x) fun hstores =>
          hx (.inr (.inr ⟨hop, hstores⟩))
        dsimp only at hcall
        split_ifs at hcall with hhalt
        · cases hcall
          exact hbyte
        · cases hcall
          exact hbyte
  | _ => rfl

theorem loaded_of_executes (h : Executes vm machine after) : after.loaded = vm.loaded := by
  cases h with
  | push hop hpush =>
    obtain ⟨memory, -, -, rfl, -⟩ := push_eq_ok hpush
    rfl
  | pop hop hpop =>
    obtain ⟨-, -, rfl, -⟩ := pop_eq_ok hpop
    rfl
  | syscall hop hcall =>
    unfold executeSyscall at hcall
    dsimp only at hcall
    split at hcall
    · cases hcall
    · split_ifs at hcall
      · cases hcall
        rfl
      · cases hcall
        rfl
  | _ => rfl

/-! ### Fetching -/

/-- The instruction is fetched at this address. -/
def Fetches (code : VirtualMemory) (address : UInt64) (machine : Instruction) : Prop :=
  address % UInt64.ofNat kInstructionSize = 0 ∧
    ∃ word, code.fetchInstruction address = .ok word ∧ decode word = .ok machine

/-- Fetching depends on the regions in front. -/
theorem fetch_of_extends {m : VirtualMemory} (h : Fetches code vm.cpu.pc machine)
    (hmemory : Extends code m vm.memory) : vm.fetch = .ok machine := by
  obtain ⟨haligned, word, hword, hdecode⟩ := h
  unfold fetch
  dsimp only
  rw [if_neg (not_not_intro haligned), hmemory.fetchInstruction hword]
  dsimp only
  rw [hdecode]

end VirtualMachine

end Vm
end MiniTool
