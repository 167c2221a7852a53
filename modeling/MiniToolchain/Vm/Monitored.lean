import MiniToolchain.Lib.Simulation
import MiniToolchain.Vm.Embedded
import MiniToolchain.Vm.Invariants

/-!
# Runs that do not look at addresses

A program can find out where its code lies: it can read the code, or the return addresses on the
stack, or what lies below the stack pointer.  A monitored run is one of a program that does nothing
of the kind, and whose returns match its calls.  Such a run needs the memory outside the code only.

## Main definitions

* `InCode` — memory that can be executed.
* `Apart` — code and data lie in regions of their own.
* `Monitored`, `Monitored.Step` — a machine with its open calls, and the steps it may take.

## Main results

* `Executes.data` — what succeeds without reading code succeeds without it.
* `fetches_of_apart` — what is fetched is code.
* `exists_apart` — a memory of code and data falls apart.
-/

namespace MiniTool
namespace Vm

open Isa Checked ByteOrder

namespace VirtualMemory

/-- The address can be executed. -/
def InCode (m : VirtualMemory) (x : UInt64) : Prop :=
  ∃ r ∈ m.regions, hasPermission r.permissions Permission.exec = true ∧ r.contains x = true

/-- The regions of `m'` are those of `code`, which can be executed and not be written, and those of
`m`, which cannot be executed. -/
structure Apart (code m m' : VirtualMemory) : Prop extends Extends code m m' where
  exec : ∀ r ∈ code.regions, hasPermission r.permissions Permission.exec = true
  readOnly : ∀ r ∈ code.regions, hasPermission r.permissions Permission.write = false
  data : ∀ r ∈ m.regions, hasPermission r.permissions Permission.exec = false

namespace Apart

variable {code m m' : VirtualMemory} {address : UInt64}

/-- A region that is no code. -/
theorem mem_data (h : Apart code m m') {r : Region} (hr : r ∈ m'.regions)
    (hnot : r ∉ code.regions) :
    r ∈ m.regions := by
  rw [h.regions] at hr
  exact (List.mem_append.mp hr).resolve_left hnot

/-- An access outside the code. -/
theorem checkAccess_data (h : Apart code m m') {size : UInt64} {needed : Permission} {r : Region}
    (hcheck : m'.checkAccess address size needed = .ok r) (hnot : r ∉ code.regions) :
    m.checkAccess address size needed = .ok r := by
  obtain ⟨hr, hallowed⟩ := checkAccess_eq_ok.mp hcheck
  exact checkAccess_eq_ok.mpr ⟨h.mem_data hr hnot, hallowed⟩

/-- What contains an address outside the code is no code. -/
theorem not_mem_code (h : Apart code m m') {r : Region} (hcontains : r.contains address = true)
    (hcode : ¬m'.InCode address) : r ∉ code.regions := by
  intro hr
  refine hcode ⟨r, ?_, h.exec r hr, hcontains⟩
  rw [h.regions]
  exact List.mem_append_left _ hr

theorem readBytes_data (h : Apart code m m') {count : ℕ} {bytes : List UInt8}
    (hread : m'.readBytes address count = .ok bytes) (hcode : count ≠ 0 → ¬m'.InCode address) :
    m.readBytes address count = .ok bytes := by
  unfold VirtualMemory.readBytes at hread ⊢
  split_ifs at hread ⊢ with hcount
  · exact hread
  · obtain ⟨r, hcheck, hbytes⟩ := Checked.bind_eq_ok.mp hread
    have hcontains := (checkAccess_eq_ok.mp hcheck).2.1
    exact Checked.bind_eq_ok.mpr
      ⟨r, h.checkAccess_data hcheck (h.not_mem_code hcontains (hcode hcount)), hbytes⟩

theorem readU64_data (h : Apart code m m') {value : UInt64} (hread : m'.readU64 address = .ok value)
    (hcode : ¬m'.InCode address) : m.readU64 address = .ok value := by
  obtain ⟨r, hcheck, hvalue⟩ := Checked.bind_eq_ok.mp hread
  have hcontains := (checkAccess_eq_ok.mp hcheck).2.1
  exact Checked.bind_eq_ok.mpr
    ⟨r, h.checkAccess_data hcheck (h.not_mem_code hcontains hcode), hvalue⟩

/-- Code cannot be written. -/
theorem writeBytes_data (h : Apart code m m') {bytes : List UInt8} {after' : VirtualMemory}
    (hwrite : m'.writeBytes address bytes = .ok after') :
    ∃ after, m.writeBytes address bytes = .ok after := by
  unfold VirtualMemory.writeBytes at hwrite ⊢
  split_ifs at hwrite ⊢
  · exact ⟨m, rfl⟩
  · obtain ⟨r, hcheck, -⟩ := Checked.bind_eq_ok.mp hwrite
    have hnot : r ∉ code.regions := by
      intro hr
      have hwritable := (checkAccess_eq_ok.mp hcheck).2.2.2
      rw [h.readOnly r hr] at hwritable
      cases hwritable
    exact ⟨_, Checked.bind_eq_ok.mpr ⟨r, h.checkAccess_data hcheck hnot, rfl⟩⟩

theorem writeU64_data (h : Apart code m m') {value : UInt64} {after' : VirtualMemory}
    (hwrite : m'.writeU64 address value = .ok after') :
    ∃ after, m.writeU64 address value = .ok after := by
  rw [writeU64_eq] at hwrite ⊢
  exact h.writeBytes_data hwrite

/-- Data cannot be executed. -/
theorem fetchInstruction_code (h : Apart code m m') {word : UInt64}
    (hfetch : m'.fetchInstruction address = .ok word) :
    code.fetchInstruction address = .ok word := by
  obtain ⟨r, hcheck, hword⟩ := Checked.bind_eq_ok.mp hfetch
  obtain ⟨hr, hallowed⟩ := checkAccess_eq_ok.mp hcheck
  refine Checked.bind_eq_ok.mpr ⟨r, checkAccess_eq_ok.mpr ⟨?_, hallowed⟩, hword⟩
  rw [h.regions] at hr
  refine (List.mem_append.mp hr).resolve_right fun hdata => ?_
  have hexec := hallowed.2.2
  rw [h.data r hdata] at hexec
  cases hexec

end Apart

/-- A memory of code and data falls apart. -/
theorem exists_apart {m : VirtualMemory} {front rest : List Region} (h : m.regions = front ++ rest)
    (hfront : ∀ r ∈ front, hasPermission r.permissions Permission.exec = true ∧
      hasPermission r.permissions Permission.write = false ∧ r.name ≠ str "heap")
    (hrest : ∀ r ∈ rest, hasPermission r.permissions Permission.exec = false) :
    ∃ code data : VirtualMemory, code.regions = front ∧ data.regions = rest ∧
      data.heapNext = m.heapNext ∧ Apart code data m := by
  have hbounded := m.bounded
  have hdisjoint := m.disjoint
  rw [h] at hbounded hdisjoint
  obtain ⟨hfirst, hsecond, -⟩ := List.pairwise_append.mp hdisjoint
  refine ⟨⟨front, 0, fun r hr => hbounded r (List.mem_append_left _ hr), hfirst⟩,
    ⟨rest, m.heapNext, fun r hr => hbounded r (List.mem_append_right _ hr), hsecond⟩,
    rfl, rfl, rfl, ?_⟩
  exact {
    regions := h
    heapNext := rfl
    heap := fun r hr => (hfront r hr).2.2
    exec := fun r hr => (hfront r hr).1
    readOnly := fun r hr => (hfront r hr).2.1
    data := hrest }

end VirtualMemory

/-! ### Instructions -/

namespace DefaultSyscallProvider

open VirtualMemory

/-- A call that reads no code succeeds without it. -/
theorem invoke_data {code m' : VirtualMemory} {provider provider' : DefaultSyscallProvider}
    {number : UInt64} {context context' : SyscallContext} (h : Apart code context.memory m')
    (hinvoke : provider.invoke number { context with memory := m' } = (.ok (), provider', context'))
    (hcode : ∀ x, loads number context x → ¬m'.InCode x) :
    ∃ provider'' context'', provider.invoke number context = (.ok (), provider'', context'') := by
  unfold invoke at hinvoke ⊢
  cases hnumber : SyscallNumber.ofValue number with
  | none =>
    rw [hnumber] at hinvoke
    cases hinvoke
  | some call =>
    obtain rfl := SyscallNumber.eq_value_of_ofValue hnumber
    rw [hnumber] at hinvoke
    cases call with
    | exit => exact ⟨_, _, rfl⟩
    | write =>
      dsimp only at hinvoke ⊢
      unfold doWrite at hinvoke ⊢
      dsimp only at hinvoke ⊢
      split_ifs at hinvoke ⊢ with hfd hlength
      · cases hinvoke
      · cases hinvoke
      · cases hread : m'.readBytes (context.registers kArg2) (context.registers kArg3).toNat with
        | error fault =>
          rw [hread] at hinvoke
          cases hinvoke
        | ok bytes =>
          rw [h.readBytes_data hread fun hcount =>
            hcode _ ⟨rfl, Nat.le_refl _, Nat.lt_add_of_pos_right (Nat.pos_of_ne_zero hcount)⟩]
          exact ⟨_, _, rfl⟩
    | read =>
      dsimp only at hinvoke ⊢
      unfold doRead at hinvoke ⊢
      dsimp only at hinvoke ⊢
      split_ifs at hinvoke ⊢ with hfd hlength
      · cases hinvoke
      · cases hinvoke
      · cases htake : provider.take (context.registers kArg3).toNat with
        | mk bytes rest =>
          rw [htake] at hinvoke
          dsimp only at hinvoke ⊢
          cases hwrite : m'.writeBytes (context.registers kArg2) bytes with
          | error fault =>
            rw [hwrite] at hinvoke
            cases hinvoke
          | ok memory =>
            obtain ⟨after, hafter⟩ := h.writeBytes_data hwrite
            rw [hafter]
            exact ⟨_, _, rfl⟩
    | allocate =>
      dsimp only
      unfold doAllocate
      dsimp only
      cases context.memory.allocate (context.registers kArg1) with
      | mk result memory => cases result <;> exact ⟨_, _, rfl⟩

end DefaultSyscallProvider

namespace VirtualMachine

open VirtualMemory

section

variable {code m' : VirtualMemory} {vm after' : VirtualMachine} {machine : Instruction}
  {pc count : UInt64}

/-- What lies on the stack is no code. -/
theorem pop_data (h : Apart code vm.memory m') (hstack : StackInvariant vm) {value pc' : UInt64}
    (hpop : (vm.beside m' pc count).pop pc' = (.ok value, after')) :
    ∃ after, vm.pop 0 = (.ok value, after) := by
  obtain ⟨hroom, hread, -, -⟩ := pop_eq_ok hpop
  obtain ⟨r, hr, hshape⟩ := List.mem_map.mp hstack.mapped
  have hbase : r.base = kStackTop - kStackSize := congrArg (fun s => s.2.1) hshape
  have hsize : r.size = kStackSize := congrArg (fun s => s.2.2.1) hshape
  have hcontains : r.contains vm.cpu.sp = true := by
    have hlow := hstack.low
    have hlt : vm.cpu.sp.toNat < kStackTop.toNat := by
      have hroom' : vm.cpu.sp < vm.stackTop := hroom
      rw [hstack.top, UInt64.lt_iff_toNat_lt] at hroom'
      exact hroom'
    have htop : kStackTop.toNat = 0x7FFF0000 := rfl
    have hstacksize : kStackSize.toNat = 1048576 := rfl
    have hstart : (kStackTop - kStackSize).toNat = 0x7FFF0000 - 1048576 := rfl
    rw [Region.contains_iff, Region.stop, hbase, hsize]
    omega
  have hat : vm.memory.regionAt vm.cpu.sp = some r := regionAt_eq_some.mpr ⟨hr, hcontains⟩
  have hnot : ¬m'.InCode vm.cpu.sp := by
    rintro ⟨r', hr', hexec, hcontains'⟩
    have hr'' := (regionAt_eq_some.mp (h.regionAt hat)).1
    rw [eq_of_contains hr' hr'' hcontains' hcontains, h.data r hr] at hexec
    cases hexec
  exact ⟨_, pop_of_room hroom (h.readU64_data hread hnot)⟩

theorem push_data (h : Apart code vm.memory m') {value pc' : UInt64}
    (hpush : (vm.beside m' pc count).push value pc' = (.ok (), after')) :
    ∃ after, vm.push value 0 = (.ok (), after) := by
  obtain ⟨memory, hroom, hwrite, -, -⟩ := push_eq_ok hpush
  obtain ⟨after, hafter⟩ := h.writeU64_data hwrite
  exact ⟨_, push_of_room hroom hafter⟩

/-- **An instruction that succeeds and reads no code succeeds without the code.** -/
theorem Executes.data (h : Executes (vm.beside m' pc count) machine after')
    (hmemory : Apart code vm.memory m') (hstack : StackInvariant vm)
    (hcode : ∀ x, vm.loads machine x → ¬m'.InCode x) : ∃ after, Executes vm machine after := by
  cases h with
  | nop hop => exact ⟨_, .nop hop⟩
  | halt hop => exact ⟨_, .halt hop⟩
  | move hop => exact ⟨_, .move hop⟩
  | immediate hop => exact ⟨_, .immediate hop⟩
  | alu hop hvalue => exact ⟨_, .alu hop hvalue⟩
  | load hop hread =>
    refine ⟨_, .load hop (hmemory.readU64_data hread (hcode _ (.inl ⟨hop, ?_⟩)))⟩
    exact ⟨Nat.le_refl _, by show _ < _ + 8; omega⟩
  | store hop hwrite =>
    obtain ⟨after, hafter⟩ := hmemory.writeU64_data hwrite
    exact ⟨_, .store hop hafter⟩
  | push hop hpush =>
    obtain ⟨after, hafter⟩ := push_data hmemory hpush
    exact ⟨_, .push hop hafter⟩
  | pop hop hpop =>
    obtain ⟨after, hafter⟩ := pop_data hmemory hstack hpop
    exact ⟨_, .pop hop hafter⟩
  | syscall hop hcall =>
    unfold executeSyscall at hcall
    cases hinvoke : (vm.beside m' pc count).syscalls.invoke machine.imm.toUInt64
        (vm.beside m' pc count).context with
    | mk result rest =>
      obtain ⟨provider, context⟩ := rest
      rw [hinvoke] at hcall
      cases result with
      | error message => cases hcall
      | ok _ =>
        obtain ⟨provider', context', hinvoke'⟩ : ∃ provider' context',
            vm.syscalls.invoke machine.imm.toUInt64 vm.context = (.ok (), provider', context') :=
          DefaultSyscallProvider.invoke_data (show Apart code vm.context.memory m' from
            hmemory) hinvoke fun x hx => hcode x (.inr ⟨hop, hx⟩)
        have hdoes : ∀ after, vm.executeSyscall machine 0 = (.ok (), after) →
            Executes vm machine after := fun after => .syscall hop
        unfold executeSyscall at hdoes
        rw [hinvoke'] at hdoes
        dsimp only at hdoes
        split_ifs at hdoes
        · exact ⟨_, hdoes _ rfl⟩
        · exact ⟨_, hdoes _ rfl⟩

/-- What is fetched is code. -/
theorem fetches_of_apart {vm : VirtualMachine} {m : VirtualMemory} (h : Apart code m vm.memory)
    (hfetch : vm.fetch = .ok machine) : Fetches code vm.cpu.pc machine := by
  unfold fetch at hfetch
  dsimp only at hfetch
  split_ifs at hfetch with haligned
  · cases hword : vm.memory.fetchInstruction vm.cpu.pc with
    | error fault =>
      rw [hword] at hfetch
      cases hfetch
    | ok word =>
      rw [hword] at hfetch
      dsimp only at hfetch
      cases hdecode : decode word with
      | error e =>
        rw [hdecode] at hfetch
        cases hfetch
      | ok decoded =>
        rw [hdecode] at hfetch
        cases hfetch
        exact ⟨not_not.mp haligned, word, h.fetchInstruction_code hword, hdecode⟩

end

end VirtualMachine

/-! ### Steps -/

/-- A machine, and what is known of its calls. -/
structure Monitored where
  vm : VirtualMachine
  /-- Where the open calls have pushed their return addresses, innermost first. -/
  calls : List UInt64 := []
  /-- The bytes of return addresses that nothing has overwritten. -/
  hidden : Set UInt64 := ∅

namespace Monitored

open VirtualMemory VirtualMachine

/-- The instruction reads no code, no return address, and nothing below the stack pointer. -/
structure Allows (w : Monitored) (machine : Instruction) : Prop where
  code : ∀ x, w.vm.loads machine x → ¬w.vm.memory.InCode x
  hidden : ∀ x, w.vm.loads machine x → x ∉ w.hidden
  stack : ∀ x, w.vm.loads machine x →
    ¬(w.vm.stackLimit.toNat ≤ x.toNat ∧ x.toNat < w.vm.cpu.sp.toNat)
  pop : machine.opcode = .POP → ∀ x, InRange w.vm.cpu.sp 8 x → x ∉ w.hidden

/-- A step that does not fault and looks at no address. -/
inductive Step : Monitored → Monitored → Prop
  | plain {w : Monitored} {machine : Instruction} {vm : VirtualMachine}
      (hfetch : w.vm.fetch = .ok machine) (hbranch : transfers machine.opcode = false)
      (hallows : w.Allows machine) (hstep : w.vm.step = (.ok (), vm)) :
      Step w { w with vm, hidden := {x | x ∈ w.hidden ∧ ¬w.vm.stores machine x} }
  | jump {w : Monitored} {machine : Instruction} {vm : VirtualMachine}
      (hfetch : w.vm.fetch = .ok machine) (hbranch : transfers machine.opcode = true)
      (hcall : machine.opcode ≠ .CALL) (hret : machine.opcode ≠ .RET)
      (hstep : w.vm.step = (.ok (), vm)) : Step w { w with vm }
  | call {w : Monitored} {machine : Instruction} {vm : VirtualMachine}
      (hfetch : w.vm.fetch = .ok machine) (hcall : machine.opcode = .CALL)
      (hstep : w.vm.step = (.ok (), vm)) :
      Step w
        { vm
          calls := vm.cpu.sp :: w.calls
          hidden := w.hidden ∪ {x | InRange vm.cpu.sp 8 x} }
  /-- What is popped is what the innermost call has pushed. -/
  | ret {w : Monitored} {machine : Instruction} {vm : VirtualMachine} {calls : List UInt64}
      (hfetch : w.vm.fetch = .ok machine) (hret : machine.opcode = .RET)
      (hcalls : w.calls = w.vm.cpu.sp :: calls)
      (hintact : ∀ x, InRange w.vm.cpu.sp 8 x → x ∈ w.hidden)
      (hstep : w.vm.step = (.ok (), vm)) :
      Step w { vm, calls, hidden := {x | x ∈ w.hidden ∧ ¬InRange w.vm.cpu.sp 8 x} }

/-- The runs of such steps; each costs one instruction. -/
def monitor : Simulation.System Monitored where
  move w c w' := c = 1 ∧ Step w w'
  final w := w.vm.cpu.halted = true

theorem Step.step {w w' : Monitored} (h : Step w w') : w.vm.step = (.ok (), w'.vm) := by
  cases h with
  | plain _ _ _ hstep => exact hstep
  | jump _ _ _ _ hstep => exact hstep
  | call _ _ hstep => exact hstep
  | ret _ _ _ _ hstep => exact hstep

end Monitored

end Vm
end MiniTool
