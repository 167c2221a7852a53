import MiniToolchain.Vm.Differ
import MiniToolchain.Vm.Invariants

/-!
# Machines that differ in some bytes

Two machines that differ in the bytes of their memories at some addresses, and in nothing else,
execute the same program.  They do the same until an instruction reads one of these bytes, and then
what it reads tells them apart.

## Main definitions

* `stepWith`, `continueWith` — the machine on a program that is given, not fetched.
* `loads`, `stores` — what an instruction reads as data, and what it writes.
* `Parallel` — what an instruction does to both machines.

## Main results

* `execute_parallel` — every instruction does the same to both, unless it reads where they differ.
-/

namespace MiniTool
namespace Vm

open Isa VirtualMemory

/-- Where nothing is written, the difference stays. -/
theorem unwritten {stale : Set UInt64} {stores : UInt64 → Prop} (h : ∀ x, ¬stores x) :
    {x | x ∈ stale ∧ ¬stores x} = stale := by
  ext x
  exact ⟨fun hx => hx.1, fun hx => ⟨hx, h x⟩⟩

/-! ### System calls -/

namespace DefaultSyscallProvider

/-- What is written tells what was written. -/
theorem emit_inj {provider : DefaultSyscallProvider} {fd : UInt64} {text text' : Str}
    (h : provider.emit fd text = provider.emit fd text') : text = text' := by
  unfold emit at h
  split_ifs at h
  · exact List.append_cancel_left (congrArg output h)
  · exact List.append_cancel_left (congrArg errorOutput h)
  · exact List.append_cancel_left (congrArg stdout h)
  · exact List.append_cancel_left (congrArg stderr h)

/-- The call reads this address. -/
def loads (number : UInt64) (context : SyscallContext) (x : UInt64) : Prop :=
  number = SyscallNumber.write.value ∧
    InRange (context.registers kArg2) (context.registers kArg3).toNat x

/-- The call writes this address. -/
def stores (provider : DefaultSyscallProvider) (number : UInt64) (context : SyscallContext)
    (x : UInt64) : Prop :=
  number = SyscallNumber.read.value ∧
    InRange (context.registers kArg2)
      (provider.take (context.registers kArg3).toNat).1.length x

/-- What a call does on two memories that differ at `stale`. -/
inductive Parallel (stale : Set UInt64) (loads stores : UInt64 → Prop) : Outcome → Outcome → Prop
  /-- It fails on both. -/
  | error {e : String} {provider : DefaultSyscallProvider} {context : SyscallContext}
      {memory : VirtualMemory} :
    Parallel stale loads stores (.error e, provider, { context with memory })
      (.error e, provider, context)
  /-- It does the same to both. -/
  | same {provider : DefaultSyscallProvider} (context : SyscallContext) {memory : VirtualMemory}
      (hunread : ∀ x ∈ stale, ¬loads x)
      (hdiffer : DifferAt {x | x ∈ stale ∧ ¬stores x} memory context.memory) :
    Parallel stale loads stores (.ok (), provider, { context with memory })
      (.ok (), provider, context)
  /-- It writes where they differ, and that shows. -/
  | apart {provider provider' : DefaultSyscallProvider} {context context' : SyscallContext}
      (hread : ∃ x ∈ stale, loads x) (hshows : provider' ≠ provider)
      (hhalt : context.halt = false ∧ context'.halt = false) :
    Parallel stale loads stores (.ok (), provider', context') (.ok (), provider, context)

theorem Parallel.untouched {stale : Set UInt64} {loads stores : UInt64 → Prop}
    {provider : DefaultSyscallProvider} {memory : VirtualMemory} (context : SyscallContext)
    (hdiffer : DifferAt stale memory context.memory) (hunread : ∀ x ∈ stale, ¬loads x)
    (hstores : ∀ x, ¬stores x) :
    Parallel stale loads stores (.ok (), provider, { context with memory })
      (.ok (), provider, context) := by
  refine .same context hunread ?_
  rw [unwritten hstores]
  exact hdiffer

theorem invoke_parallel {stale : Set UInt64} {context : SyscallContext} {memory : VirtualMemory}
    (h : DifferAt stale memory context.memory) (hhalt : context.halt = false)
    (provider : DefaultSyscallProvider) (number : UInt64) :
    Parallel stale (loads number context) (provider.stores number context)
      (provider.invoke number { context with memory }) (provider.invoke number context) := by
  unfold invoke
  cases hnumber : SyscallNumber.ofValue number with
  | none => exact .error
  | some call =>
    obtain rfl := SyscallNumber.eq_value_of_ofValue hnumber
    cases call with
    | exit =>
      refine .untouched { context with halt := true, exitCode := _ } h ?_ ?_
      · rintro x - ⟨hx, -⟩
        cases hx
      · rintro x ⟨hx, -⟩
        cases hx
    | write =>
      have hstores : ∀ x, ¬provider.stores SyscallNumber.write.value context x := by
        rintro x ⟨hx, -⟩
        cases hx
      dsimp only
      unfold doWrite
      dsimp only
      split_ifs with hfd hlength
      · exact .error
      · exact .error
      · have hsize := (context.registers kArg3).toNat_lt
        rcases h.readBytes_cases (context.registers kArg2) hsize with
          ⟨fault, hr, hr'⟩ | ⟨bytes, bytes', hr, hr', -, hiff⟩
        · rw [hr, hr']
          exact .error
        · rw [hr, hr']
          by_cases heq : bytes = bytes'
          · subst heq
            refine .untouched { context with registers := _ } h (fun x hx hload => ?_) hstores
            exact hiff.mp rfl x hx hload.2
          · refine .apart ?_ (fun hemit => heq (emit_inj hemit)) ⟨hhalt, hhalt⟩
            by_contra hnone
            exact heq (hiff.mpr fun x hx hrange => hnone ⟨x, hx, rfl, hrange⟩)
    | read =>
      dsimp only
      unfold doRead
      dsimp only
      split_ifs with hfd hlength
      · exact .error
      · exact .error
      · have hcount := length_take_le provider (context.registers kArg3).toNat
        have hsize := (context.registers kArg3).toNat_lt
        rcases @DifferAt.writeBytes_cases _ _ _ h (context.registers kArg2)
            (provider.take (context.registers kArg3).toNat).1 (by omega) with
          ⟨fault, hw, hw'⟩ | ⟨w, w', hw, hw', hdiffer⟩
        · rw [hw, hw']
          exact .error
        · rw [hw, hw']
          have hset : {x | x ∈ stale ∧ ¬provider.stores SyscallNumber.read.value context x} =
              uncovered stale (context.registers kArg2)
                (provider.take (context.registers kArg3).toNat).1.length := by
            ext x
            refine ⟨fun hx => ⟨hx.1, fun hrange => hx.2 ⟨rfl, hrange⟩⟩, fun hx => ⟨hx.1, ?_⟩⟩
            rintro ⟨-, hrange⟩
            exact hx.2 hrange
          refine .same { context with registers := _, memory := w' } ?_ (hset ▸ hdiffer)
          rintro x - ⟨hx, -⟩
          cases hx
    | allocate =>
      have hloads : ∀ x ∈ stale, ¬loads SyscallNumber.allocate.value context x := by
        rintro x - ⟨hx, -⟩
        cases hx
      have hstores : ∀ x, ¬provider.stores SyscallNumber.allocate.value context x := by
        rintro x ⟨hx, -⟩
        cases hx
      obtain ⟨hblock, hdiffer⟩ := h.allocate (context.registers kArg1)
      dsimp only
      unfold doAllocate
      dsimp only
      generalize memory.allocate (context.registers kArg1) = result at hblock hdiffer
      generalize context.memory.allocate (context.registers kArg1) = result' at hblock hdiffer
      obtain ⟨block, memory⟩ := result
      obtain ⟨block', memory'⟩ := result'
      obtain rfl : block = block' := hblock
      cases block with
      | error fault =>
        exact .untouched { context with registers := _, memory := memory' } hdiffer hloads hstores
      | ok block =>
        exact .untouched { context with registers := _, memory := memory' } hdiffer hloads hstores

end DefaultSyscallProvider

namespace VirtualMachine

/-! ### A given program -/

/-- What is to be executed next, if the machine has not halted, or why nothing can be; `program`
says what there is at an address. -/
def nextInstruction (program : UInt64 → Except VMFault Instruction) (vm : VirtualMachine) :
    Except VMFault (Option Instruction) :=
  if !vm.loaded then
    .error { error := .notLoaded, message := "no program is loaded", pc := vm.cpu.pc }
  else if vm.cpu.halted then .ok none
  else (program vm.cpu.pc).map some

/-- A step on a given program. -/
def stepWith (program : UInt64 → Except VMFault Instruction) (vm : VirtualMachine) : Outcome :=
  match vm.nextInstruction program with
  | .error fault => (.error fault, vm)
  | .ok none => (.ok (), vm)
  | .ok (some instruction) => vm.advance.execute instruction vm.cpu.pc

/-- A number of steps, or those up to the first fault. -/
def continueWith (program : UInt64 → Except VMFault Instruction) : ℕ → VirtualMachine → Outcome
  | 0, vm => (.ok (), vm)
  | k + 1, vm =>
    match vm.stepWith program with
    | (.ok (), vm) => continueWith program k vm
    | (.error fault, vm) => (.error fault, vm)

/-! ### What an instruction reads and writes -/

/-- The instruction reads this address as data: with a LOAD, or in a `write`. -/
def loads (vm : VirtualMachine) (instruction : Instruction) (x : UInt64) : Prop :=
  (instruction.opcode = .LOAD ∧
      InRange (vm.cpu.registers instruction.src.slot + instruction.imm.toUInt64) 8 x) ∨
    (instruction.opcode = .SYSCALL ∧ instruction.imm.toUInt64 = SyscallNumber.write.value ∧
      InRange (vm.cpu.registers kArg2) (vm.cpu.registers kArg3).toNat x)

/-- The instruction writes this address: with a STORE, on the stack, or in a `read`. -/
def stores (vm : VirtualMachine) (instruction : Instruction) (x : UInt64) : Prop :=
  (instruction.opcode = .STORE ∧
      InRange (vm.cpu.registers instruction.dst.slot + instruction.imm.toUInt64) 8 x) ∨
    (pushes instruction.opcode = true ∧ InRange (vm.cpu.sp - 8) 8 x) ∨
    (instruction.opcode = .SYSCALL ∧ instruction.imm.toUInt64 = SyscallNumber.read.value ∧
      InRange (vm.cpu.registers kArg2)
        (vm.syscalls.take (vm.cpu.registers kArg3).toNat).1.length x)

/-- What an instruction does to two machines that differ at `stale`. -/
inductive Parallel (stale : Set UInt64) (loads stores : UInt64 → Prop) : Outcome → Outcome → Prop
  /-- It faults on both. -/
  | fault {fault : VMFault} {memory : VirtualMemory} (vm : VirtualMachine) :
    Parallel stale loads stores (.error fault, { vm with memory }) (.error fault, vm)
  /-- It does the same to both. -/
  | same {memory : VirtualMemory} (vm : VirtualMachine) (hunread : ∀ x ∈ stale, ¬loads x)
      (hdiffer : DifferAt {x | x ∈ stale ∧ ¬stores x} memory vm.memory) :
    Parallel stale loads stores (.ok (), { vm with memory }) (.ok (), vm)
  /-- It reads where they differ, and that shows. -/
  | apart {vm vm' : VirtualMachine} (hread : ∃ x ∈ stale, loads x)
      (hshows : vm'.cpu.registers ≠ vm.cpu.registers ∨ vm'.syscalls ≠ vm.syscalls) :
    Parallel stale loads stores (.ok (), vm') (.ok (), vm)

namespace Parallel

variable {stale : Set UInt64} {loads stores : UInt64 → Prop}

/-- The memory is not written, nor read where it differs. -/
theorem unread {memory : VirtualMemory} (vm : VirtualMachine)
    (hdiffer : DifferAt stale memory vm.memory) (hunread : ∀ x ∈ stale, ¬loads x)
    (hstores : ∀ x, ¬stores x) :
    Parallel stale loads stores (.ok (), { vm with memory }) (.ok (), vm) := by
  refine .same vm hunread ?_
  rw [unwritten hstores]
  exact hdiffer

/-- The memory is neither read nor written. -/
theorem untouched {memory : VirtualMemory} (vm : VirtualMachine)
    (hdiffer : DifferAt stale memory vm.memory) (hloads : ∀ x, ¬loads x)
    (hstores : ∀ x, ¬stores x) :
    Parallel stale loads stores (.ok (), { vm with memory }) (.ok (), vm) :=
  unread vm hdiffer (fun x _ => hloads x) hstores

end Parallel

section

variable {stale : Set UInt64} {vm : VirtualMachine} {memory : VirtualMemory}
  (h : DifferAt stale memory vm.memory) (instruction : Instruction) (pc : UInt64)

include h in
/-- Branches and operations do not look at the memory. -/
theorem executeOther_parallel {loads stores : UInt64 → Prop} (hloads : ∀ x, ¬loads x)
    (hstores : ∀ x, ¬stores x) : Parallel stale loads stores
      (({ vm with memory } : VirtualMachine).executeOther instruction pc)
      (vm.executeOther instruction pc) := by
  unfold executeOther
  dsimp only
  split_ifs
  · exact .untouched (vm.setPc _) h hloads hstores
  · exact .untouched vm h hloads hstores
  · split
    · exact .fault vm
    · exact .fault vm
    · exact .untouched { vm with cpu := _ } h hloads hstores
  · split
    · exact .fault vm
    · exact .fault vm
    · exact .untouched { vm with cpu := _ } h hloads hstores

include h in
/-- A push faults on both, or writes over what differs just below the stack pointer. -/
theorem push_parallel (value : UInt64) :
    (∃ fault, ({ vm with memory } : VirtualMachine).push value pc =
      (.error fault, { vm with memory }) ∧
        vm.push value pc = (.error fault, vm)) ∨
      ∃ w w', ({ vm with memory } : VirtualMachine).push value pc =
          (.ok (), { vm with memory := w, cpu := { vm.cpu with sp := vm.cpu.sp - 8 } }) ∧
        vm.push value pc =
          (.ok (), { vm with memory := w', cpu := { vm.cpu with sp := vm.cpu.sp - 8 } }) ∧
        DifferAt (uncovered stale (vm.cpu.sp - 8) 8) w w' := by
  unfold push
  dsimp only
  by_cases hroom : vm.cpu.sp < vm.stackLimit + 8
  · rw [if_pos hroom, if_pos hroom]
    exact Or.inl ⟨_, rfl, rfl⟩
  · rw [if_neg hroom, if_neg hroom]
    rcases h.writeU64_cases (vm.cpu.sp - 8) value with ⟨fault, hw, hw'⟩ | ⟨w, w', hw, hw', hdiffer⟩
    · rw [hw, hw']
      exact Or.inl ⟨_, rfl, rfl⟩
    · rw [hw, hw']
      exact Or.inr ⟨w, w', rfl, rfl, hdiffer⟩

include h in
/-- A pop faults on both, or takes the same from both. -/
theorem pop_parallel (hstack : ∀ x ∈ stale, ¬InRange vm.cpu.sp 8 x) :
    (∃ fault, ({ vm with memory } : VirtualMachine).pop pc = (.error fault, { vm with memory }) ∧
        vm.pop pc = (.error fault, vm)) ∨
      ∃ value, ({ vm with memory } : VirtualMachine).pop pc =
          (.ok value, { vm with memory, cpu := { vm.cpu with sp := vm.cpu.sp + 8 } }) ∧
        vm.pop pc = (.ok value, { vm with cpu := { vm.cpu with sp := vm.cpu.sp + 8 } }) := by
  unfold pop
  dsimp only
  by_cases hroom : vm.cpu.sp ≥ vm.stackTop
  · rw [if_pos hroom, if_pos hroom]
    exact Or.inl ⟨_, rfl, rfl⟩
  · rw [if_neg hroom, if_neg hroom]
    rcases h.readU64_cases vm.cpu.sp with ⟨fault, hr, hr'⟩ | ⟨value, value', hr, hr', hiff⟩
    · rw [hr, hr']
      exact Or.inl ⟨_, rfl, rfl⟩
    · obtain rfl := hiff.mpr hstack
      rw [hr, hr']
      exact Or.inr ⟨value, rfl, rfl⟩

end

/-- What an instruction that is no LOAD and no SYSCALL reads as data. -/
theorem not_loads {vm : VirtualMachine} {instruction : Instruction}
    (hload : instruction.opcode ≠ .LOAD) (hsyscall : instruction.opcode ≠ .SYSCALL) (x : UInt64) :
    ¬vm.loads instruction x := by
  rintro (⟨h, -⟩ | ⟨h, -⟩)
  · exact hload h
  · exact hsyscall h

theorem not_stores {vm : VirtualMachine} {instruction : Instruction}
    (hstore : instruction.opcode ≠ .STORE) (hpushes : pushes instruction.opcode = false)
    (hsyscall : instruction.opcode ≠ .SYSCALL) (x : UInt64) : ¬vm.stores instruction x := by
  rintro (⟨h, -⟩ | ⟨h, -⟩ | ⟨h, -⟩)
  · exact hstore h
  · rw [hpushes] at h
    cases h
  · exact hsyscall h

theorem executeSyscall_parallel {stale : Set UInt64} {vm : VirtualMachine} {memory : VirtualMemory}
    (h : DifferAt stale memory vm.memory) (instruction : Instruction) (pc : UInt64)
    (hop : instruction.opcode = .SYSCALL) :
    Parallel stale (vm.loads instruction) (vm.stores instruction)
      (({ vm with memory } : VirtualMachine).executeSyscall instruction pc)
      (vm.executeSyscall instruction pc) := by
  have hcall := @DefaultSyscallProvider.invoke_parallel stale vm.context memory h rfl vm.syscalls
    instruction.imm.toUInt64
  have hloads : ∀ x, vm.loads instruction x ↔
      DefaultSyscallProvider.loads instruction.imm.toUInt64 vm.context x := by
    intro x
    constructor
    · rintro (⟨hload, -⟩ | ⟨-, hx⟩)
      · rw [hop] at hload
        cases hload
      · exact hx
    · exact fun hx => Or.inr ⟨hop, hx⟩
  have hstores : ∀ x, vm.stores instruction x ↔
      vm.syscalls.stores instruction.imm.toUInt64 vm.context x := by
    intro x
    constructor
    · rintro (⟨hstore, -⟩ | ⟨hpushes, -⟩ | ⟨-, hx⟩)
      · rw [hop] at hstore
        cases hstore
      · rw [hop] at hpushes
        cases hpushes
      · exact hx
    · exact fun hx => Or.inr (Or.inr ⟨hop, hx⟩)
  rw [funext fun x => propext (hloads x), funext fun x => propext (hstores x)]
  unfold executeSyscall
  have hcontext : ({ vm with memory } : VirtualMachine).context = { vm.context with memory } := rfl
  rw [hcontext]
  dsimp only
  generalize vm.syscalls.invoke instruction.imm.toUInt64 { vm.context with memory } =
    outcome at hcall ⊢
  generalize vm.syscalls.invoke instruction.imm.toUInt64 vm.context = outcome' at hcall ⊢
  cases hcall with
  | error =>
    dsimp only
    exact .fault { vm with syscalls := _, memory := _, cpu := _ }
  | @same provider context memory hunread hdiffer =>
    dsimp only
    by_cases hhalt : context.halt = true
    · rw [if_pos hhalt, if_pos hhalt]
      exact .same { vm with syscalls := _, memory := _, cpu := _ } hunread hdiffer
    · rw [if_neg hhalt, if_neg hhalt]
      exact .same { vm with syscalls := _, memory := _, cpu := _ } hunread hdiffer
  | @apart provider provider' context context' hread hshows hhalt =>
    dsimp only
    rw [hhalt.1, hhalt.2]
    exact .apart hread (Or.inr hshows)

/-- What is left of the difference after a STORE. -/
theorem unstored_of_store {vm : VirtualMachine} {instruction : Instruction} (stale : Set UInt64)
    (hop : instruction.opcode = .STORE) : {x | x ∈ stale ∧ ¬vm.stores instruction x} =
      uncovered stale (vm.cpu.registers instruction.dst.slot + instruction.imm.toUInt64) 8 := by
  ext x
  refine ⟨fun hx => ⟨hx.1, fun hrange => hx.2 (Or.inl ⟨hop, hrange⟩)⟩, fun hx => ⟨hx.1, ?_⟩⟩
  rintro (⟨-, hrange⟩ | ⟨hpushes, -⟩ | ⟨hsyscall, -⟩)
  · exact hx.2 hrange
  · rw [hop] at hpushes
    cases hpushes
  · rw [hop] at hsyscall
    cases hsyscall

/-- What is left of it after a push. -/
theorem unstored_of_pushes {vm : VirtualMachine} {instruction : Instruction} (stale : Set UInt64)
    (hpushes : pushes instruction.opcode = true) :
    {x | x ∈ stale ∧ ¬vm.stores instruction x} = uncovered stale (vm.cpu.sp - 8) 8 := by
  ext x
  refine ⟨fun hx => ⟨hx.1, fun hrange => hx.2 (Or.inr (Or.inl ⟨hpushes, hrange⟩))⟩,
    fun hx => ⟨hx.1, ?_⟩⟩
  rintro (⟨hstore, -⟩ | ⟨-, hrange⟩ | ⟨hsyscall, -⟩)
  · rw [hstore] at hpushes
    cases hpushes
  · exact hx.2 hrange
  · rw [hsyscall] at hpushes
    cases hpushes

/-- What a LOAD reads. -/
theorem loads_of_load {vm : VirtualMachine} {instruction : Instruction}
    (hop : instruction.opcode = .LOAD) (x : UInt64) : vm.loads instruction x ↔
      InRange (vm.cpu.registers instruction.src.slot + instruction.imm.toUInt64) 8 x := by
  refine ⟨?_, fun hx => Or.inl ⟨hop, hx⟩⟩
  rintro (⟨-, hx⟩ | ⟨hsyscall, -⟩)
  · exact hx
  · rw [hop] at hsyscall
    cases hsyscall

/-- A word that is loaded is the same unless the memories differ in it, and then the register
shows. -/
theorem load_parallel {stale : Set UInt64} {vm : VirtualMachine} {memory : VirtualMemory}
    (h : DifferAt stale memory vm.memory) {instruction : Instruction} (pc : UInt64)
    (hop : instruction.opcode = .LOAD) :
    Parallel stale (vm.loads instruction) (vm.stores instruction)
      (match memory.readU64 (vm.cpu.registers instruction.src.slot + instruction.imm.toUInt64) with
        | .error fault =>
          (.error (({ vm with memory } : VirtualMachine).faultFromMemory fault pc "LOAD"),
            { vm with memory })
        | .ok value =>
          (.ok (), ({ vm with memory } : VirtualMachine).setRegister instruction.dst.slot value))
      (match vm.memory.readU64
          (vm.cpu.registers instruction.src.slot + instruction.imm.toUInt64) with
        | .error fault => (.error (vm.faultFromMemory fault pc "LOAD"), vm)
        | .ok value => (.ok (), vm.setRegister instruction.dst.slot value)) := by
  have hstores : ∀ x, ¬vm.stores instruction x :=
    not_stores (by rw [hop]; nofun) (by rw [hop]; rfl) (by rw [hop]; nofun)
  rcases h.readU64_cases (vm.cpu.registers instruction.src.slot + instruction.imm.toUInt64) with
    ⟨fault, hr, hr'⟩ | ⟨value, value', hr, hr', hiff⟩
  · rw [hr, hr']
    exact .fault vm
  · rw [hr, hr']
    simp only [← loads_of_load hop] at hiff
    by_cases heq : value = value'
    · subst heq
      exact .unread (vm.setRegister _ _) h (hiff.mp rfl) hstores
    · refine .apart ?_ (Or.inl fun hregisters => heq ?_)
      · by_contra hnone
        exact heq (hiff.mpr fun x hx hload => hnone ⟨x, hx, hload⟩)
      · have hdst := congrFun hregisters instruction.dst.slot
        simpa [setRegister] using hdst

/-- A word that is stored makes the memories alike. -/
theorem store_parallel {stale : Set UInt64} {vm : VirtualMachine} {memory : VirtualMemory}
    (h : DifferAt stale memory vm.memory) {instruction : Instruction} (pc : UInt64)
    (hop : instruction.opcode = .STORE) :
    Parallel stale (vm.loads instruction) (vm.stores instruction)
      (match memory.writeU64 (vm.cpu.registers instruction.dst.slot + instruction.imm.toUInt64)
          (vm.cpu.registers instruction.src.slot) with
        | .error fault =>
          (.error (({ vm with memory } : VirtualMachine).faultFromMemory fault pc "STORE"),
            { vm with memory })
        | .ok memory => (.ok (), { vm with memory }))
      (match vm.memory.writeU64
          (vm.cpu.registers instruction.dst.slot + instruction.imm.toUInt64)
          (vm.cpu.registers instruction.src.slot) with
        | .error fault => (.error (vm.faultFromMemory fault pc "STORE"), vm)
        | .ok memory => (.ok (), { vm with memory })) := by
  rcases h.writeU64_cases (vm.cpu.registers instruction.dst.slot + instruction.imm.toUInt64)
      (vm.cpu.registers instruction.src.slot) with ⟨fault, hw, hw'⟩ | ⟨w, w', hw, hw', hdiffer⟩
  · rw [hw, hw']
    exact .fault vm
  · rw [hw, hw']
    refine .same { vm with memory := w' } (fun x _ => not_loads (by rw [hop]; nofun)
      (by rw [hop]; nofun) x) ?_
    rw [unstored_of_store stale hop]
    exact hdiffer

/-- **Every instruction does the same to both machines, unless it reads where they differ.** -/
theorem execute_parallel {stale : Set UInt64} {vm : VirtualMachine} {memory : VirtualMemory}
    (h : DifferAt stale memory vm.memory) (instruction : Instruction)
    (hstack : pops instruction.opcode = true → ∀ x ∈ stale, ¬InRange vm.cpu.sp 8 x) (pc : UInt64) :
    Parallel stale (vm.loads instruction) (vm.stores instruction)
      (({ vm with memory } : VirtualMachine).execute instruction pc)
      (vm.execute instruction pc) := by
  -- an instruction that neither reads nor writes the memory
  have hquiet : ∀ opcode, instruction.opcode = opcode → opcode ≠ .LOAD → opcode ≠ .STORE →
      opcode ≠ .SYSCALL → pushes opcode = false →
      (∀ x, ¬vm.loads instruction x) ∧ ∀ x, ¬vm.stores instruction x := by
    rintro opcode rfl hload hstore hsyscall hpushes
    exact ⟨not_loads hload hsyscall, not_stores hstore hpushes hsyscall⟩
  unfold execute
  dsimp only
  split_ifs
  · exact .fault vm
  · split
    · next hop =>
      obtain ⟨hl, hs⟩ := hquiet _ hop nofun nofun nofun rfl
      exact .untouched vm h hl hs
    · next hop =>
      obtain ⟨hl, hs⟩ := hquiet _ hop nofun nofun nofun rfl
      exact .untouched { vm with cpu := _ } h hl hs
    · next hop => exact executeSyscall_parallel h instruction pc hop
    · next hop =>
      obtain ⟨hl, hs⟩ := hquiet _ hop nofun nofun nofun rfl
      exact .untouched (vm.setRegister _ _) h hl hs
    · next hop =>
      obtain ⟨hl, hs⟩ := hquiet _ hop nofun nofun nofun rfl
      exact .untouched (vm.setRegister _ _) h hl hs
    · next hop =>
      obtain ⟨hl, hs⟩ := hquiet _ hop nofun nofun nofun rfl
      exact .untouched (vm.setRegister _ _) h hl hs
    · next hop => exact load_parallel h pc hop
    · next hop => exact store_parallel h pc hop
    · next hop =>
      rcases push_parallel h pc (vm.cpu.registers instruction.dst.slot) with
        ⟨fault, hp, hp'⟩ | ⟨w, w', hp, hp', hdiffer⟩
      · rw [hp, hp']
        exact .fault vm
      · rw [hp, hp']
        refine .same { vm with memory := w', cpu := _ } (fun x _ => not_loads (by rw [hop]; nofun)
          (by rw [hop]; nofun) x) ?_
        rw [unstored_of_pushes stale (by rw [hop]; rfl)]
        exact hdiffer
    · next hop =>
      obtain ⟨hl, hs⟩ := hquiet _ hop nofun nofun nofun rfl
      rcases pop_parallel h pc (hstack (by rw [hop]; rfl)) with ⟨fault, hp, hp'⟩ | ⟨value, hp, hp'⟩
      · rw [hp, hp']
        exact .fault vm
      · rw [hp, hp']
        exact .untouched { vm with cpu := _ } h hl hs
    · next hop =>
      rcases push_parallel h pc vm.cpu.pc with ⟨fault, hp, hp'⟩ | ⟨w, w', hp, hp', hdiffer⟩
      · rw [hp, hp']
        exact .fault vm
      · rw [hp, hp']
        refine .same { vm with memory := w', cpu := _ } (fun x _ => not_loads (by rw [hop]; nofun)
          (by rw [hop]; nofun) x) ?_
        rw [unstored_of_pushes stale (by rw [hop]; rfl)]
        exact hdiffer
    · next hop =>
      obtain ⟨hl, hs⟩ := hquiet _ hop nofun nofun nofun rfl
      rcases pop_parallel h pc (hstack (by rw [hop]; rfl)) with ⟨fault, hp, hp'⟩ | ⟨value, hp, hp'⟩
      · rw [hp, hp']
        exact .fault vm
      · rw [hp, hp']
        exact .untouched { vm with cpu := _ } h hl hs
    · next hsyscall _ _ _ hload hstore hpush _ hcall _ =>
      have hpushes : pushes instruction.opcode = false := by
        unfold pushes
        rw [Bool.or_eq_false_iff, decide_eq_false_iff_not, decide_eq_false_iff_not]
        exact ⟨hpush, hcall⟩
      exact executeOther_parallel h instruction pc (not_loads hload hsyscall)
        (not_stores hstore hpushes hsyscall)

/-! ### The stack pointer -/

/-- A word that is read does not end at the end of the address space. -/
theorem toNat_add_eight_of_readU64 {memory : VirtualMemory} {address value : UInt64}
    (h : memory.readU64 address = .ok value) : address.toNat + 8 < 2 ^ 64 := by
  unfold readU64 at h
  obtain ⟨r, hcheck, -⟩ := Checked.bind_eq_ok.mp h
  obtain ⟨hr, -, hfits, -⟩ := checkAccess_eq_ok.mp hcheck
  have hnoWrap := (memory.bounded r hr).2
  have height : (8 : UInt64).toNat = 8 := rfl
  omega

/-- An instruction that succeeds leaves the stack pointer alone, or moves it by a word. -/
theorem sp_of_execute {vm vm' : VirtualMachine} {instruction : Instruction} {pc : UInt64}
    (h : vm.execute instruction pc = (.ok (), vm')) :
    vm'.cpu.sp = vm.cpu.sp ∨
      (vm'.cpu.sp = vm.cpu.sp + 8 ∧ vm.cpu.sp.toNat + 8 < 2 ^ 64) ∨
      (vm'.cpu.sp = vm.cpu.sp - 8 ∧ pushes instruction.opcode = true) := by
  have hmoved := @sp_of_execute_ok vm instruction pc (by rw [h])
  rw [h] at hmoved
  unfold movedSp at hmoved
  split_ifs at hmoved with hpushes hpops
  · exact Or.inr (Or.inr ⟨hmoved, hpushes⟩)
  · refine Or.inr (Or.inl ⟨hmoved, ?_⟩)
    rcases pop_cases vm pc with ⟨fault, hpop⟩ | ⟨value, -, hread, -⟩
    · obtain ⟨hdst, hsrc⟩ :=
        validRegisters_of_execute_ok (by rw [h] : (vm.execute instruction pc).1 = _)
      have hfault := (execute_of_pops vm pc hdst hsrc hpops fault).mpr (by rw [hpop])
      rw [h] at hfault
      cases hfault
    · exact toNat_add_eight_of_readU64 hread
  · exact Or.inl hmoved

/-! ### A run of both -/

/-- What can be seen of a machine and of its last step. -/
structure SameView (a b : Outcome) : Prop where
  fault : a.1 = b.1
  registers : a.2.cpu.registers = b.2.cpu.registers
  sp : a.2.cpu.sp = b.2.cpu.sp
  flags : a.2.cpu.flags = b.2.cpu.flags
  /-- The captured output is in the provider. -/
  output : a.2.syscalls = b.2.syscalls
  exitCode : a.2.cpu.exitCode = b.2.cpu.exitCode

theorem SameView.of_memory {result : Except VMFault Unit} {memory : VirtualMemory}
    (vm : VirtualMachine) : SameView (result, { vm with memory }) (result, vm) :=
  ⟨rfl, rfl, rfl, rfl, rfl, rfl⟩

/-- In `k` steps no instruction reads one of these addresses as data before one writes it. -/
def Unread (program : UInt64 → Except VMFault Instruction) : ℕ → Set UInt64 → VirtualMachine → Prop
  | 0, _, _ => True
  | k + 1, stale, vm =>
    ∀ instruction vm', vm.nextInstruction program = .ok (some instruction) →
      vm.stepWith program = (.ok (), vm') →
      (∀ x ∈ stale, ¬vm.loads instruction x) ∧
        Unread program k {x | x ∈ stale ∧ ¬vm.stores instruction x} vm'

/-- The addresses lie in the word below `start`, where the stack pointer was; it has not been lower
since, or there is nothing left of them. -/
structure Below (start : ℕ) (stale : Set UInt64) (vm : VirtualMachine) : Prop where
  room : 8 ≤ start
  word : ∀ x ∈ stale, x.toNat < start ∧ start ≤ x.toNat + 8
  sp : stale.Nonempty → ∃ j, vm.cpu.sp.toNat = start + 8 * j

namespace Below

variable {start : ℕ} {stale : Set UInt64} {vm vm' : VirtualMachine}

/-- What is popped does not differ. -/
theorem not_inRange (h : Below start stale vm) : ∀ x ∈ stale, ¬InRange vm.cpu.sp 8 x := by
  intro x hx hrange
  obtain ⟨j, hsp⟩ := h.sp ⟨x, hx⟩
  have hword := h.word x hx
  have hlow := hrange.1
  omega

theorem advance (h : Below start stale vm) : Below start stale vm.advance := ⟨h.room, h.word, h.sp⟩

/-- A push onto the word overwrites it. -/
theorem execute (h : Below start stale vm) {instruction : Instruction} {pc : UInt64}
    (hexecute : vm.execute instruction pc = (.ok (), vm')) :
    Below start {x | x ∈ stale ∧ ¬vm.stores instruction x} vm' := by
  refine ⟨h.room, fun x hx => h.word x hx.1, ?_⟩
  rintro ⟨x, hx, hunstored⟩
  obtain ⟨j, hsp⟩ := h.sp ⟨x, hx⟩
  have hroom := h.room
  have hlt := vm.cpu.sp.toNat_lt
  have height : (8 : UInt64).toNat = 8 := rfl
  rcases sp_of_execute hexecute with hsame | ⟨hup, hnoWrap⟩ | ⟨hdown, hpushes⟩
  · exact ⟨j, by rw [hsame, hsp]⟩
  · refine ⟨j + 1, ?_⟩
    rw [hup, UInt64.toNat_add, height, Nat.mod_eq_of_lt hnoWrap]
    omega
  · have htarget : (vm.cpu.sp - 8).toNat = vm.cpu.sp.toNat - 8 :=
      UInt64.toNat_sub_of_le _ _ (UInt64.le_iff_toNat_le.mpr (by omega))
    have hword := h.word x hx
    cases j with
    | zero =>
      -- the push is onto the word itself
      exfalso
      refine hunstored (Or.inr (Or.inl ⟨hpushes, ?_⟩))
      unfold InRange
      omega
    | succ j =>
      refine ⟨j, ?_⟩
      rw [hdown, htarget]
      omega

end Below

section

variable {start : ℕ} {stale : Set UInt64} {vm : VirtualMachine} {memory : VirtualMemory}
  {program : UInt64 → Except VMFault Instruction}

theorem continueWith_of_ok {vm' : VirtualMachine} (h : vm.stepWith program = (.ok (), vm'))
    (k : ℕ) :
    vm.continueWith program (k + 1) = vm'.continueWith program k := by
  rw [continueWith, h]

theorem continueWith_of_fault {vm' : VirtualMachine} {fault : VMFault}
    (h : vm.stepWith program = (.error fault, vm')) (k : ℕ) :
    vm.continueWith program (k + 1) = (.error fault, vm') := by
  rw [continueWith, h]

/-- A step of both machines: they execute the same instruction, or none. -/
theorem stepWith_parallel (program : UInt64 → Except VMFault Instruction)
    (h : DifferAt stale memory vm.memory) (hbelow : Below start stale vm) :
    ((∀ instruction, vm.nextInstruction program ≠ .ok (some instruction)) ∧
      ∃ result, ({ vm with memory } : VirtualMachine).stepWith program =
        (result, { vm with memory }) ∧ vm.stepWith program = (result, vm)) ∨
      ∃ instruction, vm.nextInstruction program = .ok (some instruction) ∧
        vm.stepWith program = vm.advance.execute instruction vm.cpu.pc ∧
        Parallel stale (vm.loads instruction) (vm.stores instruction)
          (({ vm with memory } : VirtualMachine).stepWith program) (vm.stepWith program) := by
  have hnext : ({ vm with memory } : VirtualMachine).nextInstruction program =
      vm.nextInstruction program := rfl
  unfold stepWith
  rw [hnext]
  rcases vm.nextInstruction program with fault | _ | instruction
  · exact Or.inl ⟨nofun, .error fault, rfl, rfl⟩
  · exact Or.inl ⟨nofun, .ok (), rfl, rfl⟩
  · exact Or.inr ⟨instruction, rfl, rfl,
      @execute_parallel stale vm.advance memory h instruction (fun _ => hbelow.not_inRange)
        vm.cpu.pc⟩

/-- **As long as nothing is read where they differ, both machines show the same.** -/
theorem sameView_of_unread (h : DifferAt stale memory vm.memory)
    (hbelow : Below start stale vm) {k : ℕ} (hunread : Unread program k stale vm) :
    SameView (({ vm with memory } : VirtualMachine).continueWith program k)
      (vm.continueWith program k) := by
  induction k generalizing stale vm memory with
  | zero => exact .of_memory vm
  | succ k ih =>
    rcases stepWith_parallel program h hbelow with
      ⟨hnone, result, hleft, hright⟩ | ⟨instruction, hnext, hexecute, hparallel⟩
    · cases result with
      | error fault =>
        rw [continueWith_of_fault hleft, continueWith_of_fault hright]
        exact .of_memory vm
      | ok u =>
        rw [continueWith_of_ok hleft, continueWith_of_ok hright]
        refine ih h hbelow ?_
        -- a machine that has halted executes nothing any more
        cases k with
        | zero => trivial
        | succ k => exact fun instruction vm' hnext _ => absurd hnext (hnone instruction)
    · have hafter := hunread instruction
      generalize hleft : ({ vm with memory } : VirtualMachine).stepWith program = left at hparallel
      generalize hright : vm.stepWith program = right at hparallel hafter hexecute
      cases hparallel with
      | fault vm' =>
        rw [continueWith_of_fault hleft, continueWith_of_fault hright]
        exact .of_memory vm'
      | same vm' hquiet hdiffer =>
        rw [continueWith_of_ok hleft, continueWith_of_ok hright]
        obtain ⟨-, hrest⟩ := hafter vm' hnext rfl
        exact ih hdiffer (hbelow.advance.execute hexecute.symm) hrest
      | @apart vm' vm'' hread hshows =>
        obtain ⟨x, hx, hload⟩ := hread
        obtain ⟨hnone, -⟩ := hafter _ hnext rfl
        exact absurd hload (hnone x hx)

/-- As long as both machines show the same, nothing is read where they differ. -/
theorem unread_of_sameView (h : DifferAt stale memory vm.memory) (hbelow : Below start stale vm)
    (hsame : ∀ k, SameView (({ vm with memory } : VirtualMachine).continueWith program k)
      (vm.continueWith program k)) (k : ℕ) : Unread program k stale vm := by
  induction k generalizing stale vm memory with
  | zero => trivial
  | succ k ih =>
    intro instruction vm' hnext hstep
    rcases stepWith_parallel program h hbelow with
      ⟨hnone, -⟩ | ⟨instruction', hnext', hexecute, hparallel⟩
    · exact absurd hnext (hnone instruction)
    · obtain rfl := Option.some.inj (Except.ok.inj (hnext.symm.trans hnext'))
      rw [hstep] at hparallel hexecute
      generalize hleft : ({ vm with memory } : VirtualMachine).stepWith program = left at hparallel
      have hviews : ∀ k,
          SameView (({ vm with memory } : VirtualMachine).continueWith program (k + 1))
              (vm'.continueWith program k) := by
        intro k
        have hview := hsame (k + 1)
        rwa [continueWith_of_ok hstep] at hview
      cases hparallel with
      | same _ hquiet hdiffer =>
        refine ⟨hquiet, ih hdiffer (hbelow.advance.execute hexecute.symm) fun k => ?_⟩
        have hview := hviews k
        rwa [continueWith_of_ok hleft] at hview
      | @apart left' _ hread hshows =>
        -- what was read shows at once
        have hview := hviews 0
        rw [continueWith_of_ok hleft] at hview
        rcases hshows with hregisters | houtput
        · exact absurd hview.registers hregisters
        · exact absurd hview.output houtput

end

end VirtualMachine
end Vm
end MiniTool
