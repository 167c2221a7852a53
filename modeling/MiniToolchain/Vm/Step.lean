import MiniToolchain.Executable.ExecutableIo
import MiniToolchain.Isa.Arithmetic
import MiniToolchain.Vm.Vm
import Mathlib.Logic.Relation

/-!
# What a step does

Every instruction has one of five effects on the machine; the invariants of a run are derived from
these, and not from the instructions.  Between steps the host may replace the provider of the system
calls, or what it captured.

## Main definitions

* `Effect` — all that an instruction can do.
* `Advance`, `Runs` — a step of the machine or of its host, and any number of them.
* `steps`, `Stops` — a number of steps, and the step that ends a run.

## Main results

* `effect_of_execute`, `step_cases` — every instruction has such an effect.
* `runLoop_of_stops` — a run ends with the first step that faults or halts.
* `load_eq_ok` — what a machine is after `load`.
* `change_of_step`, `shapes_of_runs` — what happens to the memory.
* `branchTaken_after_compare` — a compare and a conditional jump are a signed comparison.
-/

namespace MiniTool
namespace Vm

open Checked Isa

namespace VirtualMachine

/-! ### Effects -/

/-- FLAGS is as it was, or was written under the mask. -/
def FlagsFrom (cpu cpu' : CPUState) : Prop :=
  cpu'.flags = cpu.flags ∨ ∃ flags, cpu'.flags = flags &&& kFlagsMask

/-- All that an instruction can do. -/
inductive Effect (vm : VirtualMachine) (instruction : Instruction) : VirtualMachine → Prop
  /-- Nothing beyond the processor changes, nor the stack pointer. -/
  | compute {cpu : CPUState} (hsp : cpu.sp = vm.cpu.sp) (hflags : FlagsFrom vm.cpu cpu) :
      Effect vm instruction { vm with cpu }
  | store {address value : UInt64} {memory : VirtualMemory}
      (hwrite : vm.memory.writeU64 address value = .ok memory) :
      Effect vm instruction { vm with memory }
  | push {value pc : UInt64} {memory : VirtualMemory} (hroom : ¬vm.cpu.sp < vm.stackLimit + 8)
      (hwrite : vm.memory.writeU64 (vm.cpu.sp - 8) value = .ok memory) :
      Effect vm instruction { vm with memory, cpu := { vm.cpu with sp := vm.cpu.sp - 8, pc } }
  | pop {registers : Registers} {pc : UInt64} (hroom : vm.cpu.sp < vm.stackTop) :
      Effect vm instruction
        { vm with cpu := { vm.cpu with sp := vm.cpu.sp + 8, pc, registers } }
  | syscall {cpu : CPUState} (hsp : cpu.sp = vm.cpu.sp) (hflags : cpu.flags = vm.cpu.flags)
      (hopcode : instruction.opcode = .SYSCALL) :
      Effect vm instruction { vm with
        cpu
        syscalls := (vm.syscalls.invoke instruction.imm.toUInt64 vm.context).2.1
        memory := (vm.syscalls.invoke instruction.imm.toUInt64 vm.context).2.2.memory }

variable {vm : VirtualMachine} {instruction : Instruction}

theorem Effect.rfl' : Effect vm instruction vm := .compute rfl (Or.inl rfl)

theorem push_cases (vm : VirtualMachine) (value pc : UInt64) :
    (∃ fault, vm.push value pc = (.error fault, vm)) ∨
      ∃ memory, ¬vm.cpu.sp < vm.stackLimit + 8 ∧
        vm.memory.writeU64 (vm.cpu.sp - 8) value = .ok memory ∧
        vm.push value pc =
          (.ok (), { vm with memory, cpu := { vm.cpu with sp := vm.cpu.sp - 8 } }) := by
  unfold push
  by_cases hroom : vm.cpu.sp < vm.stackLimit + 8
  · rw [if_pos hroom]
    exact Or.inl ⟨_, rfl⟩
  · rw [if_neg hroom]
    dsimp only
    cases hwrite : vm.memory.writeU64 (vm.cpu.sp - 8) value with
    | error fault => exact Or.inl ⟨_, rfl⟩
    | ok memory => exact Or.inr ⟨memory, hroom, rfl, rfl⟩

theorem pop_cases (vm : VirtualMachine) (pc : UInt64) :
    (∃ fault, vm.pop pc = (.error fault, vm)) ∨
      ∃ value, vm.cpu.sp < vm.stackTop ∧ vm.memory.readU64 vm.cpu.sp = .ok value ∧
        vm.pop pc = (.ok value, { vm with cpu := { vm.cpu with sp := vm.cpu.sp + 8 } }) := by
  unfold pop
  by_cases hroom : vm.cpu.sp ≥ vm.stackTop
  · rw [if_pos hroom]
    exact Or.inl ⟨_, rfl⟩
  · rw [if_neg hroom]
    cases hread : vm.memory.readU64 vm.cpu.sp with
    | error fault => exact Or.inl ⟨_, rfl⟩
    | ok value => exact Or.inr ⟨value, UInt64.not_le.mp hroom, rfl, rfl⟩

theorem effect_of_executeOther (pc : UInt64) :
    Effect vm instruction (vm.executeOther instruction pc).2 := by
  unfold executeOther
  dsimp only
  split_ifs
  · exact .compute rfl (Or.inl rfl)
  · exact .rfl'
  · split
    · exact .rfl'
    · exact .rfl'
    · next result _ =>
      refine .compute rfl ?_
      cases result.writesFlags with
      | true => exact Or.inr ⟨_, rfl⟩
      | false => exact Or.inl rfl
  · split
    · exact .rfl'
    · exact .rfl'
    · next result _ =>
      refine .compute rfl ?_
      cases result.writesFlags with
      | true => exact Or.inr ⟨_, rfl⟩
      | false => exact Or.inl rfl

theorem effect_of_executeSyscall (pc : UInt64) (h : instruction.opcode = .SYSCALL) :
    Effect vm instruction (vm.executeSyscall instruction pc).2 := by
  unfold executeSyscall
  dsimp only
  split
  · exact .syscall rfl rfl h
  · split_ifs
    · exact .syscall rfl rfl h
    · exact .syscall rfl rfl h

theorem effect_of_execute (vm : VirtualMachine) (instruction : Instruction) (pc : UInt64) :
    Effect vm instruction (vm.execute instruction pc).2 := by
  unfold execute
  dsimp only
  split_ifs
  · exact .rfl'
  · split
    · exact .rfl'
    · exact .compute rfl (Or.inl rfl)
    · next hopcode => exact effect_of_executeSyscall pc hopcode
    · exact .compute rfl (Or.inl rfl)
    · exact .compute rfl (Or.inl rfl)
    · exact .compute rfl (Or.inl rfl)
    · split
      · exact .rfl'
      · exact .compute rfl (Or.inl rfl)
    · split
      · exact .rfl'
      · next hwrite => exact .store hwrite
    · rcases push_cases vm (vm.cpu.registers instruction.dst.slot) pc with
        ⟨fault, h⟩ | ⟨memory, hroom, hwrite, h⟩
      · rw [h]
        exact .rfl'
      · rw [h]
        exact .push hroom hwrite
    · rcases pop_cases vm pc with ⟨fault, h⟩ | ⟨value, hroom, -, h⟩
      · rw [h]
        exact .rfl'
      · rw [h]
        exact .pop hroom
    · rcases push_cases vm vm.cpu.pc pc with ⟨fault, h⟩ | ⟨memory, hroom, hwrite, h⟩
      · rw [h]
        exact .rfl'
      · rw [h]
        exact .push hroom hwrite
    · rcases pop_cases vm pc with ⟨fault, h⟩ | ⟨value, hroom, -, h⟩
      · rw [h]
        exact .rfl'
      · rw [h]
        exact .pop hroom
    · exact effect_of_executeOther pc

/-- A step executes an instruction, or leaves the machine as it is. -/
theorem step_cases (vm : VirtualMachine) :
    vm.step.2 = vm ∨ ∃ instruction, vm.loaded = true ∧ vm.cpu.halted = false ∧
      vm.fetch = .ok instruction ∧ vm.step = vm.advance.execute instruction vm.cpu.pc := by
  unfold step
  by_cases hloaded : vm.loaded = true
  · by_cases hhalted : vm.cpu.halted = true
    · left
      simp [hloaded, hhalted]
    · cases hfetch : vm.fetch with
      | error fault =>
        left
        simp [hloaded, hhalted]
      | ok instruction =>
        right
        exact ⟨instruction, hloaded, by simpa using hhalted, rfl, by simp [hloaded, hhalted]⟩
  · left
    simp [hloaded]

/-- What is executed, on a machine that is loaded and runs. -/
theorem step_of_fetch {instruction : Instruction} (hloaded : vm.loaded = true)
    (hhalted : vm.cpu.halted = false) (hfetch : vm.fetch = .ok instruction) :
    vm.step = vm.advance.execute instruction vm.cpu.pc := by
  unfold step
  simp [hloaded, hhalted, hfetch]

theorem validRegisters_of_fetch {instruction : Instruction} (h : vm.fetch = .ok instruction) :
    isValidRegister instruction.dst = true ∧ isValidRegister instruction.src = true := by
  unfold fetch at h
  dsimp only at h
  split_ifs at h
  split at h
  · cases h
  · next word _ =>
    cases hdecode : decode word with
    | error e =>
      rw [hdecode] at h
      cases h
    | ok decoded =>
      rw [hdecode] at h
      cases h
      obtain ⟨info, -, hcanonical, -⟩ := decode_eq_ok_iff.mp hdecode
      simp [isValidRegister, hcanonical.dstValid, hcanonical.srcValid]

/-- What is known of an effect is known of a step. -/
theorem step_induction {motive : VirtualMachine → Prop} (vm : VirtualMachine)
    (hsame : motive vm)
    (heffect : ∀ instruction vm', vm.fetch = .ok instruction →
      Effect vm.advance instruction vm' → motive vm') : motive vm.step.2 := by
  rcases step_cases vm with h | ⟨instruction, -, -, hfetch, h⟩
  · rw [h]
    exact hsame
  · rw [h]
    exact heffect instruction _ hfetch (effect_of_execute _ _ _)

/-! ### Runs -/

/-- A step of the machine, or of its host. -/
inductive Advance : VirtualMachine → VirtualMachine → Prop
  | step (vm : VirtualMachine) : Advance vm vm.step.2
  | provide (vm : VirtualMachine) (syscalls : DefaultSyscallProvider) :
      Advance vm { vm with syscalls }

/-- Any number of steps. -/
abbrev Runs : VirtualMachine → VirtualMachine → Prop := Relation.ReflTransGen Advance

/-- The machine after a number of steps. -/
def steps (vm : VirtualMachine) : ℕ → VirtualMachine
  | 0 => vm
  | k + 1 => steps vm.step.2 k

theorem steps_succ (vm : VirtualMachine) (k : ℕ) : vm.steps (k + 1) = (vm.steps k).step.2 := by
  induction k generalizing vm with
  | zero => rfl
  | succ k ih => exact ih vm.step.2

theorem steps_add (vm : VirtualMachine) (m n : ℕ) : (vm.steps m).steps n = vm.steps (m + n) := by
  induction n with
  | zero => rfl
  | succ n ih => rw [steps_succ, ih, ← Nat.add_assoc, steps_succ]

theorem runs_steps (vm : VirtualMachine) (k : ℕ) : Runs vm (vm.steps k) := by
  induction k with
  | zero => exact Relation.ReflTransGen.refl
  | succ k ih =>
    rw [steps_succ]
    exact ih.tail (.step _)

/-- The next step faults, or halts the machine. -/
def Stops (vm : VirtualMachine) : Prop :=
  (∃ fault, vm.step.1 = .error fault) ∨ vm.step.2.cpu.halted = true

theorem stops_iff {vm : VirtualMachine} :
    vm.Stops ↔ vm.step.1.isOk = false ∨ vm.step.2.cpu.halted = true := by
  unfold Stops
  cases vm.step.1 with
  | error fault => simp [Except.isOk, Except.toBool]
  | ok _ => simp [Except.isOk, Except.toBool]

instance (vm : VirtualMachine) : Decidable vm.Stops := decidable_of_iff _ stops_iff.symm

/-- What `run` reports of the step that ends it. -/
def stopResult (vm : VirtualMachine) : RunResult :=
  let (outcome, vm) := vm.step
  match outcome with
  | .error fault =>
    { error := fault.error, message := fault.message, pc := fault.pc,
      instructions := vm.cpu.instructionCount }
  | .ok () =>
    { exitCode := vm.cpu.exitCode, instructions := vm.cpu.instructionCount, pc := vm.cpu.pc }

theorem runLoop_of_halted {vm : VirtualMachine} (h : vm.cpu.halted = true) (executed budget : ℕ) :
    runLoop vm executed budget =
      ({ exitCode := vm.cpu.exitCode, instructions := vm.cpu.instructionCount, pc := vm.cpu.pc },
        vm) := by
  cases budget with
  | zero =>
    unfold runLoop
    rw [if_pos h]
  | succ budget =>
    unfold runLoop
    rw [if_pos h]

/-- A run with enough budget ends with the first step that faults or halts. -/
theorem runLoop_of_stops {k : ℕ} : ∀ {start : VirtualMachine}, start.cpu.halted = false →
    (∀ j < k, ¬(start.steps j).Stops) → (start.steps k).Stops →
      ∀ {executed budget : ℕ}, k < budget →
        runLoop start executed budget = ((start.steps k).stopResult, start.steps (k + 1)) := by
  induction k with
  | zero =>
    intro start hhalted _ hstops executed budget hbudget
    obtain ⟨budget, rfl⟩ := Nat.exists_eq_succ_of_ne_zero (Nat.ne_of_gt hbudget)
    show runLoop start executed (budget + 1) = (start.stopResult, start.step.2)
    replace hstops : start.Stops := hstops
    unfold runLoop
    simp only [hhalted, Bool.false_eq_true, if_false]
    unfold Stops at hstops
    unfold stopResult
    cases hstep : start.step with
    | mk outcome vm =>
      rw [hstep] at hstops
      cases outcome with
      | error fault => rfl
      | ok _ =>
        have hvm : vm.cpu.halted = true := by
          rcases hstops with ⟨fault, h⟩ | h
          · cases h
          · exact h
        exact runLoop_of_halted hvm _ _
  | succ k ih =>
    intro start hhalted hbefore hstops executed budget hbudget
    obtain ⟨budget, rfl⟩ := Nat.exists_eq_succ_of_ne_zero (Nat.ne_of_gt (Nat.zero_lt_of_lt hbudget))
    have hfirst := hbefore 0 (Nat.succ_pos k)
    replace hfirst : ¬start.Stops := hfirst
    unfold Stops at hfirst
    unfold runLoop
    simp only [hhalted, Bool.false_eq_true, if_false]
    cases hstep : start.step with
    | mk outcome vm =>
      rw [hstep] at hfirst
      have hsteps : ∀ j, start.steps (j + 1) = vm.steps j := by
        intro j
        show steps start.step.2 j = _
        rw [hstep]
      cases outcome with
      | error fault => exact absurd (Or.inl ⟨fault, rfl⟩) hfirst
      | ok _ =>
        have hvm : vm.cpu.halted = false := by
          simpa using fun h => hfirst (Or.inr h)
        rw [hsteps, hsteps]
        rw [hsteps] at hstops
        refine ih hvm (fun j hj => ?_) hstops (Nat.lt_of_succ_lt_succ hbudget)
        rw [← hsteps]
        exact hbefore (j + 1) (Nat.succ_lt_succ hj)

/-! ### Loading -/

/-- A machine is loaded when the executable is valid and every region could be mapped. -/
theorem load_eq_ok {vm start : VirtualMachine} {executable : Executable}
    (h : vm.load executable = (.ok (), start)) :
    executable.validate = .ok () ∧ ∃ segments stack heap,
      mapSegments VirtualMemory.empty executable.segments = (.ok (), segments) ∧
      segments.addRegion (str "stack") (kStackTop - kStackSize) kStackSize readWrite [] =
        some stack ∧
      stack.addRegion (str "heap") kHeapBase kHeapSize readWrite [] = some heap ∧
      start = { vm with
        memory := heap
        stackTop := kStackTop
        stackLimit := kStackTop - kStackSize
        cpu := { pc := executable.entryPoint, sp := kStackTop }
        loaded := true } := by
  unfold load at h
  cases hvalid : executable.validate with
  | error e =>
    rw [hvalid] at h
    simp at h
  | ok _ =>
    rw [hvalid] at h
    dsimp only at h
    split at h
    · simp at h
    · next segments hsegments =>
      split at h
      · simp at h
      · next stack hstack =>
        split at h
        · simp at h
        · next heap hheap =>
          refine ⟨rfl, segments, stack, heap, hsegments, hstack, hheap, ?_⟩
          exact (Prod.mk.inj h).2.symm

/-- The region of a segment. -/
def regionOf (segment : Executable.Segment) : Region where
  name := segment.name
  base := segment.virtualAddress
  size := segment.virtualSize
  permissions := permissionsOf segment.flags
  data := Window.overwrite (fun _ => 0) 0
    (segment.data.take (min segment.data.length segment.virtualSize.toNat))

/-- The stack of a machine that was just loaded. -/
def stackRegion : Region := ⟨str "stack", kStackTop - kStackSize, kStackSize, readWrite, fun _ => 0⟩

def heapRegion : Region := ⟨str "heap", kHeapBase, kHeapSize, readWrite, fun _ => 0⟩

theorem regions_of_mapSegments {segments : List Executable.Segment} :
    ∀ {memory memory' : VirtualMemory}, mapSegments memory segments = (.ok (), memory') →
      memory'.regions = memory.regions ++ segments.map regionOf := by
  induction segments with
  | nil =>
    intro memory memory' h
    cases h
    simp
  | cons segment rest ih =>
    intro memory memory' h
    unfold mapSegments at h
    split at h
    · simp at h
    · next hadd =>
      rw [ih h, (VirtualMemory.addRegion_eq_some hadd).1, List.map_cons, List.append_assoc]
      rfl

/-- What `load` maps: the segments, then the stack, then the heap. -/
theorem regions_of_load {vm start : VirtualMachine} {executable : Executable}
    (h : vm.load executable = (.ok (), start)) :
    start.memory.regions = executable.segments.map regionOf ++ [stackRegion, heapRegion] := by
  obtain ⟨-, segments, stack, heap, hsegments, hstack, hheap, rfl⟩ := load_eq_ok h
  have hempty : Window.overwrite (fun _ => (0 : UInt8)) 0 [] = fun _ => 0 :=
    Window.overwrite_nil _ _
  show heap.regions = _
  rw [(VirtualMemory.addRegion_eq_some hheap).1, (VirtualMemory.addRegion_eq_some hstack).1,
    regions_of_mapSegments hsegments, List.take_nil, hempty]
  simp [VirtualMemory.empty, stackRegion, heapRegion]

theorem heapNext_of_load {vm start : VirtualMachine} {executable : Executable}
    (h : vm.load executable = (.ok (), start)) : start.memory.heapNext = kHeapBase := by
  obtain ⟨-, segments, stack, heap, -, -, hheap, rfl⟩ := load_eq_ok h
  show heap.heapNext = _
  rw [(VirtualMemory.addRegion_eq_some hheap).2, if_pos rfl]

/-- `NOP`, loaded. -/
def loadedNop : VirtualMachine := (load {} Executable.nopExecutable).2

theorem load_nop : load {} Executable.nopExecutable = (.ok (), loadedNop) := by rfl

/-- `MOVI R1, 7`, `PUSH R1`, `POP R2` and `POP R3`: the second POP finds the stack empty. -/
def underflow : Executable where
  segments := [
    { type := .text, flags := Executable.SegmentFlags.read ||| Executable.SegmentFlags.exec,
      name := str ".text", virtualAddress := 0x10000, virtualSize := 32,
      data := [7, 0, 0, 0, 0, 0, 16, 17, 0, 0, 0, 0, 0, 0, 16, 21, 0, 0, 0, 0, 0, 0, 32, 22,
        0, 0, 0, 0, 0, 0, 48, 22] }]
  entryPoint := 0x10000

def loadedUnderflow : VirtualMachine := (load {} underflow).2

theorem load_underflow : load {} underflow = (.ok (), loadedUnderflow) := by rfl

/-! ### What a step does to the memory -/

theorem change_of_effect {vm vm' : VirtualMachine} {instruction : Instruction}
    (h : Effect vm instruction vm') : vm.memory.Change vm'.memory := by
  cases h with
  | compute hsp hflags => exact .nothing
  | store hwrite => exact VirtualMemory.change_of_writeU64 hwrite
  | push hroom hwrite => exact VirtualMemory.change_of_writeU64 hwrite
  | pop hroom => exact .nothing
  | syscall hsp hflags hopcode => exact DefaultSyscallProvider.change_of_invoke _ _ vm.context

theorem change_of_step (vm : VirtualMachine) : vm.memory.Change vm.step.2.memory :=
  step_induction vm .nothing fun _ _ _ heffect => change_of_effect heffect

/-- Whatever every change of the memory keeps, a run keeps. -/
theorem memory_induction {motive : VirtualMemory → Prop}
    (hchange : ∀ m m', motive m → m.Change m' → motive m') {start reached : VirtualMachine}
    (hstart : motive start.memory) (hruns : Runs start reached) : motive reached.memory := by
  induction hruns with
  | refl => exact hstart
  | tail _ hadvance ih =>
    cases hadvance with
    | step => exact hchange _ _ ih (change_of_step _)
    | provide => exact ih

theorem shapes_of_runs {start reached : VirtualMachine} (hruns : Runs start reached) :
    reached.memory.shapes = start.memory.shapes :=
  memory_induction (motive := fun m => m.shapes = start.memory.shapes)
    (fun _ _ ih hchange => hchange.shapes_eq.trans ih) rfl hruns

/-! ### Compare and branch -/

/-- A compare changes FLAGS only. -/
theorem execute_compare {dst src : Reg} (pc : UInt64) (hdst : isValidRegister dst = true)
    (hsrc : isValidRegister src = true) : vm.execute { opcode := .CMP, dst, src } pc =
      (.ok (), { vm with cpu := { vm.cpu with
        flags := computeFlags (vm.cpu.registers dst.slot - vm.cpu.registers src.slot)
          (vm.cpu.registers dst.slot) (vm.cpu.registers src.slot) true &&& kFlagsMask } }) := by
  unfold execute
  rw [hdst, hsrc]
  rfl

/-- A conditional jump after a compare tests a signed comparison of what was compared. -/
theorem branchTaken_after_compare (a b : UInt64) :
    ∃ flags, (∃ r, evaluateBinary .CMP a b = .ok r ∧ flags = r.flags &&& kFlagsMask) ∧
      (∀ (vm : VirtualMachine) (dst src : Reg) (pc : UInt64), isValidRegister dst = true →
        isValidRegister src = true → vm.cpu.registers dst.slot = a → vm.cpu.registers src.slot = b →
        vm.execute { opcode := .CMP, dst, src } pc =
          (.ok (), { vm with cpu := { vm.cpu with flags } })) ∧
      (branchTaken .JE flags = true ↔ a = b) ∧
      (branchTaken .JNE flags = true ↔ a ≠ b) ∧
      (branchTaken .JL flags = true ↔ signed a < signed b) ∧
      (branchTaken .JLE flags = true ↔ signed a ≤ signed b) ∧
      (branchTaken .JG flags = true ↔ signed b < signed a) ∧
      (branchTaken .JGE flags = true ↔ signed b ≤ signed a) := by
  have hreflects := reflects_sub a b
  have hjump : ∀ opcode, readsFlags opcode = true →
      (branchTaken opcode (computeFlags (a - b) a b true &&& kFlagsMask) = true ↔
        Compares opcode a b) := by
    intro opcode hopcode
    rw [hreflects.masked]
    exact branchTaken_of_compare hreflects hopcode
  refine ⟨_, ⟨_, rfl, rfl⟩, ?_, hjump .JE rfl, hjump .JNE rfl, hjump .JL rfl, hjump .JLE rfl,
    hjump .JG rfl, hjump .JGE rfl⟩
  rintro vm dst src pc hdst hsrc rfl rfl
  exact execute_compare pc hdst hsrc

end VirtualMachine

end Vm
end MiniTool
