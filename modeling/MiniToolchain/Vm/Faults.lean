import MiniToolchain.Vm.ReadWrite
import MiniToolchain.Vm.Step

/-!
# What a fault leaves behind

An instruction checks before it changes anything, so that a step that faults leaves the machine as
it was, but for PC and the instruction count.  One path does not: `read` takes its input before it
knows that it can store it.

## Main definitions

* `Untouched` — nothing but PC and the instruction count has changed.
* `LosesInput` — the next instruction is a `read` that takes input it cannot store.

## Main results

* `eq_of_execute_error` — every instruction but SYSCALL leaves the machine alone when it faults.
* `untouched_of_step`, `step_of_losesInput` — a step that faults leaves the machine alone unless it
  loses input.
-/

namespace MiniTool
namespace Vm

open Checked Isa

/-! ### System calls -/

namespace DefaultSyscallProvider

/-- A `read` with valid arguments takes at least one byte of input and cannot store what it
takes. -/
def LosesInput (provider : DefaultSyscallProvider) (context : SyscallContext) : Prop :=
  context.registers kArg1 = 0 ∧ context.registers kArg3 ≤ kMaxTransfer ∧
    0 < min (context.registers kArg3).toNat provider.input.length ∧
      ¬context.memory.Grants (context.registers kArg2)
        (min (context.registers kArg3).toNat provider.input.length) Permission.write

variable {provider : DefaultSyscallProvider} {context : SyscallContext} {e : String}

theorem eq_of_doWrite_error (h : (provider.doWrite context).1 = .error e) :
    (provider.doWrite context).2 = (provider, context) := by
  unfold doWrite at h ⊢
  dsimp only at h ⊢
  split_ifs at h ⊢
  · rfl
  · rfl
  · split at h
    · rfl
    · cases h

/-- A captured `read` with valid arguments, on the bytes that it takes. -/
theorem doRead_of_capture (hcapture : provider.capture = true) (hfd : context.registers kArg1 = 0)
    (hlength : context.registers kArg3 ≤ kMaxTransfer) :
    provider.doRead context =
      match context.memory.writeBytes (context.registers kArg2)
          (provider.input.take (context.registers kArg3).toNat) with
      | .error fault =>
        let reason := fault.describe
        (.error s!"read: {reason}",
          { provider with input := provider.input.drop (context.registers kArg3).toNat }, context)
      | .ok memory =>
        (.ok (), { provider with input := provider.input.drop (context.registers kArg3).toNat },
          { context with
            registers := context.registers.set kReturnValue
              (UInt64.ofNat (provider.input.take (context.registers kArg3).toNat).length)
            memory }) := by
  have htake : provider.take (context.registers kArg3).toNat =
      (provider.input.take (context.registers kArg3).toNat,
        { provider with input := provider.input.drop (context.registers kArg3).toNat }) :=
    if_pos hcapture
  have hshort : ¬context.registers kArg3 > kMaxTransfer := UInt64.not_lt.mpr hlength
  unfold doRead
  dsimp only
  rw [if_neg (not_not.mpr hfd), if_neg hshort]
  generalize provider.take (context.registers kArg3).toNat = taken at htake
  subst htake
  rfl

/-- A captured `read` that fails has lost input, or has touched nothing. -/
theorem doRead_error (hcapture : provider.capture = true)
    (h : (provider.doRead context).1 = .error e) :
    (provider.doRead context).2.2 = context ∧
      ((provider.doRead context).2.1 = provider ∨ provider.LosesInput context) := by
  by_cases hfd : context.registers kArg1 = 0
  · by_cases hlength : context.registers kArg3 ≤ kMaxTransfer
    · rw [doRead_of_capture hcapture hfd hlength] at h ⊢
      cases hwrite : context.memory.writeBytes (context.registers kArg2)
          (provider.input.take (context.registers kArg3).toNat) with
      | ok memory =>
        rw [hwrite] at h
        cases h
      | error fault =>
        refine ⟨rfl, Or.inr ⟨hfd, hlength, ?_⟩⟩
        have hne : provider.input.take (context.registers kArg3).toNat ≠ [] := by
          intro hempty
          rw [hempty] at hwrite
          cases hwrite
        have hsmall := (context.registers kArg3).toNat_lt
        have hgrants :=
          @VirtualMemory.isOk_writeBytes context.memory (context.registers kArg2) _ hne
            (by rw [List.length_take]; omega)
        rw [List.length_take] at hgrants
        refine ⟨?_, fun h => ?_⟩
        · rw [← List.length_take]
          exact List.length_pos_iff.mpr hne
        · obtain ⟨m', hm'⟩ := hgrants.mpr h
          rw [hwrite] at hm'
          cases hm'
    · have hlong : context.registers kArg3 > kMaxTransfer := UInt64.not_le.mp hlength
      unfold doRead
      dsimp only
      rw [if_neg (not_not.mpr hfd), if_pos hlong]
      exact ⟨rfl, Or.inl rfl⟩
  · unfold doRead
    dsimp only
    rw [if_pos hfd]
    exact ⟨rfl, Or.inl rfl⟩

/-- A `read` that loses input fails. -/
theorem doRead_of_losesInput (hcapture : provider.capture = true)
    (h : provider.LosesInput context) :
    (∃ e, (provider.doRead context).1 = .error e) ∧ (provider.doRead context).2.1 ≠ provider := by
  obtain ⟨hfd, hlength, hpos, hgrants⟩ := h
  have hsmall := (context.registers kArg3).toNat_lt
  have htake : (provider.input.take (context.registers kArg3).toNat).length =
      min (context.registers kArg3).toNat provider.input.length := List.length_take
  rw [doRead_of_capture hcapture hfd hlength]
  cases hwrite : context.memory.writeBytes (context.registers kArg2)
      (provider.input.take (context.registers kArg3).toNat) with
  | ok memory =>
    have hok := (VirtualMemory.isOk_writeBytes (List.length_pos_iff.mp (by omega)) (by omega)).mp
      ⟨memory, hwrite⟩
    rw [htake] at hok
    exact absurd hok hgrants
  | error fault =>
    refine ⟨⟨_, rfl⟩, fun hsame => ?_⟩
    have hinput := congrArg (fun provider => provider.input.length) hsame
    dsimp only at hinput
    rw [List.length_drop] at hinput
    omega

theorem ofValue_eq_read {number : UInt64} :
    SyscallNumber.ofValue number = some .read ↔ number = SyscallNumber.read.value := by
  constructor
  · exact SyscallNumber.eq_value_of_ofValue
  · rintro rfl
    rfl

/-- A captured call that fails has touched nothing, or is a `read` that loses input. -/
theorem invoke_error (hcapture : provider.capture = true) {number : UInt64}
    (h : (provider.invoke number context).1 = .error e) :
    (provider.invoke number context).2.2 = context ∧
      ((provider.invoke number context).2.1 = provider ∨
        number = SyscallNumber.read.value ∧ provider.LosesInput context) := by
  unfold invoke at h ⊢
  cases hnumber : SyscallNumber.ofValue number with
  | none => exact ⟨rfl, Or.inl rfl⟩
  | some call =>
    rw [hnumber] at h
    cases call with
    | exit => cases h
    | write =>
      have hsame := eq_of_doWrite_error h
      exact ⟨congrArg Prod.snd hsame, Or.inl (congrArg Prod.fst hsame)⟩
    | read =>
      obtain ⟨hcontext, hprovider⟩ := doRead_error hcapture h
      exact ⟨hcontext, hprovider.imp id fun hloses => ⟨ofValue_eq_read.mp hnumber, hloses⟩⟩
    | allocate =>
      -- a failed allocation is not an error
      exfalso
      replace h : (provider.doAllocate context).1 = .error e := h
      unfold doAllocate at h
      dsimp only at h
      split at h <;> cases h

end DefaultSyscallProvider

namespace VirtualMachine

variable {vm : VirtualMachine} {instruction : Instruction} {fault : VMFault} {pc : UInt64}

/-! ### Instructions -/

theorem eq_of_push_error {value : UInt64} (h : (vm.push value pc).1 = .error fault) :
    (vm.push value pc).2 = vm := by
  rcases push_cases vm value pc with ⟨_, hpush⟩ | ⟨_, -, -, hpush⟩
  · rw [hpush]
  · rw [hpush] at h
    cases h

theorem eq_of_executeOther_error (h : (vm.executeOther instruction pc).1 = .error fault) :
    (vm.executeOther instruction pc).2 = vm := by
  unfold executeOther at h ⊢
  dsimp only at h ⊢
  -- a branch never faults, and an operation is evaluated before anything is written
  split_ifs at h ⊢ <;> split at h <;> first | rfl | cases h

/-- Every instruction but SYSCALL leaves the machine alone when it faults. -/
theorem eq_of_execute_error (hopcode : instruction.opcode ≠ .SYSCALL)
    (h : (vm.execute instruction pc).1 = .error fault) : (vm.execute instruction pc).2 = vm := by
  unfold execute at h ⊢
  dsimp only at h ⊢
  split_ifs at h ⊢
  · rfl
  · split at h
    · cases h
    · cases h
    · next hsyscall => exact absurd hsyscall hopcode
    · cases h
    · cases h
    · cases h
    · split at h
      · rfl
      · cases h
    · split at h
      · rfl
      · cases h
    · exact eq_of_push_error h
    · rcases pop_cases vm pc with ⟨_, hpop⟩ | ⟨_, -, -, hpop⟩
      · rw [hpop]
      · rw [hpop] at h
        cases h
    · rcases push_cases vm vm.cpu.pc pc with ⟨_, hpush⟩ | ⟨_, -, -, hpush⟩
      · rw [hpush]
      · rw [hpush] at h
        cases h
    · rcases pop_cases vm pc with ⟨_, hpop⟩ | ⟨_, -, -, hpop⟩
      · rw [hpop]
      · rw [hpop] at h
        cases h
    · exact eq_of_executeOther_error h

/-- A SYSCALL faults when its call fails. -/
theorem isError_executeSyscall : (∃ fault, (vm.executeSyscall instruction pc).1 = .error fault) ↔
    ∃ e, (vm.syscalls.invoke instruction.imm.toUInt64 vm.context).1 = .error e := by
  unfold executeSyscall
  generalize vm.syscalls.invoke instruction.imm.toUInt64 vm.context = outcome
  obtain ⟨result, syscalls, context⟩ := outcome
  cases result with
  | error e => exact ⟨fun _ => ⟨e, rfl⟩, fun _ => ⟨_, rfl⟩⟩
  | ok u =>
    dsimp only
    split_ifs
    · exact ⟨nofun, nofun⟩
    · exact ⟨nofun, nofun⟩

/-- A SYSCALL whose call fails and touches nothing touches nothing. -/
theorem eq_of_invoke_error {e : String}
    (h : vm.syscalls.invoke instruction.imm.toUInt64 vm.context =
      (.error e, vm.syscalls, vm.context)) :
    (vm.executeSyscall instruction pc).2 = vm := by
  unfold executeSyscall
  rw [h]
  rfl

/-- Nothing but PC and the instruction count has changed. -/
structure Untouched (vm vm' : VirtualMachine) : Prop where
  registers : vm'.cpu.registers = vm.cpu.registers
  sp : vm'.cpu.sp = vm.cpu.sp
  flags : vm'.cpu.flags = vm.cpu.flags
  halted : vm'.cpu.halted = vm.cpu.halted
  exitCode : vm'.cpu.exitCode = vm.cpu.exitCode
  /-- All regions with all of their bytes, and the heap pointer. -/
  memory : vm'.memory = vm.memory
  /-- The pending input and the captured output. -/
  syscalls : vm'.syscalls = vm.syscalls

theorem Untouched.refl (vm : VirtualMachine) : Untouched vm vm :=
  ⟨rfl, rfl, rfl, rfl, rfl, rfl, rfl⟩

theorem Untouched.advance (vm : VirtualMachine) : Untouched vm vm.advance :=
  ⟨rfl, rfl, rfl, rfl, rfl, rfl, rfl⟩

/-- The next instruction is a `read` that takes input it cannot store. -/
def LosesInput (vm : VirtualMachine) : Prop :=
  vm.loaded = true ∧ vm.cpu.halted = false ∧ ∃ instruction, vm.fetch = .ok instruction ∧
    instruction.opcode = .SYSCALL ∧ instruction.imm.toUInt64 = SyscallNumber.read.value ∧
      vm.syscalls.LosesInput vm.context

theorem execute_of_syscall (hfetch : vm.fetch = .ok instruction)
    (hopcode : instruction.opcode = .SYSCALL) (machine : VirtualMachine) :
    machine.execute instruction pc = machine.executeSyscall instruction pc := by
  obtain ⟨hdst, hsrc⟩ := validRegisters_of_fetch hfetch
  unfold execute
  rw [hdst, hsrc, hopcode]
  rfl

/-- A step that loses input faults, and the input is gone. -/
theorem step_of_losesInput (hcapture : vm.syscalls.capture = true) (h : vm.LosesInput) :
    (∃ fault, vm.step.1 = .error fault) ∧ ¬Untouched vm vm.step.2 := by
  obtain ⟨hloaded, hhalted, instruction, hfetch, hopcode, hnumber, hloses⟩ := h
  have hread := DefaultSyscallProvider.doRead_of_losesInput hcapture hloses
  have hinvoke : vm.advance.syscalls.invoke instruction.imm.toUInt64 vm.advance.context =
      vm.syscalls.doRead vm.context := by
    rw [hnumber]
    rfl
  rw [step_of_fetch hloaded hhalted hfetch, execute_of_syscall hfetch hopcode,
    isError_executeSyscall, hinvoke]
  refine ⟨hread.1, fun huntouched => hread.2 ?_⟩
  have hsyscalls := huntouched.syscalls
  have hafter : (vm.advance.executeSyscall instruction vm.cpu.pc).2.syscalls =
      (vm.syscalls.doRead vm.context).2.1 := by
    rw [← hinvoke]
    unfold executeSyscall
    dsimp only
    split
    · rfl
    · split_ifs <;> rfl
  rw [← hafter]
  exact hsyscalls

/-- A step that faults and loses no input leaves everything but PC and the instruction count. -/
theorem untouched_of_step (hcapture : vm.syscalls.capture = true) (hkeeps : ¬vm.LosesInput)
    (h : vm.step.1 = .error fault) : Untouched vm vm.step.2 := by
  rcases step_cases vm with hsame | ⟨instruction, hloaded, hhalted, hfetch, hstep⟩
  · rw [hsame]
    exact .refl vm
  rw [hstep] at h ⊢
  by_cases hopcode : instruction.opcode = .SYSCALL
  · rw [execute_of_syscall hfetch hopcode] at h ⊢
    obtain ⟨e, he⟩ := isError_executeSyscall.mp ⟨fault, h⟩
    obtain ⟨hcontext, hprovider | ⟨hnumber, hloses⟩⟩ :=
      DefaultSyscallProvider.invoke_error hcapture he
    · rw [eq_of_invoke_error (Prod.ext he (Prod.ext hprovider hcontext))]
      exact .advance vm
    · exact absurd ⟨hloaded, hhalted, instruction, hfetch, hopcode, hnumber, hloses⟩ hkeeps
  · rw [eq_of_execute_error hopcode h]
    exact .advance vm

/-- `MOVI R3, 1` and `SYSCALL 2`: a `read` of one byte to address 0, where nothing is mapped. -/
def readToNull : Executable where
  segments := [
    { type := .text, flags := Executable.SegmentFlags.read ||| Executable.SegmentFlags.exec,
      name := str ".text", virtualAddress := 0x10000, virtualSize := 16,
      data := [1, 0, 0, 0, 0, 0, 48, 17, 2, 0, 0, 0, 0, 0, 0, 2] }]
  entryPoint := 0x10000

/-- The program, loaded and given one byte of input. -/
def readToNullStart : VirtualMachine := (load {} readToNull).2

def readToNullGiven : VirtualMachine :=
  { readToNullStart with syscalls := { capture := true, input := str "x" } }

theorem load_readToNull : load {} readToNull = (.ok (), readToNullStart) := by rfl

/-- A run reaches a `read` that faults and takes the input all the same. -/
theorem fault_takes_input : load {} readToNull = (.ok (), readToNullStart) ∧
    Runs readToNullStart readToNullGiven.step.2 ∧
    readToNullGiven.step.2.syscalls.capture = true ∧
    readToNullGiven.step.2.syscalls.input = str "x" ∧
    (∃ fault, readToNullGiven.step.2.step.1 = .error fault) ∧
    readToNullGiven.step.2.step.2.syscalls.input = [] := by
  refine ⟨load_readToNull, ?_, by rfl, by rfl, ⟨_, rfl⟩, by rfl⟩
  exact (Relation.ReflTransGen.single (.provide readToNullStart _)).tail (.step readToNullGiven)

/-- In every state of every run with a capturing provider, the next step leaves everything but PC
and the instruction count alone when it faults, unless it is a `read` that takes input it cannot
store. -/
theorem fault_atomic_iff (start : VirtualMachine) :
    ∀ reached, Runs start reached → reached.syscalls.capture = true →
      ((∀ fault, reached.step.1 = .error fault → Untouched reached reached.step.2) ↔
        ¬reached.LosesInput) := by
  -- reachability adds nothing: the check before the change is made in every state
  intro reached _ hcapture
  constructor
  · intro hatomic hloses
    obtain ⟨⟨fault, hfault⟩, htouched⟩ := step_of_losesInput hcapture hloses
    exact htouched (hatomic fault hfault)
  · intro hkeeps fault hfault
    exact untouched_of_step hcapture hkeeps hfault

/-- The second POP of `underflow`, where input is waiting. -/
def atUnderflow : VirtualMachine :=
  { loadedUnderflow.steps 3 with syscalls := { capture := true, input := str "x" } }

/-- The POP faults and leaves everything alone, the `read` to address 0 faults and does not. -/
theorem fault_atomic_iff_underflow :
    (∃ fault, atUnderflow.step.1 = .error fault) ∧ Untouched atUnderflow atUnderflow.step.2 ∧
      ¬∀ fault, readToNullGiven.step.2.step.1 = .error fault →
        Untouched readToNullGiven.step.2 readToNullGiven.step.2.step.2 := by
  have hpop := fault_atomic_iff loadedUnderflow atUnderflow
    ((runs_steps loadedUnderflow 3).tail (.provide _ _)) rfl
  have hread := fault_atomic_iff readToNullStart readToNullGiven.step.2
    ((Relation.ReflTransGen.single (.provide readToNullStart _)).tail (.step _)) rfl
  obtain ⟨fault, hfault⟩ : ∃ fault, atUnderflow.step.1 = .error fault := ⟨_, rfl⟩
  have hkeeps : ¬atUnderflow.LosesInput := by
    rintro ⟨-, -, instruction, hfetch, hopcode, -⟩
    have hpopped : atUnderflow.fetch = .ok { opcode := .POP, dst := .ofNat 3 } := by rfl
    rw [hpopped] at hfetch
    cases hfetch
    cases hopcode
  refine ⟨⟨fault, hfault⟩, hpop.mpr hkeeps fault hfault, fun hatomic => ?_⟩
  refine hread.mp hatomic ⟨rfl, rfl, { opcode := .SYSCALL, imm := 2 }, by rfl, rfl, rfl, ?_⟩
  exact ⟨rfl, by decide, by decide, by decide⟩

end VirtualMachine

end Vm
end MiniTool
