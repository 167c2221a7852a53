import MiniToolchain.Vm.Faults
import MiniToolchain.Vm.ReadWrite

/-!
# The output of a playground run

The playground runs a program with a provider that keeps only the beginning of what is written to fd
1.  What is written to fd 2 it keeps in full.

## Main definitions

* `CappedSyscallProvider`, `CappedMachine` — the provider, and a machine with it.
* `written` — what a program writes to a file descriptor.
* `Captures` — what the provider should hold after a number of steps.

## Main results

* `shadows_steps` — the machine behaves as with the provider that has no cap.
* `captures_iff` — the memory of the provider is bounded as long as fd 2 is.
-/

namespace MiniTool
namespace Playground

open Vm Isa

/-! ### The source -/

/-- Most program output kept. -/
abbrev kMaxOutputBytes : ℕ := 262144

/-- Captures output like the default provider but stops accumulating at `kMaxOutputBytes`. -/
structure CappedSyscallProvider where
  inner : DefaultSyscallProvider := {}
  truncated : Bool := false

namespace CappedSyscallProvider

def invoke (provider : CappedSyscallProvider) (number : UInt64) (context : SyscallContext) :
    Except String Unit × CappedSyscallProvider × SyscallContext :=
  let (result, inner, context) := provider.inner.invoke number context
  if inner.output.length > kMaxOutputBytes then
    (result,
      { inner := { inner with output := inner.output.take kMaxOutputBytes }, truncated := true },
      context)
  else (result, { provider with inner }, context)

def setInput (provider : CappedSyscallProvider) (input : Str) : CappedSyscallProvider :=
  { provider with inner := { provider.inner with capture := true, input } }

def output (provider : CappedSyscallProvider) : Str := provider.inner.output

end CappedSyscallProvider

/-- A machine whose system calls go to the capped provider.  The provider of `machine` is not
used. -/
structure CappedMachine where
  machine : VirtualMachine
  syscalls : CappedSyscallProvider

namespace CappedMachine

def executeSyscall (m : CappedMachine) (instruction : Instruction) (pc : UInt64) :
    Except VMFault Unit × CappedMachine :=
  let (result, syscalls, context) :=
    m.syscalls.invoke instruction.imm.toUInt64 m.machine.context
  let machine := { m.machine with
    memory := context.memory, cpu := { m.machine.cpu with registers := context.registers } }
  match result with
  | .error message => (.error { error := .syscallError, message, pc }, { machine, syscalls })
  | .ok () =>
    if context.halt then
      (.ok (), { machine := { machine with
        cpu := { machine.cpu with halted := true, exitCode := context.exitCode } }, syscalls })
    else (.ok (), { machine, syscalls })

/-- Only SYSCALL reaches the provider. -/
def execute (m : CappedMachine) (instruction : Instruction) (pc : UInt64) :
    Except VMFault Unit × CappedMachine :=
  if isValidRegister instruction.dst && isValidRegister instruction.src &&
      instruction.opcode = .SYSCALL then
    m.executeSyscall instruction pc
  else
    let (outcome, machine) := m.machine.execute instruction pc
    (outcome, { m with machine })

def step (m : CappedMachine) : Except VMFault Unit × CappedMachine :=
  if !m.machine.loaded then
    (.error { error := .notLoaded, message := "no program is loaded", pc := m.machine.cpu.pc }, m)
  else if m.machine.cpu.halted then (.ok (), m)
  else
    match m.machine.fetch with
    | .error fault => (.error fault, m)
    | .ok instruction =>
      execute { m with machine := m.machine.advance } instruction m.machine.cpu.pc

/-- The machine after a number of steps. -/
def steps (m : CappedMachine) : ℕ → CappedMachine
  | 0 => m
  | k + 1 => (m.steps k).step.2

end CappedMachine

/-- What `runSource` runs: a loaded machine and a provider with the input of the request. -/
def cappedStart (machine : VirtualMachine) (input : Str) : CappedMachine :=
  { machine, syscalls := CappedSyscallProvider.setInput {} input }

/-- Replaces the provider of a machine. -/
def setSyscallProvider (machine : VirtualMachine) (syscalls : DefaultSyscallProvider) :
    VirtualMachine :=
  { machine with syscalls }

/-- The same machine with the provider that has no cap. -/
def uncappedStart (machine : VirtualMachine) (input : Str) : VirtualMachine :=
  setSyscallProvider machine { capture := true, input }

/-! ### What is written -/

/-- What a call writes to a file descriptor. -/
def writtenBy (fd number : UInt64) (context : SyscallContext) : Str :=
  if number = SyscallNumber.write.value ∧ context.registers kArg1 = fd ∧
      context.registers kArg3 ≤ kMaxTransfer then
    match context.memory.readBytes (context.registers kArg2) (context.registers kArg3).toNat with
    | .ok bytes => bytes
    | .error _ => []
  else []

/-- What the next instruction writes to a file descriptor. -/
def writtenAt (fd : UInt64) (machine : VirtualMachine) : Str :=
  if machine.loaded = true ∧ machine.cpu.halted = false then
    match machine.fetch with
    | .ok instruction =>
      if instruction.opcode = .SYSCALL then writtenBy fd instruction.imm.toUInt64 machine.context
      else []
    | .error _ => []
  else []

/-- All that the first `k` instructions write to a file descriptor. -/
def written (fd : UInt64) (machine : VirtualMachine) (input : Str) (k : ℕ) : Str :=
  (List.range k).flatMap fun j => writtenAt fd ((cappedStart machine input).steps j).machine

/-- After `k` instructions at most `kMaxOutputBytes` are retained of each stream, the output is the
beginning of what was written to fd 1, it is marked when some of that is missing, and the program
has seen nothing of it. -/
structure Captures (machine : VirtualMachine) (input : Str) (k : ℕ) : Prop where
  outputBounded :
    ((cappedStart machine input).steps k).syscalls.output.length ≤ kMaxOutputBytes
  errorOutputBounded :
    ((cappedStart machine input).steps k).syscalls.inner.errorOutput.length ≤ kMaxOutputBytes
  exact : ((cappedStart machine input).steps k).syscalls.output =
    (written 1 machine input k).take (min kMaxOutputBytes (written 1 machine input k).length)
  truncated : ((cappedStart machine input).steps k).syscalls.truncated = true ↔
    kMaxOutputBytes < (written 1 machine input k).length
  cpu : ((cappedStart machine input).steps k).machine.cpu =
    ((uncappedStart machine input).steps k).cpu
  memory : ((cappedStart machine input).steps k).machine.memory =
    ((uncappedStart machine input).steps k).memory

/-! ### One call -/

theorem writtenBy_of_ne {number : UInt64} (h : number ≠ SyscallNumber.write.value) (fd : UInt64)
    (context : SyscallContext) : writtenBy fd number context = [] := by
  unfold writtenBy
  rw [if_neg fun hwrite => h hwrite.1]

/-- A write that appends to one of the two buffers. -/
theorem doWrite_with_output {provider : DefaultSyscallProvider} (hcapture : provider.capture = true)
    (context : SyscallContext) (output : Str) :
    DefaultSyscallProvider.doWrite { provider with output } context =
      ((provider.doWrite context).1,
        { (provider.doWrite context).2.1 with
          output := output ++ writtenBy 1 SyscallNumber.write.value context
          errorOutput := provider.errorOutput ++ writtenBy 2 SyscallNumber.write.value context },
        (provider.doWrite context).2.2) := by
  obtain ⟨capture, before, errorOutput, input, stdout, stderr, stdin⟩ := provider
  obtain rfl : capture = true := hcapture
  unfold DefaultSyscallProvider.doWrite writtenBy
  dsimp only
  by_cases hfd : context.registers kArg1 ≠ 1 ∧ context.registers kArg1 ≠ 2
  · rw [if_pos hfd, if_pos hfd, if_neg fun h => hfd.1 h.2.1, if_neg fun h => hfd.2 h.2.1,
      List.append_nil, List.append_nil]
  · rw [if_neg hfd, if_neg hfd]
    by_cases hlength : context.registers kArg3 > kMaxTransfer
    · rw [if_pos hlength, if_pos hlength, if_neg fun h => UInt64.not_le.mpr hlength h.2.2,
        if_neg fun h => UInt64.not_le.mpr hlength h.2.2, List.append_nil, List.append_nil]
    · rw [if_neg hlength, if_neg hlength]
      have hfits : context.registers kArg3 ≤ kMaxTransfer := UInt64.not_lt.mp hlength
      cases context.memory.readBytes (context.registers kArg2) (context.registers kArg3).toNat with
      | error fault => simp
      | ok bytes =>
        dsimp only
        -- the file descriptor is one of the two
        by_cases hone : context.registers kArg1 = 1
        · have htwo : context.registers kArg1 ≠ 2 := by
            rw [hone]
            decide
          rw [if_pos ⟨rfl, hone, hfits⟩, if_neg fun h => htwo h.2.1, List.append_nil]
          unfold DefaultSyscallProvider.emit
          simp [hone]
        · have htwo : context.registers kArg1 = 2 := by
            by_contra hother
            exact hfd ⟨hone, hother⟩
          rw [if_neg fun h => hone h.2.1, if_pos ⟨rfl, htwo, hfits⟩, List.append_nil]
          unfold DefaultSyscallProvider.emit
          simp [htwo]

/-- A read that takes from the third. -/
theorem doRead_with_output {provider : DefaultSyscallProvider} (hcapture : provider.capture = true)
    (context : SyscallContext) (output : Str) :
    DefaultSyscallProvider.doRead { provider with output } context =
      ((provider.doRead context).1,
        { (provider.doRead context).2.1 with output, errorOutput := provider.errorOutput },
        (provider.doRead context).2.2) := by
  obtain ⟨capture, before, errorOutput, input, stdout, stderr, stdin⟩ := provider
  obtain rfl : capture = true := hcapture
  unfold DefaultSyscallProvider.doRead DefaultSyscallProvider.take
  dsimp only
  rw [if_pos rfl, if_pos rfl]
  split_ifs
  · rfl
  · rfl
  · dsimp only
    cases context.memory.writeBytes (context.registers kArg2)
      (input.take (context.registers kArg3).toNat) with
    | error fault => rfl
    | ok memory => rfl

/-- A capturing provider appends what a call writes, and what it holds already has no influence. -/
theorem invoke_with_output {provider : DefaultSyscallProvider} (hcapture : provider.capture = true)
    (number : UInt64) (context : SyscallContext) (output : Str) :
    DefaultSyscallProvider.invoke { provider with output } number context =
      ((provider.invoke number context).1,
        { (provider.invoke number context).2.1 with
          output := output ++ writtenBy 1 number context
          errorOutput := provider.errorOutput ++ writtenBy 2 number context },
        (provider.invoke number context).2.2) := by
  by_cases hwrite : number = SyscallNumber.write.value
  · subst hwrite
    exact doWrite_with_output hcapture context output
  · rw [writtenBy_of_ne hwrite, writtenBy_of_ne hwrite, List.append_nil, List.append_nil]
    unfold DefaultSyscallProvider.invoke
    cases hnumber : SyscallNumber.ofValue number with
    | none => rfl
    | some call =>
      cases call with
      | exit => rfl
      | write => exact absurd (SyscallNumber.eq_value_of_ofValue hnumber) hwrite
      | read => exact doRead_with_output hcapture context output
      | allocate =>
        dsimp only
        unfold DefaultSyscallProvider.doAllocate
        dsimp only
        split <;> rfl

theorem capture_of_invoke {provider : DefaultSyscallProvider} (hcapture : provider.capture = true)
    (number : UInt64) (context : SyscallContext) :
    (provider.invoke number context).2.1.capture = true := by
  unfold DefaultSyscallProvider.invoke
  split
  · exact hcapture
  · unfold DefaultSyscallProvider.doWrite DefaultSyscallProvider.emit
    dsimp only
    split_ifs
    all_goals first | exact hcapture | (split <;> exact hcapture)
  · unfold DefaultSyscallProvider.doRead DefaultSyscallProvider.take
    dsimp only
    split_ifs
    all_goals first | exact hcapture | (split <;> exact hcapture)
  · unfold DefaultSyscallProvider.doAllocate
    dsimp only
    split <;> exact hcapture
  · exact hcapture

/-- What a capturing provider holds after a call. -/
theorem buffers_of_invoke {provider : DefaultSyscallProvider} (hcapture : provider.capture = true)
    (number : UInt64) (context : SyscallContext) :
    (provider.invoke number context).2.1.output =
        provider.output ++ writtenBy 1 number context ∧
      (provider.invoke number context).2.1.errorOutput =
        provider.errorOutput ++ writtenBy 2 number context := by
  have h := congrArg (fun outcome => outcome.2.1) (invoke_with_output hcapture number context
    provider.output)
  exact ⟨congrArg (·.output) h, congrArg (·.errorOutput) h⟩

/-- The capped provider holds the beginning of the output, and all the rest. -/
structure Shadows (capped : CappedSyscallProvider) (provider : DefaultSyscallProvider) : Prop where
  capture : provider.capture = true
  inner : capped.inner = { provider with output := provider.output.take kMaxOutputBytes }
  truncated : capped.truncated = decide (kMaxOutputBytes < provider.output.length)

/-- Dropping the end of the output again after more was appended. -/
theorem Shadows.invoke {capped : CappedSyscallProvider} {provider : DefaultSyscallProvider}
    (h : Shadows capped provider) (number : UInt64) (context : SyscallContext) :
    (capped.invoke number context).1 = (provider.invoke number context).1 ∧
      Shadows (capped.invoke number context).2.1 (provider.invoke number context).2.1 ∧
      (capped.invoke number context).2.2 = (provider.invoke number context).2.2 := by
  obtain ⟨houtput, herror⟩ := buffers_of_invoke h.capture number context
  have hcapture := capture_of_invoke h.capture number context
  have hinner := invoke_with_output h.capture number context (provider.output.take kMaxOutputBytes)
  rw [← h.inner, ← herror] at hinner
  generalize writtenBy 1 number context = text at houtput hinner
  generalize provider.invoke number context = outcome at houtput hcapture hinner ⊢
  obtain ⟨result, after, context'⟩ := outcome
  dsimp only at houtput hcapture hinner ⊢
  have htake : (provider.output.take kMaxOutputBytes ++ text).take kMaxOutputBytes =
      after.output.take kMaxOutputBytes := by
    rw [houtput, List.take_append, List.take_append, List.take_take, List.length_take, min_self]
    congr 2
    omega
  have hlength := congrArg List.length houtput
  rw [List.length_append] at hlength
  unfold CappedSyscallProvider.invoke
  rw [hinner]
  dsimp only
  split_ifs with hlong
  · rw [List.length_append, List.length_take] at hlong
    refine ⟨rfl, ⟨hcapture, ?_, ?_⟩, rfl⟩
    · dsimp only
      rw [htake]
    · rw [eq_comm, decide_eq_true_eq]
      omega
  · rw [List.length_append, List.length_take] at hlong
    have hshort : (provider.output.take kMaxOutputBytes ++ text).length ≤ kMaxOutputBytes := by
      rw [List.length_append, List.length_take]
      omega
    rw [List.take_of_length_le hshort] at htake
    refine ⟨rfl, ⟨hcapture, ?_, ?_⟩, rfl⟩
    · dsimp only
      rw [htake]
    · dsimp only
      rw [h.truncated, decide_eq_decide]
      omega

/-! ### One instruction -/

@[simp] theorem cpu_setSyscallProvider (vm : VirtualMachine) (syscalls : DefaultSyscallProvider) :
    (setSyscallProvider vm syscalls).cpu = vm.cpu := rfl

@[simp] theorem memory_setSyscallProvider (vm : VirtualMachine)
    (syscalls : DefaultSyscallProvider) :
    (setSyscallProvider vm syscalls).memory = vm.memory := rfl

@[simp] theorem syscalls_setSyscallProvider (vm : VirtualMachine)
    (syscalls : DefaultSyscallProvider) : (setSyscallProvider vm syscalls).syscalls = syscalls :=
    rfl

theorem push_with_syscalls (vm : VirtualMachine) (syscalls : DefaultSyscallProvider)
    (value pc : UInt64) : (setSyscallProvider vm syscalls).push value pc =
      ((vm.push value pc).1, setSyscallProvider (vm.push value pc).2 syscalls) := by
  unfold VirtualMachine.push setSyscallProvider
  dsimp only
  split_ifs
  · rfl
  · cases vm.memory.writeU64 (vm.cpu.sp - 8) value with
    | error fault => rfl
    | ok memory => rfl

theorem pop_with_syscalls (vm : VirtualMachine) (syscalls : DefaultSyscallProvider) (pc : UInt64) :
    (setSyscallProvider vm syscalls).pop pc =
      ((vm.pop pc).1, setSyscallProvider (vm.pop pc).2 syscalls) := by
  unfold VirtualMachine.pop setSyscallProvider
  dsimp only
  split_ifs
  · rfl
  · cases vm.memory.readU64 vm.cpu.sp with
    | error fault => rfl
    | ok value => rfl

theorem executeOther_with_syscalls (vm : VirtualMachine) (syscalls : DefaultSyscallProvider)
    (instruction : Instruction) (pc : UInt64) :
    (setSyscallProvider vm syscalls).executeOther instruction pc =
      ((vm.executeOther instruction pc).1,
        setSyscallProvider (vm.executeOther instruction pc).2 syscalls) := by
  unfold VirtualMachine.executeOther setSyscallProvider
  dsimp only
  split_ifs
  all_goals first | rfl | (split <;> rfl)

/-- The provider of a machine has no influence on anything but system calls. -/
theorem execute_with_syscalls (vm : VirtualMachine) (syscalls : DefaultSyscallProvider)
    {instruction : Instruction} (hopcode : instruction.opcode ≠ .SYSCALL) (pc : UInt64) :
    (setSyscallProvider vm syscalls).execute instruction pc =
      ((vm.execute instruction pc).1, setSyscallProvider (vm.execute instruction pc).2
        syscalls) := by
  unfold VirtualMachine.execute
  dsimp only [cpu_setSyscallProvider, memory_setSyscallProvider]
  split_ifs
  · rfl
  · split
    · rfl
    · rfl
    · next hsyscall => exact absurd hsyscall hopcode
    · rfl
    · rfl
    · rfl
    · split <;> rfl
    · split <;> rfl
    · exact push_with_syscalls vm syscalls _ pc
    · rw [pop_with_syscalls]
      cases vm.pop pc with
      | mk outcome vm => cases outcome <;> rfl
    · rw [push_with_syscalls]
      cases vm.push vm.cpu.pc pc with
      | mk outcome vm => cases outcome <;> rfl
    · rw [pop_with_syscalls]
      cases vm.pop pc with
      | mk outcome vm => cases outcome <;> rfl
    · exact executeOther_with_syscalls vm syscalls instruction pc

/-- A system call with the cap is one without it. -/
theorem shadows_executeSyscall (m : CappedMachine) {provider : DefaultSyscallProvider}
    (h : Shadows m.syscalls provider) (instruction : Instruction) (pc : UInt64) :
    ∃ provider', Shadows (m.executeSyscall instruction pc).2.syscalls provider' ∧
      (setSyscallProvider m.machine provider).executeSyscall instruction pc =
        ((m.executeSyscall instruction pc).1,
          setSyscallProvider (m.executeSyscall instruction pc).2.machine provider') ∧
      provider'.output =
        provider.output ++ writtenBy 1 instruction.imm.toUInt64 m.machine.context ∧
      provider'.errorOutput =
        provider.errorOutput ++ writtenBy 2 instruction.imm.toUInt64 m.machine.context := by
  have hinvoke := h.invoke instruction.imm.toUInt64 m.machine.context
  refine ⟨(provider.invoke instruction.imm.toUInt64 m.machine.context).2.1, ?_, ?_,
    buffers_of_invoke h.capture instruction.imm.toUInt64 m.machine.context⟩
  · unfold CappedMachine.executeSyscall
    generalize m.syscalls.invoke instruction.imm.toUInt64 m.machine.context = capped at hinvoke ⊢
    obtain ⟨result, capped, context⟩ := capped
    cases result with
    | error message => exact hinvoke.2.1
    | ok u =>
      dsimp only
      split_ifs
      · exact hinvoke.2.1
      · exact hinvoke.2.1
  · unfold CappedMachine.executeSyscall VirtualMachine.executeSyscall
    have hcontext : (setSyscallProvider m.machine provider).context =
        m.machine.context := rfl
    rw [hcontext, syscalls_setSyscallProvider]
    generalize m.syscalls.invoke instruction.imm.toUInt64 m.machine.context = capped at hinvoke ⊢
    generalize provider.invoke instruction.imm.toUInt64 m.machine.context = outcome at hinvoke ⊢
    obtain ⟨result, capped, context⟩ := capped
    obtain ⟨result', provider', context'⟩ := outcome
    obtain ⟨hresult, -, hafter⟩ := hinvoke
    obtain rfl : result = result' := hresult
    obtain rfl : context = context' := hafter
    cases result with
    | error message => rfl
    | ok u =>
      dsimp only
      split_ifs
      · rfl
      · rfl

/-- A step with the cap is a step without it. -/
theorem shadows_step (m : CappedMachine) {provider : DefaultSyscallProvider}
    (h : Shadows m.syscalls provider) : ∃ provider', Shadows m.step.2.syscalls provider' ∧
      (setSyscallProvider m.machine provider).step =
        (m.step.1, setSyscallProvider m.step.2.machine provider') ∧
      provider'.output = provider.output ++ writtenAt 1 m.machine ∧
      provider'.errorOutput = provider.errorOutput ++ writtenAt 2 m.machine := by
  -- a step that does not reach the provider
  have hidle : ∀ (outcome : Except VMFault Unit) (machine : VirtualMachine),
      m.step = (outcome, { m with machine }) →
      (setSyscallProvider m.machine provider).step =
        (outcome, setSyscallProvider machine provider) →
      (∀ fd, writtenAt fd m.machine = []) → ∃ provider',
        Shadows m.step.2.syscalls provider' ∧
          (setSyscallProvider m.machine provider).step =
            (m.step.1, setSyscallProvider m.step.2.machine provider') ∧
          provider'.output = provider.output ++ writtenAt 1 m.machine ∧
          provider'.errorOutput = provider.errorOutput ++ writtenAt 2 m.machine := by
    intro outcome machine hcapped huncapped hnothing
    rw [hcapped, hnothing, hnothing, List.append_nil, List.append_nil]
    exact ⟨provider, h, huncapped, rfl, rfl⟩
  by_cases hloaded : m.machine.loaded = true
  · by_cases hhalted : m.machine.cpu.halted = true
    · refine hidle (.ok ()) m.machine ?_ ?_ fun fd => ?_
      · simp [CappedMachine.step, hloaded, hhalted]
      · simp [VirtualMachine.step, setSyscallProvider, hloaded, hhalted]
      · simp [writtenAt, hhalted]
    · have hrunning : m.machine.cpu.halted = false := by simpa using hhalted
      have hfetch : (setSyscallProvider m.machine provider).fetch = m.machine.fetch := rfl
      cases hinstruction : m.machine.fetch with
      | error fault =>
        refine hidle (.error fault) m.machine ?_ ?_ fun fd => ?_
        · simp [CappedMachine.step, hloaded, hrunning, hinstruction]
        · unfold VirtualMachine.step
          rw [hfetch, hinstruction]
          simp [setSyscallProvider, hloaded, hrunning]
        · simp [writtenAt, hinstruction]
      | ok instruction =>
        have hstep : m.step = CappedMachine.execute { m with machine := m.machine.advance }
            instruction m.machine.cpu.pc := by
          simp [CappedMachine.step, hloaded, hrunning, hinstruction]
        have huncapped : (setSyscallProvider m.machine provider).step =
            (setSyscallProvider m.machine.advance provider).execute instruction
              m.machine.cpu.pc :=
          VirtualMachine.step_of_fetch hloaded hrunning (hfetch.trans hinstruction)
        by_cases hopcode : instruction.opcode = .SYSCALL
        · obtain ⟨hdst, hsrc⟩ := VirtualMachine.validRegisters_of_fetch hinstruction
          have hcapped : m.step = CappedMachine.executeSyscall
              { m with machine := m.machine.advance } instruction m.machine.cpu.pc := by
            rw [hstep]
            unfold CappedMachine.execute
            rw [hdst, hsrc, hopcode]
            rfl
          have hwritten : ∀ fd, writtenAt fd m.machine =
              writtenBy fd instruction.imm.toUInt64 m.machine.context := by
            intro fd
            simp [writtenAt, hloaded, hrunning, hinstruction, hopcode]
          rw [hcapped, huncapped, hwritten, hwritten,
            VirtualMachine.execute_of_syscall hinstruction hopcode]
          exact shadows_executeSyscall { m with machine := m.machine.advance } h instruction _
        · refine hidle (m.machine.advance.execute instruction m.machine.cpu.pc).1
            (m.machine.advance.execute instruction m.machine.cpu.pc).2 ?_ ?_ fun fd => ?_
          · rw [hstep]
            unfold CappedMachine.execute
            simp [hopcode]
          · rw [huncapped]
            exact execute_with_syscalls m.machine.advance provider hopcode _
          · simp [writtenAt, hinstruction, hopcode]
  · refine hidle _ m.machine (if_pos ?_) (if_pos ?_) fun fd => ?_
    · simpa using hloaded
    · simpa [setSyscallProvider] using hloaded
    · simp [writtenAt, hloaded]

/-! ### Runs -/

/-- After any number of steps the machine is the one without the cap, whose provider holds all that
was written. -/
theorem shadows_steps (machine : VirtualMachine) (input : Str) (k : ℕ) : ∃ provider,
    Shadows ((cappedStart machine input).steps k).syscalls provider ∧
      (uncappedStart machine input).steps k =
        setSyscallProvider ((cappedStart machine input).steps k).machine provider ∧
      provider.output = written 1 machine input k ∧
      provider.errorOutput = written 2 machine input k := by
  induction k with
  | zero =>
    exact ⟨{ capture := true, input }, ⟨rfl, rfl, rfl⟩, rfl, rfl, rfl⟩
  | succ k ih =>
    obtain ⟨provider, hshadows, hmachine, houtput, herror⟩ := ih
    obtain ⟨provider', hshadows', hstep, houtput', herror'⟩ := shadows_step _ hshadows
    refine ⟨provider', hshadows', ?_, ?_, ?_⟩
    · rw [VirtualMachine.steps_succ, hmachine, hstep]
      rfl
    · rw [houtput', houtput]
      unfold written
      rw [List.range_succ, List.flatMap_append, List.flatMap_singleton]
    · rw [herror', herror]
      unfold written
      rw [List.range_succ, List.flatMap_append, List.flatMap_singleton]

/-- What the provider retains is as it should be exactly as long as at most `kMaxOutputBytes` were
written to fd 2. -/
theorem captures_iff (machine : VirtualMachine) (input : Str) (k : ℕ) :
    Captures machine input k ↔ (written 2 machine input k).length ≤ kMaxOutputBytes := by
  obtain ⟨provider, hshadows, hmachine, houtput, herror⟩ := shadows_steps machine input k
  have hinner := hshadows.inner
  constructor
  · intro h
    have hbounded := h.errorOutputBounded
    rw [hinner] at hbounded
    rw [← herror]
    exact hbounded
  · intro h
    have htaken : ((cappedStart machine input).steps k).syscalls.output =
        (written 1 machine input k).take kMaxOutputBytes := by
      unfold CappedSyscallProvider.output
      rw [hinner, ← houtput]
    refine ⟨?_, ?_, ?_, ?_, ?_, ?_⟩
    · rw [htaken, List.length_take]
      exact min_le_left _ _
    · rw [hinner]
      dsimp only
      rw [herror]
      exact h
    · rw [htaken, List.take_eq_take_min]
    · rw [hshadows.truncated, decide_eq_true_eq, houtput]
    · rw [hmachine, cpu_setSyscallProvider]
    · rw [hmachine, memory_setSyscallProvider]

/-- `MOVI R1, 2`, `MOVI R2, 0x7FEF0000`, `MOVI R3, 262145` and `SYSCALL 1`: from the stack to fd
2. -/
def writesErrors : Executable where
  segments := [
    { type := .text, flags := Executable.SegmentFlags.read ||| Executable.SegmentFlags.exec,
      name := str ".text", virtualAddress := 0x10000, virtualSize := 32,
      data := [2, 0, 0, 0, 0, 0, 0x10, 17, 0, 0, 0xEF, 0x7F, 0, 0, 0x20, 17, 1, 0, 4, 0,
        0, 0, 0x30, 17, 1, 0, 0, 0, 0, 0, 0, 2] }]
  entryPoint := 0x10000

def writesErrorsStart : VirtualMachine := (VirtualMachine.load {} writesErrors).2

theorem load_writesErrors :
    VirtualMachine.load {} writesErrors = (.ok (), writesErrorsStart) := by rfl

theorem length_writtenAt_writesErrors :
    (writtenAt 2 ((cappedStart writesErrorsStart []).steps 3).machine).length = 262145 := by
  have hgrants : ((cappedStart writesErrorsStart []).steps 3).machine.memory.Grants
      0x7FEF0000 262145 Permission.read := by
    refine ⟨_, List.mem_cons_of_mem _ List.mem_cons_self, ?_, ?_, ?_⟩
    · decide
    · decide
    · decide
  obtain ⟨bytes, hbytes⟩ := (VirtualMemory.isOk_readBytes (by decide) (by decide)).mpr hgrants
  have hfetch : ((cappedStart writesErrorsStart []).steps 3).machine.fetch =
      .ok { opcode := .SYSCALL, imm := 1 } := by rfl
  have hwritten : writtenAt 2 ((cappedStart writesErrorsStart []).steps 3).machine = bytes := by
    unfold writtenAt writtenBy
    rw [if_pos (by decide), hfetch]
    dsimp only
    rw [if_pos rfl, if_pos (by decide)]
    have haddress : ((cappedStart writesErrorsStart []).steps 3).machine.context.registers kArg2 =
        0x7FEF0000 := by decide
    have hlength : (((cappedStart writesErrorsStart []).steps 3).machine.context.registers
        kArg3).toNat = 262145 := by decide
    have hmemory : ((cappedStart writesErrorsStart []).steps 3).machine.context.memory =
        ((cappedStart writesErrorsStart []).steps 3).machine.memory := rfl
    rw [haddress, hlength, hmemory, hbytes]
  rw [hwritten]
  exact (VirtualMemory.byteAt_of_readBytes (by decide) (by decide) hbytes).1

/-- One write of a byte more than the cap to fd 2 is retained in full. -/
theorem errors_not_capped : VirtualMachine.load {} writesErrors = (.ok (), writesErrorsStart) ∧
    ¬Captures writesErrorsStart [] 4 := by
  refine ⟨load_writesErrors, fun h => ?_⟩
  have hbounded := h.errorOutputBounded
  obtain ⟨provider, hshadows, -, -, herror⟩ := shadows_steps writesErrorsStart [] 4
  rw [hshadows.inner] at hbounded
  dsimp only at hbounded
  have hlast : written 2 writesErrorsStart [] 4 = written 2 writesErrorsStart [] 3 ++
      writtenAt 2 ((cappedStart writesErrorsStart []).steps 3).machine := by
    unfold written
    rw [List.range_succ, List.flatMap_append, List.flatMap_singleton]
  rw [herror, hlast, List.length_append, length_writtenAt_writesErrors] at hbounded
  have hcap : kMaxOutputBytes = 262144 := rfl
  omega

end Playground
end MiniTool
