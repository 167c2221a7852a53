import MiniToolchain.Isa.Opcode
import MiniToolchain.Vm.Memory

/-!
# System calls

The seam between the machine and the host: the four calls of the default provider, against the
host's streams or against buffers of its own.

## Main definitions

* `SyscallContext` — what a call may touch.
* `DefaultSyscallProvider`, `invoke` — the calls.

## Main results

* `change_of_invoke`, `memory_of_invoke` — what a call does to the memory.
-/

namespace MiniTool
namespace Vm

open Checked

/-- The virtual system call numbers. -/
inductive SyscallNumber
  | exit
  | write
  | read
  | allocate
  deriving DecidableEq, Repr

namespace SyscallNumber

def value : SyscallNumber → UInt64
  | exit => 0
  | write => 1
  | read => 2
  | allocate => 3

/-- The enumerator with the given value, if there is one. -/
def ofValue (v : UInt64) : Option SyscallNumber :=
  [exit, write, read, allocate].find? fun number => number.value = v

theorem eq_value_of_ofValue {v : UInt64} {number : SyscallNumber} (h : ofValue v = some number) :
    v = number.value := by
  simpa [eq_comm] using List.find?_some h

end SyscallNumber

/-- The sixteen general-purpose registers. -/
abbrev Registers := Fin 16 → UInt64

namespace Registers

def set (registers : Registers) (slot : Fin 16) (value : UInt64) : Registers :=
  fun i => if i = slot then value else registers i

@[simp] theorem set_same (registers : Registers) (slot : Fin 16) (value : UInt64) :
    registers.set slot value slot = value := if_pos rfl

end Registers

/-- Everything a call may touch. -/
structure SyscallContext where
  registers : Registers
  memory : VirtualMemory
  /-- Set by `exit` to stop the machine. -/
  halt : Bool := false
  exitCode : UInt64 := 0

/-- The first argument of a call. -/
abbrev kArg1 : Fin 16 := 1
abbrev kArg2 : Fin 16 := 2
abbrev kArg3 : Fin 16 := 3
abbrev kReturnValue : Fin 16 := 14

/-- A call moves no more bytes than this. -/
abbrev kMaxTransfer : UInt64 := 1048576

/-- The provider, and the streams of the host it uses when it does not capture: what was written to
`stdout` and `stderr`, and what `stdin` still holds. -/
structure DefaultSyscallProvider where
  capture : Bool := false
  output : Str := []
  errorOutput : Str := []
  input : Str := []
  stdout : Str := []
  stderr : Str := []
  stdin : Str := []
  deriving DecidableEq, Repr

namespace DefaultSyscallProvider

/-- What a call returns, with the provider and the context after it. -/
abbrev Outcome := Except String Unit × DefaultSyscallProvider × SyscallContext

/-- Writes to a buffer, or to a stream of the host. -/
def emit (provider : DefaultSyscallProvider) (fd : UInt64) (text : Str) : DefaultSyscallProvider :=
  if provider.capture then
    if fd = 1 then { provider with output := provider.output ++ text }
    else { provider with errorOutput := provider.errorOutput ++ text }
  else if fd = 1 then { provider with stdout := provider.stdout ++ text }
  else { provider with stderr := provider.stderr ++ text }

def doWrite (provider : DefaultSyscallProvider) (context : SyscallContext) : Outcome :=
  let fd := context.registers kArg1
  let address := context.registers kArg2
  let length := context.registers kArg3
  if fd ≠ 1 ∧ fd ≠ 2 then
    (.error s!"write: unsupported file descriptor {fd}", provider, context)
  else if length > kMaxTransfer then
    (.error s!"write: length {length} exceeds the {kMaxTransfer}-byte limit", provider, context)
  else
    match context.memory.readBytes address length.toNat with
    | .error fault =>
      let reason := fault.describe
      (.error s!"write: {reason}", provider, context)
    | .ok bytes =>
      (.ok (), provider.emit fd bytes,
        { context with registers := context.registers.set kReturnValue length })

/-- Takes up to `count` bytes from the buffer, or from the host. -/
def take (provider : DefaultSyscallProvider) (count : ℕ) : Str × DefaultSyscallProvider :=
  if provider.capture then
    (provider.input.take count, { provider with input := provider.input.drop count })
  else (provider.stdin.take count, { provider with stdin := provider.stdin.drop count })

def doRead (provider : DefaultSyscallProvider) (context : SyscallContext) : Outcome :=
  let fd := context.registers kArg1
  let address := context.registers kArg2
  let length := context.registers kArg3
  if fd ≠ 0 then (.error s!"read: unsupported file descriptor {fd}", provider, context)
  else if length > kMaxTransfer then
    (.error s!"read: length {length} exceeds the {kMaxTransfer}-byte limit", provider, context)
  else
    -- the input is consumed even when it cannot be stored
    let (bytes, provider) := provider.take length.toNat
    match context.memory.writeBytes address bytes with
    | .error fault =>
      let reason := fault.describe
      (.error s!"read: {reason}", provider, context)
    | .ok memory =>
      (.ok (), provider, { context with
        registers := context.registers.set kReturnValue (UInt64.ofNat bytes.length)
        memory })

/-- A failed allocation is reported in-band, as a null pointer. -/
def doAllocate (provider : DefaultSyscallProvider) (context : SyscallContext) : Outcome :=
  let size := context.registers kArg1
  match context.memory.allocate size with
  | (.error _, memory) =>
    (.ok (), provider, { context with registers := context.registers.set kReturnValue 0, memory })
  | (.ok block, memory) =>
    (.ok (), provider,
      { context with registers := context.registers.set kReturnValue block, memory })

def invoke (provider : DefaultSyscallProvider) (number : UInt64) (context : SyscallContext) :
    Outcome :=
  match SyscallNumber.ofValue number with
  | some .exit =>
    (.ok (), provider,
      { context with halt := true, exitCode := context.registers kArg1 })
  | some .write => provider.doWrite context
  | some .read => provider.doRead context
  | some .allocate => provider.doAllocate context
  | none => (.error s!"unknown syscall {number}", provider, context)

/-! ### What a call does to the memory -/

theorem length_take_le (provider : DefaultSyscallProvider) (count : ℕ) :
    (provider.take count).1.length ≤ count := by
  unfold take
  split_ifs
  · exact List.length_take_le _ _
  · exact List.length_take_le _ _

theorem memory_of_doWrite (provider : DefaultSyscallProvider) (context : SyscallContext) :
    (provider.doWrite context).2.2.memory = context.memory := by
  unfold doWrite
  dsimp only
  split_ifs
  · rfl
  · rfl
  · split <;> rfl

theorem change_of_doRead (provider : DefaultSyscallProvider) (context : SyscallContext) :
    context.memory.Change (provider.doRead context).2.2.memory ∧
      (provider.doRead context).2.2.memory.heapNext = context.memory.heapNext := by
  unfold doRead
  dsimp only
  split_ifs with hfd hlength
  · exact ⟨.nothing, rfl⟩
  · exact ⟨.nothing, rfl⟩
  · have hcount := length_take_le provider (context.registers kArg3).toNat
    have hfits := (context.registers kArg3).toNat_lt
    split
    · exact ⟨.nothing, rfl⟩
    · next memory hwrite =>
      refine ⟨VirtualMemory.change_of_writeBytes (by omega) hwrite, ?_⟩
      exact VirtualMemory.heapNext_of_writeBytes hwrite

theorem memory_of_doAllocate (provider : DefaultSyscallProvider) (context : SyscallContext) :
    (provider.doAllocate context).2.2.memory =
      (context.memory.allocate (context.registers kArg1)).2 := by
  unfold doAllocate
  dsimp only
  split
  · next h => rw [h]
  · next h => rw [h]

theorem ofValue_eq_allocate {number : UInt64} :
    SyscallNumber.ofValue number = some .allocate ↔ number = SyscallNumber.allocate.value := by
  constructor
  · intro h
    simpa [eq_comm] using List.find?_some h
  · rintro rfl
    rfl

/-- Only `allocate` moves the heap. -/
theorem heapNext_of_invoke (provider : DefaultSyscallProvider) {number : UInt64}
    (context : SyscallContext) (h : number ≠ SyscallNumber.allocate.value) :
    (provider.invoke number context).2.2.memory.heapNext = context.memory.heapNext := by
  unfold invoke
  split
  · rfl
  · rw [memory_of_doWrite]
  · exact (change_of_doRead provider context).2
  · next hnumber => exact absurd (ofValue_eq_allocate.mp hnumber) h
  · rfl

theorem invoke_allocate (provider : DefaultSyscallProvider) (context : SyscallContext) :
    provider.invoke SyscallNumber.allocate.value context = provider.doAllocate context := rfl

/-- A call writes into one writable region, or moves the heap. -/
theorem change_of_invoke (provider : DefaultSyscallProvider) (number : UInt64)
    (context : SyscallContext) :
    context.memory.Change (provider.invoke number context).2.2.memory := by
  unfold invoke
  split
  · exact .nothing
  · rw [memory_of_doWrite]
    exact .nothing
  · exact (change_of_doRead provider context).1
  · rw [memory_of_doAllocate]
    exact VirtualMemory.change_of_allocate _ _
  · exact .nothing

end DefaultSyscallProvider

end Vm
end MiniTool
