import MiniToolchain.Executable.Executable
import MiniToolchain.Isa.Semantics
import MiniToolchain.Vm.Syscall

/-!
# The virtual machine

The loader, the execution of one instruction, and the run under a budget.  A machine and what a
call returns are explicit: every function that may fault returns the machine after it as well.  The
trace sink observes and is left out.

## Main definitions

* `CPUState`, `VirtualMachine`, `VMFault`, `RunResult`.
* `load` — maps an executable.
* `step`, `execute`, `run` — its execution.
-/

namespace MiniTool
namespace Vm

open Checked Isa

structure CPUState where
  registers : Registers := fun _ => 0
  pc : UInt64 := 0
  sp : UInt64 := 0
  flags : UInt64 := 0
  halted : Bool := false
  instructionCount : UInt64 := 0
  exitCode : UInt64 := 0

/-- Every way a program can fail at run time; `none` means it ran to HALT. -/
inductive VMError
  | none
  | invalidMemoryAccess
  | permissionViolation
  | illegalInstruction
  | divisionByZero
  | stackOverflow
  | stackUnderflow
  | syscallError
  /-- The instruction budget ran out. -/
  | budgetExhausted
  | notLoaded
  deriving DecidableEq, Repr

structure VMFault where
  error : VMError := .none
  message : String := ""
  /-- The address of the instruction that faulted. -/
  pc : UInt64 := 0
  deriving DecidableEq, Repr

structure RunResult where
  error : VMError := .none
  message : String := ""
  exitCode : UInt64 := 0
  instructions : UInt64 := 0
  pc : UInt64 := 0
  deriving DecidableEq, Repr

abbrev kStackTop : UInt64 := 0x7FFF0000
abbrev kStackSize : UInt64 := 1048576
abbrev kHeapBase : UInt64 := 0x10000000
abbrev kHeapSize : UInt64 := 1048576

/-- Fetching needs to be able to read the word, so Exec implies Read. -/
def permissionsOf (flags : Executable.SegmentFlags) : Permission :=
  let read := if Executable.hasFlag flags Executable.SegmentFlags.read then Permission.read
    else Permission.none
  let write := if Executable.hasFlag flags Executable.SegmentFlags.write then Permission.write
    else Permission.none
  let exec := if Executable.hasFlag flags Executable.SegmentFlags.exec then
    Permission.read ||| Permission.exec else Permission.none
  read ||| write ||| exec

/-- The machine, with the default system calls. -/
structure VirtualMachine where
  cpu : CPUState := {}
  memory : VirtualMemory := VirtualMemory.empty
  syscalls : DefaultSyscallProvider := {}
  loaded : Bool := false
  stackTop : UInt64 := kStackTop
  stackLimit : UInt64 := kStackTop - kStackSize

namespace VirtualMachine

/-- What a step returns, with the machine after it. -/
abbrev Outcome := Except VMFault Unit × VirtualMachine

/-! ### Loading -/

/-- Maps the segments in their order; also the memory when one of them cannot be mapped. -/
def mapSegments (memory : VirtualMemory) :
    List Executable.Segment → Except String Unit × VirtualMemory
  | [] => (.ok (), memory)
  | segment :: rest =>
    match memory.addRegion segment.name segment.virtualAddress segment.virtualSize
        (permissionsOf segment.flags) segment.data with
    | none =>
      let name := segment.name.text
      let address := Binary.hexText 1 segment.virtualAddress.toNat
      (.error s!"cannot map segment '{name}' at 0x{address}", memory)
    | some memory => mapSegments memory rest

/-- The permissions of the stack and of the heap. -/
abbrev readWrite : Permission := Permission.read ||| Permission.write

/-- Maps the segments, a stack and a heap, and resets the processor to the entry point. -/
def load (vm : VirtualMachine) (executable : Executable) :
    Except String Unit × VirtualMachine :=
  match executable.validate with
  | .error e => (.error e, vm)
  | .ok () =>
    match mapSegments VirtualMemory.empty executable.segments with
    | (.error e, memory) => (.error e, { vm with memory })
    | (.ok (), memory) =>
      match memory.addRegion (str "stack") (kStackTop - kStackSize) kStackSize readWrite [] with
      | none => (.error "the stack overlaps a program segment", { vm with memory })
      | some memory =>
        match memory.addRegion (str "heap") kHeapBase kHeapSize readWrite [] with
        | none => (.error "the heap overlaps a program segment", { vm with memory })
        | some memory =>
          (.ok (), { vm with
            memory
            stackTop := kStackTop
            stackLimit := kStackTop - kStackSize
            cpu := { pc := executable.entryPoint, sp := kStackTop }
            loaded := true })

/-! ### Execution -/

/-- Turns a memory fault into a fault of the machine.  An unmapped access just below the stack is a
stack overflow. -/
def faultFromMemory (vm : VirtualMachine) (fault : MemoryFault) (pc : UInt64) (what : String) :
    VMFault :=
  let error : VMError :=
    match fault.kind with
    | .readDenied | .writeDenied | .executeDenied => .permissionViolation
    | .unmapped | .crossesRegionEnd =>
      if fault.address < vm.stackLimit ∧ vm.stackLimit - fault.address ≤ kStackSize then
        .stackOverflow
      else .invalidMemoryAccess
    | .outOfMemory => .invalidMemoryAccess
  let reason := fault.describe
  { error, message := s!"{what}: {reason}", pc }

def push (vm : VirtualMachine) (value pc : UInt64) : Outcome :=
  if vm.cpu.sp < vm.stackLimit + 8 then
    let sp := Binary.hexText 1 vm.cpu.sp.toNat
    let limit := Binary.hexText 1 vm.stackLimit.toNat
    (.error { error := .stackOverflow,
              message := s!"stack overflow: SP = 0x{sp}, limit = 0x{limit}", pc }, vm)
  else
    let target := vm.cpu.sp - 8
    match vm.memory.writeU64 target value with
    | .error fault => (.error (vm.faultFromMemory fault pc "push"), vm)
    | .ok memory => (.ok (), { vm with memory, cpu := { vm.cpu with sp := target } })

def pop (vm : VirtualMachine) (pc : UInt64) : Except VMFault UInt64 × VirtualMachine :=
  if vm.cpu.sp ≥ vm.stackTop then
    let sp := Binary.hexText 1 vm.cpu.sp.toNat
    let top := Binary.hexText 1 vm.stackTop.toNat
    (.error { error := .stackUnderflow,
              message := s!"stack underflow: SP = 0x{sp} is at or above the stack top 0x{top}",
              pc }, vm)
  else
    match vm.memory.readU64 vm.cpu.sp with
    | .error fault => (.error (vm.faultFromMemory fault pc "pop"), vm)
    | .ok value => (.ok value, { vm with cpu := { vm.cpu with sp := vm.cpu.sp + 8 } })

/-- The machine with a register set. -/
def setRegister (vm : VirtualMachine) (slot : Fin 16) (value : UInt64) : VirtualMachine :=
  { vm with cpu := { vm.cpu with registers := vm.cpu.registers.set slot value } }

def setPc (vm : VirtualMachine) (pc : UInt64) : VirtualMachine :=
  { vm with cpu := { vm.cpu with pc } }

/-- What is neither a control, a data nor a stack instruction: branches, and ALU operations. -/
def executeOther (vm : VirtualMachine) (instruction : Instruction) (pc : UInt64) : Outcome :=
  let isBranch := match findOpcode instruction.opcode with
    | some info => info.isBranch
    | none => false
  if isBranch then
    if branchTaken instruction.opcode vm.cpu.flags then
      (.ok (), vm.setPc (branchTarget pc instruction.imm))
    else (.ok (), vm)
  else
    let dst := instruction.dst.slot
    let src := instruction.src.slot
    let result := if isBinaryAlu instruction.opcode then
        evaluateBinary instruction.opcode (vm.cpu.registers dst) (vm.cpu.registers src)
      else evaluateUnary instruction.opcode (vm.cpu.registers dst)
    let name := opcodeName instruction.opcode
    match result with
    | .error .divisionByZero =>
      (.error { error := .divisionByZero, message := s!"{name} by zero", pc }, vm)
    | .error .notArithmetic =>
      (.error { error := .illegalInstruction, message := s!"{name} is not executable", pc }, vm)
    | .ok result =>
      let registers :=
        if result.writesValue then vm.cpu.registers.set dst result.value else vm.cpu.registers
      let flags := if result.writesFlags then result.flags &&& kFlagsMask else vm.cpu.flags
      (.ok (), { vm with cpu := { vm.cpu with registers, flags } })

/-- What a system call may touch. -/
def context (vm : VirtualMachine) : SyscallContext :=
  { registers := vm.cpu.registers, memory := vm.memory }

def executeSyscall (vm : VirtualMachine) (instruction : Instruction) (pc : UInt64) : Outcome :=
  let (result, syscalls, context) := vm.syscalls.invoke instruction.imm.toUInt64 vm.context
  let vm := { vm with
    syscalls, memory := context.memory, cpu := { vm.cpu with registers := context.registers } }
  match result with
  | .error message => (.error { error := .syscallError, message, pc }, vm)
  | .ok () =>
    if context.halt then
      (.ok (), { vm with cpu := { vm.cpu with halted := true, exitCode := context.exitCode } })
    else (.ok (), vm)

def execute (vm : VirtualMachine) (instruction : Instruction) (pc : UInt64) : Outcome :=
  -- the decoder cannot produce such a register
  if !isValidRegister instruction.dst || !isValidRegister instruction.src then
    let dst := registerIndex instruction.dst
    let src := registerIndex instruction.src
    (.error { error := .illegalInstruction,
              message := s!"register index {dst}/{src} is out of range", pc }, vm)
  else
    let dst := instruction.dst.slot
    let src := instruction.src.slot
    match instruction.opcode with
    | .NOP => (.ok (), vm)
    | .HALT => (.ok (), { vm with cpu := { vm.cpu with halted := true } })
    | .SYSCALL => vm.executeSyscall instruction pc
    | .MOV => (.ok (), vm.setRegister dst (vm.cpu.registers src))
    | .MOVI | .LEA => (.ok (), vm.setRegister dst instruction.imm.toUInt64)
    | .LOAD =>
      match vm.memory.readU64 (vm.cpu.registers src + instruction.imm.toUInt64) with
      | .error fault => (.error (vm.faultFromMemory fault pc "LOAD"), vm)
      | .ok value => (.ok (), vm.setRegister dst value)
    | .STORE =>
      match vm.memory.writeU64 (vm.cpu.registers dst + instruction.imm.toUInt64)
          (vm.cpu.registers src) with
      | .error fault => (.error (vm.faultFromMemory fault pc "STORE"), vm)
      | .ok memory => (.ok (), { vm with memory })
    | .PUSH => vm.push (vm.cpu.registers dst) pc
    | .POP =>
      match vm.pop pc with
      | (.error fault, vm) => (.error fault, vm)
      | (.ok value, vm) => (.ok (), vm.setRegister dst value)
    | .CALL =>
      -- the program counter is already at the instruction after the CALL
      match vm.push vm.cpu.pc pc with
      | (.error fault, vm) => (.error fault, vm)
      | (.ok (), vm) => (.ok (), vm.setPc (branchTarget pc instruction.imm))
    | .RET =>
      match vm.pop pc with
      | (.error fault, vm) => (.error fault, vm)
      | (.ok address, vm) => (.ok (), vm.setPc address)
    | _ => vm.executeOther instruction pc

/-- The instruction the machine is about to execute, or why there is none. -/
def fetch (vm : VirtualMachine) : Except VMFault Instruction :=
  let pc := vm.cpu.pc
  if pc % UInt64.ofNat kInstructionSize ≠ 0 then
    let address := Binary.hexText 1 pc.toNat
    .error { error := .illegalInstruction,
             message := s!"PC 0x{address} is not {kInstructionSize}-byte aligned", pc }
  else
    match vm.memory.fetchInstruction pc with
    | .error fault => .error (vm.faultFromMemory fault pc "instruction fetch")
    | .ok word =>
      match decode word with
      | .error e =>
        let text := Binary.hexText 16 word.toNat
        let reason := decodeErrorName e
        .error { error := .illegalInstruction, message := s!"cannot decode 0x{text}: {reason}", pc }
      | .ok instruction => .ok instruction

/-- The program counter advances before execution, so that a branch overwrites it. -/
def advance (vm : VirtualMachine) : VirtualMachine :=
  { vm with cpu := { vm.cpu with
      pc := vm.cpu.pc + UInt64.ofNat kInstructionSize
      instructionCount := vm.cpu.instructionCount + 1 } }

/-- Executes one instruction. -/
def step (vm : VirtualMachine) : Outcome :=
  if !vm.loaded then
    (.error { error := .notLoaded, message := "no program is loaded", pc := vm.cpu.pc }, vm)
  else if vm.cpu.halted then (.ok (), vm)
  else
    match vm.fetch with
    | .error fault => (.error fault, vm)
    | .ok instruction => vm.advance.execute instruction vm.cpu.pc

/-- The loop of `run`, with the budget that is left. -/
def runLoop (vm : VirtualMachine) (executed : ℕ) : ℕ → RunResult × VirtualMachine
  | 0 =>
    if vm.cpu.halted then
      ({ exitCode := vm.cpu.exitCode, instructions := vm.cpu.instructionCount, pc := vm.cpu.pc },
        vm)
    else
      ({ error := .budgetExhausted,
         message := s!"stopped after {executed} instructions; the program may not terminate",
         pc := vm.cpu.pc, instructions := vm.cpu.instructionCount }, vm)
  | budget + 1 =>
    if vm.cpu.halted then
      ({ exitCode := vm.cpu.exitCode, instructions := vm.cpu.instructionCount, pc := vm.cpu.pc },
        vm)
    else
      match vm.step with
      | (.error fault, vm) =>
        ({ error := fault.error, message := fault.message, pc := fault.pc,
           instructions := vm.cpu.instructionCount }, vm)
      | (.ok (), vm) => runLoop vm (executed + 1) budget

/-- Runs until the program halts, faults, or `budget` instructions have been executed. -/
def run (vm : VirtualMachine) (budget : UInt64) : RunResult × VirtualMachine :=
  if !vm.loaded then ({ error := .notLoaded, message := "no program is loaded" }, vm)
  else runLoop vm 0 budget.toNat

end VirtualMachine

end Vm
end MiniTool
