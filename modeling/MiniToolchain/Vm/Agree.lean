import MiniToolchain.Vm.Twins

/-!
# What an instruction depends on

Two machines that differ where an instruction does not look still differ there after it, and agree
everywhere else: in the bytes of the memory that it does not read, in the registers it does not
read, in FLAGS if it is no branch, in the program counter.

## Main definitions

* `AgreeOutside` — memories that hold the same bytes outside a set of addresses.
* `Executes` — what an instruction that is no branch does when it succeeds.
* `Close` — machines that differ in memory that is free, in registers and in FLAGS that are not
  live.

## Main results

* `execute_eq_ok` — it succeeds exactly when its registers are valid and it does one of these.
* `execute_agreeOutside` — the bytes an instruction does not read.
* `execute_aside` — FLAGS, the program counter and the count of instructions.
* `execute_registers` — the registers an instruction does not read.
* `Close.execute` — all of this at once.
-/

namespace MiniTool
namespace Vm

open ByteOrder Isa VirtualMemory

/-! ### Memory -/

namespace VirtualMemory

/-- The memories have the same regions, and the same bytes outside `free`. -/
structure AgreeOutside (free : Set UInt64) (m m' : VirtualMemory) : Prop where
  shapes : m.shapes = m'.shapes
  heapNext : m.heapNext = m'.heapNext
  bytes : ∀ x ∉ free, m.byteAt x = m'.byteAt x

namespace AgreeOutside

variable {free free' : Set UInt64} {m m' m'' : VirtualMemory}

theorem refl (free : Set UInt64) (m : VirtualMemory) : AgreeOutside free m m :=
  ⟨rfl, rfl, fun _ _ => rfl⟩

theorem trans (h : AgreeOutside free m m') (h' : AgreeOutside free m' m'') :
    AgreeOutside free m m'' :=
  ⟨h.shapes.trans h'.shapes, h.heapNext.trans h'.heapNext,
    fun x hx => (h.bytes x hx).trans (h'.bytes x hx)⟩

theorem symm (h : AgreeOutside free m m') : AgreeOutside free m' m :=
  ⟨h.shapes.symm, h.heapNext.symm, fun x hx => (h.bytes x hx).symm⟩

theorem mono (h : AgreeOutside free m m') (hsub : ∀ x ∈ free, x ∈ free') :
    AgreeOutside free' m m' :=
  ⟨h.shapes, h.heapNext, fun x hx => h.bytes x fun hfree => hx (hsub x hfree)⟩

/-- They differ at some of the addresses that are free. -/
theorem differAt (h : AgreeOutside free m m') :
    DifferAt {x | m.byteAt x ≠ m'.byteAt x} m m' :=
  ⟨h.shapes, h.heapNext, fun _ => Iff.rfl⟩

theorem mem_of_ne (h : AgreeOutside free m m') {x : UInt64} (hx : m.byteAt x ≠ m'.byteAt x) :
    x ∈ free := by
  by_contra hfree
  exact hx (h.bytes x hfree)

theorem of_differAt {stale : Set UInt64} (h : DifferAt stale m m') (hsub : ∀ x ∈ stale, x ∈ free) :
    AgreeOutside free m m' := by
  refine ⟨h.shapes, h.heapNext, fun x hx => ?_⟩
  by_contra hne
  exact hx (hsub x ((h.bytes x).mpr hne))

/-- A word that is written on one side only. -/
theorem of_writeU64 {address value : UInt64} (h : m.writeU64 address value = .ok m')
    (hfree : ∀ x, InRange address 8 x → x ∈ free) : AgreeOutside free m' m := by
  have hwrites := writes_writeU64 m address value
  have hshapes := hwrites.shapes
  have houtside := hwrites.outside
  rw [length_littleEndian] at houtside
  rw [h] at hshapes houtside
  exact ⟨hshapes, heapNext_of_writeU64 h, fun x hx => houtside x fun hrange => hx (hfree x hrange)⟩

/-- Different words are written at one address. -/
theorem writeU64 (h : AgreeOutside free m m') {address value' : UInt64} {w' : VirtualMemory}
    (hwrite : m'.writeU64 address value' = .ok w') (value : UInt64) :
    ∃ w, m.writeU64 address value = .ok w ∧
      AgreeOutside {x | x ∈ free ∨ InRange address 8 x} w w' := by
  have hwritable : ∃ w'', m'.writeU64 address value = .ok w'' := by
    rw [(writes_writeU64 m' address value).isOk, length_littleEndian,
      ← length_littleEndian 8 value', ← (writes_writeU64 m' address value').isOk]
    exact ⟨w', hwrite⟩
  obtain ⟨w'', hok⟩ := hwritable
  rcases h.differAt.writeU64_cases address value with ⟨fault, -, hfault⟩ | ⟨w, -, hw, -, -⟩
  · rw [hok] at hfault
    cases hfault
  · refine ⟨w, hw, ?_⟩
    have hleft : AgreeOutside {x | x ∈ free ∨ InRange address 8 x} w m :=
      of_writeU64 hw fun x hx => .inr hx
    have hright : AgreeOutside {x | x ∈ free ∨ InRange address 8 x} w' m' :=
      of_writeU64 hwrite fun x hx => .inr hx
    exact (hleft.trans (h.mono fun x hx => .inl hx)).trans hright.symm

end AgreeOutside

end VirtualMemory

namespace VirtualMachine

/-! ### The stack -/

section

variable {vm vm' : VirtualMachine} {value pc : UInt64}

theorem push_of_room {memory : VirtualMemory} (hroom : ¬vm.cpu.sp < vm.stackLimit + 8)
    (hwrite : vm.memory.writeU64 (vm.cpu.sp - 8) value = .ok memory) :
    vm.push value pc =
      (.ok (), { vm with memory, cpu := { vm.cpu with sp := vm.cpu.sp - 8 } }) := by
  unfold push
  rw [if_neg hroom]
  dsimp only
  rw [hwrite]

theorem pop_of_room (hroom : vm.cpu.sp < vm.stackTop)
    (hread : vm.memory.readU64 vm.cpu.sp = .ok value) :
    vm.pop pc = (.ok value, { vm with cpu := { vm.cpu with sp := vm.cpu.sp + 8 } }) := by
  unfold pop
  rw [if_neg (UInt64.not_le.mpr hroom), hread]

/-- A push that does not fault. -/
theorem push_eq_ok (h : vm.push value pc = (.ok (), vm')) :
    ∃ memory, ¬vm.cpu.sp < vm.stackLimit + 8 ∧
      vm.memory.writeU64 (vm.cpu.sp - 8) value = .ok memory ∧
      vm' = { vm with memory, cpu := { vm.cpu with sp := vm.cpu.sp - 8 } } ∧
      (vm.cpu.sp - 8).toNat + 8 = vm.cpu.sp.toNat := by
  rcases push_cases vm value pc with ⟨fault, hpush⟩ | ⟨memory, hroom, hwrite, hpush⟩
  · rw [hpush] at h
    cases h
  · rw [hpush] at h
    cases h
    refine ⟨memory, hroom, hwrite, rfl, ?_⟩
    have hok := (writes_writeU64 vm.memory (vm.cpu.sp - 8) value).isOk.mp ⟨memory, hwrite⟩
    rw [length_littleEndian] at hok
    obtain ⟨r, hr, -, hfits, -⟩ := hok
    have hnoWrap := (vm.memory.bounded r hr).2
    have hlt := vm.cpu.sp.toNat_lt
    have height : (8 : UInt64).toNat = 8 := rfl
    have hsub := UInt64.toNat_sub vm.cpu.sp 8
    rw [height] at hsub
    omega

/-- A pop that does not fault. -/
theorem pop_eq_ok (h : vm.pop pc = (.ok value, vm')) :
    vm.cpu.sp < vm.stackTop ∧ vm.memory.readU64 vm.cpu.sp = .ok value ∧
      vm' = { vm with cpu := { vm.cpu with sp := vm.cpu.sp + 8 } } ∧
      (vm.cpu.sp + 8).toNat = vm.cpu.sp.toNat + 8 := by
  rcases pop_cases vm pc with ⟨fault, hpop⟩ | ⟨value', hroom, hread, hpop⟩
  · rw [hpop] at h
    cases h
  · rw [hpop] at h
    cases h
    have hnoWrap := toNat_add_eight_of_readU64 hread
    have height : (8 : UInt64).toNat = 8 := rfl
    refine ⟨hroom, hread, rfl, ?_⟩
    rw [UInt64.toNat_add, height, Nat.mod_eq_of_lt hnoWrap]

/-- The address of an instruction shows in its faults only. -/
theorem push_pc (h : vm.push value pc = (.ok (), vm')) (pc' : UInt64) :
    vm.push value pc' = (.ok (), vm') := by
  obtain ⟨memory, hroom, hwrite, rfl, -⟩ := push_eq_ok h
  exact push_of_room hroom hwrite

theorem pop_pc (h : vm.pop pc = (.ok value, vm')) (pc' : UInt64) :
    vm.pop pc' = (.ok value, vm') := by
  obtain ⟨hroom, hread, rfl, -⟩ := pop_eq_ok h
  exact pop_of_room hroom hread

end

/-! ### What an instruction does -/

/-- The instruction transfers control. -/
def transfers (opcode : Opcode) : Bool := (findOpcode opcode).any (·.isBranch)

/-- The operation of an arithmetic instruction. -/
def operation (machine : Instruction) (registers : Registers) : Except AluError AluResult :=
  if isBinaryAlu machine.opcode then
    evaluateBinary machine.opcode (registers machine.dst.slot) (registers machine.src.slot)
  else evaluateUnary machine.opcode (registers machine.dst.slot)

/-- What an instruction that is no branch does when it succeeds. -/
inductive Executes (vm : VirtualMachine) (machine : Instruction) : VirtualMachine → Prop
  | nop (hop : machine.opcode = .NOP) : Executes vm machine vm
  | halt (hop : machine.opcode = .HALT) :
    Executes vm machine { vm with cpu := { vm.cpu with halted := true } }
  | syscall {vm' : VirtualMachine} (hop : machine.opcode = .SYSCALL)
    (hcall : vm.executeSyscall machine 0 = (.ok (), vm')) : Executes vm machine vm'
  | move (hop : machine.opcode = .MOV) :
    Executes vm machine (vm.setRegister machine.dst.slot (vm.cpu.registers machine.src.slot))
  | immediate (hop : machine.opcode = .MOVI ∨ machine.opcode = .LEA) :
    Executes vm machine (vm.setRegister machine.dst.slot machine.imm.toUInt64)
  | load {value : UInt64} (hop : machine.opcode = .LOAD)
    (hread : vm.memory.readU64 (vm.cpu.registers machine.src.slot + machine.imm.toUInt64) =
      .ok value) : Executes vm machine (vm.setRegister machine.dst.slot value)
  | store {memory : VirtualMemory} (hop : machine.opcode = .STORE)
    (hwrite : vm.memory.writeU64 (vm.cpu.registers machine.dst.slot + machine.imm.toUInt64)
      (vm.cpu.registers machine.src.slot) = .ok memory) : Executes vm machine { vm with memory }
  | push {vm' : VirtualMachine} (hop : machine.opcode = .PUSH)
    (hpush : vm.push (vm.cpu.registers machine.dst.slot) 0 = (.ok (), vm')) :
    Executes vm machine vm'
  | pop {value : UInt64} {vm' : VirtualMachine} (hop : machine.opcode = .POP)
    (hpop : vm.pop 0 = (.ok value, vm')) :
    Executes vm machine (vm'.setRegister machine.dst.slot value)
  | alu {r : AluResult} (hop : isBinaryAlu machine.opcode = true ∨ isUnaryAlu machine.opcode = true)
    (hvalue : operation machine vm.cpu.registers = .ok r) :
    Executes vm machine { vm with cpu := { vm.cpu with
      registers :=
        if r.writesValue then vm.cpu.registers.set machine.dst.slot r.value else vm.cpu.registers
      flags := if r.writesFlags then r.flags &&& kFlagsMask else vm.cpu.flags } }

section

variable {vm vm' : VirtualMachine} {machine : Instruction} {pc : UInt64}

theorem executeSyscall_pc (h : vm.executeSyscall machine pc = (.ok (), vm')) (pc' : UInt64) :
    vm.executeSyscall machine pc' = (.ok (), vm') := by
  unfold executeSyscall at h ⊢
  dsimp only at h ⊢
  split at h
  · cases h
  · exact h

/-- What is no branch is an operation. -/
theorem executeOther_eq (hbranch : transfers machine.opcode = false) :
    (∃ fault, vm.executeOther machine pc = (.error fault, vm) ∧
        ∃ e, operation machine vm.cpu.registers = .error e) ∨
      ∃ r, operation machine vm.cpu.registers = .ok r ∧
        vm.executeOther machine pc = (.ok (), { vm with cpu := { vm.cpu with
          registers :=
            if r.writesValue then vm.cpu.registers.set machine.dst.slot r.value
            else vm.cpu.registers
          flags := if r.writesFlags then r.flags &&& kFlagsMask else vm.cpu.flags } }) := by
  unfold transfers at hbranch
  unfold operation executeOther
  dsimp only
  rw [if_neg]
  · generalize (if isBinaryAlu machine.opcode = true then
        evaluateBinary machine.opcode (vm.cpu.registers machine.dst.slot)
          (vm.cpu.registers machine.src.slot)
      else evaluateUnary machine.opcode (vm.cpu.registers machine.dst.slot)) = result
    rcases result with (_ | _) | r
    · exact .inl ⟨_, rfl, _, rfl⟩
    · exact .inl ⟨_, rfl, _, rfl⟩
    · exact .inr ⟨r, rfl, rfl⟩
  · cases hinfo : findOpcode machine.opcode with
    | none => exact Bool.false_ne_true
    | some info =>
      rw [hinfo] at hbranch
      simpa using hbranch

theorem executeOther_of_operation (hbranch : transfers machine.opcode = false) {r : AluResult}
    (h : operation machine vm.cpu.registers = .ok r) :
    vm.executeOther machine pc = (.ok (), { vm with cpu := { vm.cpu with
      registers :=
        if r.writesValue then vm.cpu.registers.set machine.dst.slot r.value else vm.cpu.registers
      flags := if r.writesFlags then r.flags &&& kFlagsMask else vm.cpu.flags } }) := by
  rcases @executeOther_eq vm machine pc hbranch with ⟨-, -, e, he⟩ | ⟨r', hr', hother⟩
  · rw [h] at he
    cases he
  · rw [h] at hr'
    cases hr'
    exact hother

/-- An operation that succeeds is one of an arithmetic instruction. -/
theorem alu_of_operation {r : AluResult} {registers : Registers}
    (h : operation machine registers = .ok r) :
    isBinaryAlu machine.opcode = true ∨ isUnaryAlu machine.opcode = true := by
  unfold operation at h
  split_ifs at h with hbinary
  · exact .inl hbinary
  · by_contra hnone
    rw [evaluateUnary_of_not_alu (by simpa using fun hunary => hnone (.inr hunary))] at h
    cases h

/-- An instruction that is no branch succeeds exactly when its registers are valid and it does what
it is there for. -/
theorem execute_eq_ok (hbranch : transfers machine.opcode = false) :
    vm.execute machine pc = (.ok (), vm') ↔
      (isValidRegister machine.dst = true ∧ isValidRegister machine.src = true) ∧
        Executes vm machine vm' := by
  constructor
  · intro h
    have hvalid := validRegisters_of_execute_ok (by rw [h] : (vm.execute machine pc).1 = .ok ())
    refine ⟨hvalid, ?_⟩
    unfold execute at h
    rw [hvalid.1, hvalid.2, if_neg (by decide)] at h
    dsimp only at h
    split at h
    · next hop =>
      cases h
      exact .nop hop
    · next hop =>
      cases h
      exact .halt hop
    · next hop => exact .syscall hop (executeSyscall_pc h 0)
    · next hop =>
      cases h
      exact .move hop
    · next hop =>
      cases h
      exact .immediate (.inl hop)
    · next hop =>
      cases h
      exact .immediate (.inr hop)
    · next hop =>
      split at h
      · cases h
      · next value hread =>
        cases h
        exact .load hop hread
    · next hop =>
      split at h
      · cases h
      · next memory hwrite =>
        cases h
        exact .store hop hwrite
    · next hop => exact .push hop (push_pc h 0)
    · next hop =>
      split at h
      · cases h
      · next value popped hpop =>
        cases h
        exact .pop hop (pop_pc hpop 0)
    · next hop =>
      rw [hop] at hbranch
      cases hbranch
    · next hop =>
      rw [hop] at hbranch
      cases hbranch
    · rcases @executeOther_eq vm machine pc hbranch with ⟨fault, hother, -⟩ | ⟨r, hr, hother⟩
      · rw [hother] at h
        cases h
      · rw [hother] at h
        cases h
        exact .alu (alu_of_operation hr) hr
  · rintro ⟨hvalid, h⟩
    unfold execute
    rw [hvalid.1, hvalid.2, if_neg (by decide)]
    dsimp only
    cases h with
    | nop hop => rw [hop]
    | halt hop => rw [hop]
    | syscall hop hcall =>
      rw [hop]
      exact executeSyscall_pc hcall pc
    | move hop => rw [hop]
    | immediate hop => rcases hop with hop | hop <;> rw [hop]
    | load hop hread => rw [hop, hread]
    | store hop hwrite => rw [hop, hwrite]
    | push hop hpush =>
      rw [hop]
      exact push_pc hpush pc
    | pop hop hpop => rw [hop, pop_pc hpop pc]
    | alu hop hvalue =>
      have hother := @executeOther_of_operation vm machine pc hbranch _ hvalue
      rw [← hother]
      generalize machine.opcode = opcode at hop
      cases opcode <;>
        first
        | rfl
        | simp [isBinaryAlu, isUnaryAlu] at hop

theorem Executes.of_immediate (h : Executes vm machine vm')
    (hop : machine.opcode = .MOVI ∨ machine.opcode = .LEA) :
    vm' = vm.setRegister machine.dst.slot machine.imm.toUInt64 := by
  cases h with
  | immediate => rfl
  | _ hop' => rcases hop with hop | hop <;> simp [hop, isBinaryAlu, isUnaryAlu] at hop'

theorem Executes.of_move (h : Executes vm machine vm') (hop : machine.opcode = .MOV) :
    vm' = vm.setRegister machine.dst.slot (vm.cpu.registers machine.src.slot) := by
  cases h with
  | move => rfl
  | _ hop' => simp [hop, isBinaryAlu, isUnaryAlu] at hop'

theorem Executes.of_alu (h : Executes vm machine vm') {r : AluResult}
    (hvalue : operation machine vm.cpu.registers = .ok r) :
    vm' = { vm with cpu := { vm.cpu with
      registers :=
        if r.writesValue then vm.cpu.registers.set machine.dst.slot r.value else vm.cpu.registers
      flags := if r.writesFlags then r.flags &&& kFlagsMask else vm.cpu.flags } } := by
  have halu := alu_of_operation hvalue
  cases h with
  | alu _ hvalue' =>
    rw [hvalue] at hvalue'
    cases hvalue'
    rfl
  | immediate hop => rcases hop with hop | hop <;> simp [hop, isBinaryAlu, isUnaryAlu] at halu
  | _ hop => simp [hop, isBinaryAlu, isUnaryAlu] at halu

/-- What is no `HALT` and no system call does not stop the machine. -/
theorem halted_of_execute (hbranch : transfers machine.opcode = false)
    (hhalt : machine.opcode ≠ .HALT) (hsyscall : machine.opcode ≠ .SYSCALL)
    (hexecute : vm.execute machine pc = (.ok (), vm')) : vm'.cpu.halted = vm.cpu.halted := by
  obtain ⟨-, hdoes⟩ := (execute_eq_ok hbranch).mp hexecute
  cases hdoes with
  | halt hop => exact absurd hop hhalt
  | syscall hop => exact absurd hop hsyscall
  | push hop hpush =>
    obtain ⟨memory, -, -, rfl, -⟩ := push_eq_ok hpush
    rfl
  | pop hop hpop =>
    obtain ⟨-, -, rfl, -⟩ := pop_eq_ok hpop
    rfl
  | _ => rfl

/-! ### What it depends on -/

/-- The bytes an instruction does not read. -/
theorem execute_agreeOutside {free : Set UInt64} {memory : VirtualMemory}
    (h : AgreeOutside free memory vm.memory) (hloads : ∀ x, vm.loads machine x → x ∉ free)
    (hpops : pops machine.opcode = true → ∀ x, InRange vm.cpu.sp 8 x → x ∉ free)
    (hexecute : vm.execute machine pc = (.ok (), vm')) :
    ∃ memory', ({ vm with memory } : VirtualMachine).execute machine pc =
        (.ok (), { vm' with memory := memory' }) ∧
      AgreeOutside {x | x ∈ free ∧ ¬vm.stores machine x} memory' vm'.memory := by
  have hparallel := execute_parallel h.differAt machine
    (fun hpop x hx hrange => hpops hpop x hrange (h.mem_of_ne hx)) pc
  rw [hexecute] at hparallel
  generalize hleft : ({ vm with memory } : VirtualMachine).execute machine pc = left at hparallel
  cases hparallel with
  | same _ hunread hdiffer =>
    exact ⟨_, rfl, .of_differAt hdiffer fun x hx => ⟨h.mem_of_ne hx.1, hx.2⟩⟩
  | apart hread _ =>
    obtain ⟨x, hx, hload⟩ := hread
    exact absurd (h.mem_of_ne hx) (hloads x hload)

/-- What an operation writes is in the table of the opcodes. -/
theorem writes_of_operation {registers : Registers} {r : AluResult}
    (h : operation machine registers = .ok r) :
    (findOpcode machine.opcode).any (·.writesFlags) = r.writesFlags ∧
      (findOpcode machine.opcode).any (·.writesDst) = r.writesValue := by
  have halu := alu_of_operation h
  unfold operation at h
  by_cases hbinary : isBinaryAlu machine.opcode = true
  · rw [if_pos hbinary] at h
    have hzero : ¬((machine.opcode = .DIV ∨ machine.opcode = .MOD) ∧
        registers machine.src.slot = 0) := by
      rintro ⟨hop | hop, hzero⟩
      · rw [hop, hzero] at h
        cases h
      · rw [hop, hzero] at h
        cases h
    obtain ⟨r', hr', hcomputes⟩ := evaluateBinary_ok (a := registers machine.dst.slot) hbinary hzero
    rw [h] at hr'
    cases hr'
    rw [hcomputes.writesFlags_eq, hcomputes.writesValue_eq]
    generalize machine.opcode = opcode at hbinary
    cases opcode <;>
      first
      | exact ⟨rfl, rfl⟩
      | cases hbinary
  · rw [if_neg hbinary] at h
    have hunary := halu.resolve_left hbinary
    obtain ⟨r', hr', hcomputes⟩ := evaluateUnary_ok (a := registers machine.dst.slot) hunary
    rw [h] at hr'
    cases hr'
    rw [hcomputes.writesFlags_eq, hcomputes.writesValue_eq]
    generalize machine.opcode = opcode at hunary
    cases opcode <;>
      first
      | exact ⟨rfl, rfl⟩
      | cases hunary

/-- The machine with another program counter, another count of instructions and other FLAGS. -/
def aside (vm : VirtualMachine) (pc count flags : UInt64) : VirtualMachine :=
  { vm with cpu := { vm.cpu with pc, instructionCount := count, flags } }

/-- FLAGS, the program counter and the count of instructions, if it is no branch. -/
theorem execute_aside (hbranch : transfers machine.opcode = false)
    (hexecute : vm.execute machine pc = (.ok (), vm')) (p n f pc' : UInt64) :
    (vm.aside p n f).execute machine pc' = (.ok (), vm'.aside p n
        (if (findOpcode machine.opcode).any (·.writesFlags) then vm'.cpu.flags else f)) ∧
      ((findOpcode machine.opcode).any (·.writesFlags) = false → vm'.cpu.flags = vm.cpu.flags) ∧
      vm'.cpu.pc = vm.cpu.pc ∧ vm'.cpu.instructionCount = vm.cpu.instructionCount := by
  obtain ⟨hvalid, hdoes⟩ := (execute_eq_ok hbranch).mp hexecute
  rw [execute_eq_ok hbranch]
  cases hdoes with
  | nop hop =>
    rw [hop]
    exact ⟨⟨hvalid, .nop hop⟩, fun _ => rfl, rfl, rfl⟩
  | halt hop =>
    rw [hop]
    exact ⟨⟨hvalid, .halt hop⟩, fun _ => rfl, rfl, rfl⟩
  | syscall hop hcall =>
    rw [hop]
    unfold executeSyscall at hcall
    dsimp only at hcall
    split at hcall
    · cases hcall
    · next hresult =>
      have hresult' : ((vm.aside p n f).syscalls.invoke machine.imm.toUInt64
          (vm.aside p n f).context).1 = .ok () := hresult
      split_ifs at hcall with hhalt
      · cases hcall
        refine ⟨⟨hvalid, .syscall hop ?_⟩, fun _ => rfl, rfl, rfl⟩
        have hhalt' : ((vm.aside p n f).syscalls.invoke machine.imm.toUInt64
          (vm.aside p n f).context).2.2.halt = true := hhalt
        unfold executeSyscall
        dsimp only
        rw [hresult', if_pos hhalt']
        rfl
      · cases hcall
        refine ⟨⟨hvalid, .syscall hop ?_⟩, fun _ => rfl, rfl, rfl⟩
        have hhalt' : ¬((vm.aside p n f).syscalls.invoke machine.imm.toUInt64
          (vm.aside p n f).context).2.2.halt = true := hhalt
        unfold executeSyscall
        dsimp only
        rw [hresult', if_neg hhalt']
        rfl
  | move hop =>
    rw [hop]
    exact ⟨⟨hvalid, .move hop⟩, fun _ => rfl, rfl, rfl⟩
  | immediate hop =>
    refine ⟨⟨hvalid, ?_⟩, fun _ => rfl, rfl, rfl⟩
    rcases hop with hop | hop
    · rw [hop]
      exact .immediate (.inl hop)
    · rw [hop]
      exact .immediate (.inr hop)
  | load hop hread =>
    rw [hop]
    exact ⟨⟨hvalid, .load hop hread⟩, fun _ => rfl, rfl, rfl⟩
  | store hop hwrite =>
    rw [hop]
    exact ⟨⟨hvalid, @Executes.store (vm.aside p n f) machine _ hop hwrite⟩, fun _ => rfl, rfl, rfl⟩
  | push hop hpush =>
    rw [hop]
    obtain ⟨memory, hroom, hwrite, rfl, -⟩ := push_eq_ok hpush
    exact ⟨⟨hvalid, .push hop (@push_of_room (vm.aside p n f) _ _ _ hroom hwrite)⟩, fun _ => rfl,
      rfl, rfl⟩
  | pop hop hpop =>
    rw [hop]
    obtain ⟨hroom, hread, rfl, -⟩ := pop_eq_ok hpop
    exact ⟨⟨hvalid, .pop hop (@pop_of_room (vm.aside p n f) _ _ hroom hread)⟩, fun _ => rfl, rfl,
      rfl⟩
  | @alu r hop hvalue =>
    obtain ⟨hflags, -⟩ := writes_of_operation hvalue
    rw [hflags]
    refine ⟨⟨hvalid, ?_⟩, fun hnone => ?_, rfl, rfl⟩
    · have halu := @Executes.alu (vm.aside p n f) machine r hop hvalue
      cases hr : r.writesFlags
      · rw [hr] at halu
        exact halu
      · rw [hr] at halu
        exact halu
    · dsimp only
      rw [hnone]
      rfl

/-- The machine with other FLAGS. -/
def withFlags (vm : VirtualMachine) (flags : UInt64) : VirtualMachine :=
  { vm with cpu := { vm.cpu with flags } }

theorem execute_flags (hbranch : transfers machine.opcode = false)
    (hexecute : vm.execute machine pc = (.ok (), vm')) (f : UInt64) :
    (vm.withFlags f).execute machine pc = (.ok (), vm'.withFlags
        (if (findOpcode machine.opcode).any (·.writesFlags) then vm'.cpu.flags else f)) ∧
      ((findOpcode machine.opcode).any (·.writesFlags) = false →
        vm'.cpu.flags = vm.cpu.flags) := by
  obtain ⟨haside, hkeep, hpc, hcount⟩ := execute_aside hbranch hexecute vm.cpu.pc
    vm.cpu.instructionCount f pc
  refine ⟨?_, hkeep⟩
  have hafter : ∀ g, vm'.aside vm.cpu.pc vm.cpu.instructionCount g = vm'.withFlags g := by
    intro g
    unfold aside
    rw [← hpc, ← hcount]
    rfl
  rw [hafter] at haside
  exact haside

/-- The instruction reads this register. -/
def looksAt (machine : Instruction) (slot : Fin 16) : Bool :=
  (findOpcode machine.opcode).any fun info =>
    (info.readsDst && machine.dst.slot = slot) ||
      ((info.format = .reg2 || info.format = .mem) && machine.src.slot = slot)

/-- The machine with other registers. -/
def withRegisters (vm : VirtualMachine) (registers : Registers) : VirtualMachine :=
  { vm with cpu := { vm.cpu with registers } }

/-- The register an instruction writes is written, and no other. -/
def written (machine : Instruction) (registers : Registers) (value : UInt64) : Registers :=
  if (findOpcode machine.opcode).any (·.writesDst) then registers.set machine.dst.slot value
  else registers

theorem operation_congr {registers : Registers} (hop : isBinaryAlu machine.opcode = true ∨
      isUnaryAlu machine.opcode = true)
    (h : ∀ slot, looksAt machine slot = true → registers slot = vm.cpu.registers slot) :
    operation machine registers = operation machine vm.cpu.registers := by
  have hdst : registers machine.dst.slot = vm.cpu.registers machine.dst.slot := by
    apply h
    unfold looksAt
    generalize machine.opcode = opcode at hop
    cases opcode <;>
      first
      | simp [isBinaryAlu, isUnaryAlu] at hop; done
      | simp [findOpcode, kOpcodes]
  unfold operation
  split_ifs with hbinary
  · have hsrc : registers machine.src.slot = vm.cpu.registers machine.src.slot := by
      apply h
      unfold looksAt
      generalize machine.opcode = opcode at hbinary
      cases opcode <;>
        first
        | cases hbinary; done
        | simp [findOpcode, kOpcodes]
    rw [hdst, hsrc]
  · rw [hdst]

/-- The registers an instruction does not read, if it is no branch and no system call. -/
theorem execute_registers (hbranch : transfers machine.opcode = false)
    (hsyscall : machine.opcode ≠ .SYSCALL) (hexecute : vm.execute machine pc = (.ok (), vm'))
    {registers : Registers}
    (h : ∀ slot, looksAt machine slot = true → registers slot = vm.cpu.registers slot) :
    (vm.withRegisters registers).execute machine pc = (.ok (), vm'.withRegisters
        (written machine registers (vm'.cpu.registers machine.dst.slot))) ∧
      vm'.cpu.registers =
        written machine vm.cpu.registers (vm'.cpu.registers machine.dst.slot) := by
  obtain ⟨hvalid, hdoes⟩ := (execute_eq_ok hbranch).mp hexecute
  rw [execute_eq_ok hbranch]
  unfold written
  cases hdoes with
  | nop hop =>
    rw [hop]
    exact ⟨⟨hvalid, .nop hop⟩, rfl⟩
  | halt hop =>
    rw [hop]
    exact ⟨⟨hvalid, .halt hop⟩, rfl⟩
  | syscall hop hcall => exact absurd hop hsyscall
  | move hop =>
    have hsrc := h machine.src.slot (by simp [looksAt, hop, findOpcode, kOpcodes])
    have hmove := @Executes.move (vm.withRegisters registers) machine hop
    rw [show (vm.withRegisters registers).cpu.registers machine.src.slot =
      vm.cpu.registers machine.src.slot from hsrc] at hmove
    rw [hop]
    refine ⟨⟨hvalid, ?_⟩, ?_⟩
    · simpa [setRegister, withRegisters, findOpcode, kOpcodes] using hmove
    · simp [setRegister, findOpcode, kOpcodes]
  | immediate hop =>
    have himmediate := @Executes.immediate (vm.withRegisters registers) machine hop
    refine ⟨⟨hvalid, ?_⟩, ?_⟩
    · rcases hop with hop | hop <;>
        simpa [setRegister, withRegisters, findOpcode, kOpcodes, hop] using himmediate
    · rcases hop with hop | hop <;> simp [setRegister, findOpcode, kOpcodes, hop]
  | @load value hop hread =>
    have hsrc := h machine.src.slot (by simp [looksAt, hop, findOpcode, kOpcodes])
    have hload := @Executes.load (vm.withRegisters registers) machine value hop (by
      rw [show (vm.withRegisters registers).cpu.registers machine.src.slot =
        vm.cpu.registers machine.src.slot from hsrc]
      exact hread)
    rw [hop]
    refine ⟨⟨hvalid, ?_⟩, ?_⟩
    · simpa [setRegister, withRegisters, findOpcode, kOpcodes] using hload
    · simp [setRegister, findOpcode, kOpcodes]
  | @store memory hop hwrite =>
    have hdst := h machine.dst.slot (by simp [looksAt, hop, findOpcode, kOpcodes])
    have hsrc := h machine.src.slot (by simp [looksAt, hop, findOpcode, kOpcodes])
    have hstore := @Executes.store (vm.withRegisters registers) machine memory hop (by
      rw [show (vm.withRegisters registers).cpu.registers machine.src.slot =
          vm.cpu.registers machine.src.slot from hsrc,
        show (vm.withRegisters registers).cpu.registers machine.dst.slot =
          vm.cpu.registers machine.dst.slot from hdst]
      exact hwrite)
    rw [hop]
    exact ⟨⟨hvalid, hstore⟩, rfl⟩
  | push hop hpush =>
    have hdst := h machine.dst.slot (by simp [looksAt, hop, findOpcode, kOpcodes])
    obtain ⟨memory, hroom, hwrite, rfl, -⟩ := push_eq_ok hpush
    rw [hop]
    refine ⟨⟨hvalid, .push hop ?_⟩, rfl⟩
    rw [show (vm.withRegisters registers).cpu.registers machine.dst.slot =
      vm.cpu.registers machine.dst.slot from hdst]
    exact @push_of_room (vm.withRegisters registers) _ _ _ hroom hwrite
  | @pop value _ hop hpop =>
    obtain ⟨hroom, hread, rfl, -⟩ := pop_eq_ok hpop
    have hpop' := @Executes.pop (vm.withRegisters registers) machine value _ hop
      (@pop_of_room (vm.withRegisters registers) value 0 hroom hread)
    rw [hop]
    refine ⟨⟨hvalid, ?_⟩, ?_⟩
    · simpa [setRegister, withRegisters, findOpcode, kOpcodes] using hpop'
    · simp [setRegister, findOpcode, kOpcodes]
  | @alu r hop hvalue =>
    obtain ⟨-, hdst⟩ := writes_of_operation hvalue
    have halu := @Executes.alu (vm.withRegisters registers) machine r hop
      ((operation_congr hop h).trans hvalue)
    rw [hdst]
    cases hr : r.writesValue with
    | false =>
      rw [hr] at halu
      exact ⟨⟨hvalid, halu⟩, rfl⟩
    | true =>
      rw [hr] at halu
      refine ⟨⟨hvalid, ?_⟩, ?_⟩
      · simpa [withRegisters] using halu
      · simp

end

/-! ### Machines that differ where it does not matter -/

/-- The machines agree outside `free` in memory, on the registers that are `live`, and on FLAGS if
they are live, too; otherwise they are the same. -/
structure Close (free : Set UInt64) (live : Set (Fin 16)) (flags : Prop) (vm vm' : VirtualMachine) :
    Prop where
  frame : vm' = { vm with
    memory := vm'.memory
    cpu := { vm.cpu with registers := vm'.cpu.registers, flags := vm'.cpu.flags } }
  memory : AgreeOutside free vm'.memory vm.memory
  registers : ∀ r ∈ live, vm'.cpu.registers r = vm.cpu.registers r
  flags : flags → vm'.cpu.flags = vm.cpu.flags

/-- The instruction writes this register. -/
def definesRegister (machine : Instruction) (slot : Fin 16) : Prop :=
  (findOpcode machine.opcode).any (·.writesDst) = true ∧ slot = machine.dst.slot

theorem written_congr {machine : Instruction} {registers registers' : Registers} {r : Fin 16}
    (h : registers r = registers' r ∨ definesRegister machine r) (value : UInt64) :
    written machine registers value r = written machine registers' value r := by
  unfold written Registers.set
  split_ifs with hwrites
  · by_cases hdst : r = machine.dst.slot
    · simp [hdst]
    · have hr : registers r = registers' r := h.resolve_right fun hdefines => hdst hdefines.2
      simp [hdst, hr]
  · exact h.resolve_right fun hdefines => hwrites hdefines.1

namespace Close

variable {free free' : Set UInt64} {live live' : Set (Fin 16)} {flags flags' : Prop}
  {vm vm' : VirtualMachine}

theorem refl (free : Set UInt64) (live : Set (Fin 16)) (flags : Prop) (vm : VirtualMachine) :
    Close free live flags vm vm := ⟨rfl, .refl free _, fun _ _ => rfl, fun _ => rfl⟩

theorem mono (h : Close free live flags vm vm') (hfree : ∀ x ∈ free, x ∈ free')
    (hlive : ∀ r ∈ live', r ∈ live) (hflags : flags' → flags) : Close free' live' flags' vm vm' :=
  ⟨h.frame, h.memory.mono hfree, fun r hr => h.registers r (hlive r hr),
    fun hf => h.flags (hflags hf)⟩

theorem sp (h : Close free live flags vm vm') : vm'.cpu.sp = vm.cpu.sp := by rw [h.frame]

theorem halted (h : Close free live flags vm vm') : vm'.cpu.halted = vm.cpu.halted :=
  by rw [h.frame]

theorem stackLimit (h : Close free live flags vm vm') : vm'.stackLimit = vm.stackLimit := by
  rw [h.frame]

theorem syscalls (h : Close free live flags vm vm') : vm'.syscalls = vm.syscalls := by rw [h.frame]

/-- One machine has other FLAGS. -/
theorem withFlags (h : Close free live flags vm vm') {f : UInt64}
    (hflags : flags' → vm'.cpu.flags = f) : Close free live flags' (vm.withFlags f) vm' :=
  ⟨h.frame, h.memory, h.registers, hflags⟩

/-- All registers are live. -/
theorem registers_eq (h : Close free live flags vm vm') (hall : ∀ r, r ∈ live) :
    vm'.cpu.registers = vm.cpu.registers := funext fun r => h.registers r (hall r)

/-- **An instruction that looks at nothing in which they differ does the same to both.** -/
theorem execute (h : Close free live flags vm vm') {machine : Instruction} {pc : UInt64}
    {after : VirtualMachine} (hbranch : transfers machine.opcode = false)
    (hexecute : vm.execute machine pc = (.ok (), after))
    (hlooks : ∀ r, looksAt machine r = true → r ∈ live)
    (hsyscall : machine.opcode = .SYSCALL → ∀ r, r ∈ live)
    (hloads : ∀ x, vm.loads machine x → x ∉ free)
    (hpops : machine.opcode = .POP → ∀ x, InRange vm.cpu.sp 8 x → x ∉ free) :
    ∃ after', vm'.execute machine pc = (.ok (), after') ∧
      Close {x | x ∈ free ∧ ¬vm.stores machine x} {r | r ∈ live ∨ definesRegister machine r}
        (flags ∨ (findOpcode machine.opcode).any (·.writesFlags) = true) after after' := by
  obtain ⟨haside, hkeep⟩ := execute_flags hbranch hexecute vm'.cpu.flags
  have hpops' : pops machine.opcode = true → ∀ x, InRange vm.cpu.sp 8 x → x ∉ free := by
    intro hpop
    unfold pops at hpop
    rcases Bool.or_eq_true_iff.mp hpop with hpop | hret
    · exact hpops (of_decide_eq_true hpop)
    · rw [of_decide_eq_true hret] at hbranch
      cases hbranch
  obtain ⟨memory, hmemory, hagree⟩ := @execute_agreeOutside (vm.withFlags vm'.cpu.flags) _ _ _ _ _
    h.memory hloads hpops' haside
  have hflags : flags ∨ (findOpcode machine.opcode).any (·.writesFlags) = true →
      (if (findOpcode machine.opcode).any (·.writesFlags) then after.cpu.flags
        else vm'.cpu.flags) = after.cpu.flags := by
    intro hlive
    split_ifs with hwrites
    · rfl
    · rw [hkeep (by simpa using hwrites)]
      exact h.flags (hlive.resolve_right hwrites)
  have hframe := h.frame
  by_cases hcall : machine.opcode = .SYSCALL
  · rw [h.registers_eq (hsyscall hcall)] at hframe
    have hsame := congrArg (fun other : VirtualMachine => other.execute machine pc) hframe
    exact ⟨_, hsame.trans hmemory, rfl, hagree, fun _ _ => rfl, hflags⟩
  · obtain ⟨hother, hwritten⟩ := @execute_registers _ _ _ _ hbranch hcall
      hmemory vm'.cpu.registers fun r hr => h.registers r (hlooks r hr)
    have hsame := congrArg (fun other : VirtualMachine => other.execute machine pc) hframe
    refine ⟨_, hsame.trans hother, rfl, hagree, fun r hr => ?_, hflags⟩
    have hafter : after.cpu.registers =
      written machine vm.cpu.registers (after.cpu.registers machine.dst.slot) := hwritten
    rw [congrFun hafter r]
    refine written_congr ?_ _
    rcases hr with hr | hdefines
    · exact .inl (h.registers r hr)
    · exact .inr hdefines

/-- What an instruction loads from depends on registers it looks at. -/
theorem loads_iff (h : Close free live flags vm vm') {machine : Instruction}
    (hlooks : ∀ r, looksAt machine r = true → r ∈ live)
    (hsyscall : machine.opcode = .SYSCALL → ∀ r, r ∈ live) (x : UInt64) :
    vm'.loads machine x ↔ vm.loads machine x := by
  unfold loads
  refine or_congr (and_congr_right fun hop => ?_) (and_congr_right fun hop => ?_)
  · rw [h.registers _ (hlooks _ (by simp [looksAt, hop, findOpcode, kOpcodes]))]
  · rw [h.registers_eq (hsyscall hop)]

theorem stores_iff (h : Close free live flags vm vm') {machine : Instruction}
    (hlooks : ∀ r, looksAt machine r = true → r ∈ live)
    (hsyscall : machine.opcode = .SYSCALL → ∀ r, r ∈ live) (x : UInt64) :
    vm'.stores machine x ↔ vm.stores machine x := by
  unfold stores
  rw [h.sp, h.syscalls]
  refine or_congr (and_congr_right fun hop => ?_) (or_congr_right (and_congr_right fun hop => ?_))
  · rw [h.registers _ (hlooks _ (by simp [looksAt, hop, findOpcode, kOpcodes]))]
  · rw [h.registers_eq (hsyscall hop)]

/-- Different words are pushed. -/
theorem push (h : Close free live flags vm vm') {value : UInt64} {after : VirtualMachine}
    (hpush : vm.push value 0 = (.ok (), after)) (value' : UInt64) :
    ∃ after', vm'.push value' 0 = (.ok (), after') ∧
      Close {x | x ∈ free ∨ InRange after.cpu.sp 8 x} live flags after after' := by
  obtain ⟨memory, hroom, hwrite, rfl, -⟩ := push_eq_ok hpush
  obtain ⟨memory', hwrite', hagree⟩ := h.memory.writeU64 hwrite value'
  have hsp := h.sp
  have hlimit := h.stackLimit
  rw [← hsp, ← hlimit] at hroom
  rw [← hsp] at hwrite'
  refine ⟨_, push_of_room hroom hwrite', ?_, hagree, h.registers, h.flags⟩
  rw [h.frame]

/-- Whatever is popped. -/
theorem pop (h : Close free live flags vm vm') {value : UInt64} {after : VirtualMachine}
    (hpop : vm.pop 0 = (.ok value, after)) :
    ∃ value' after', vm'.pop 0 = (.ok value', after') ∧ Close free live flags after after' := by
  obtain ⟨hroom, hread, rfl, -⟩ := pop_eq_ok hpop
  have hsp := h.sp
  have htop : vm'.stackTop = vm.stackTop := by rw [h.frame]
  rcases h.memory.differAt.readU64_cases vm.cpu.sp with
    ⟨fault, -, hfault⟩ | ⟨value', -, hread', -, -⟩
  · rw [hread] at hfault
    cases hfault
  · rw [← hsp] at hread'
    rw [← hsp, ← htop] at hroom
    refine ⟨value', _, pop_of_room hroom hread', ?_, h.memory, h.registers, h.flags⟩
    rw [h.frame]

end Close

end VirtualMachine
end Vm
end MiniTool
