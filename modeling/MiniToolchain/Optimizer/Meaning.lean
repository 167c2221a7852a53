import MiniToolchain.Lib.Simulation
import MiniToolchain.Optimizer.Survivors
import MiniToolchain.Vm.Agree

/-!
# What a section means

The optimizer works on items, before there are addresses.  A section is given a meaning there:
control goes from item to item, every instruction does to the registers, the memory and the host
what the machine makes it do, and only what depends on addresses is left open.  The return address
that a `CALL` pushes may be any word, and so nothing but the matching `RET` may look at it; what
lies below the stack pointer may be anything, and so nothing may look there.

## Main definitions

* `Program` — what stands at each position of a section, and the addresses it needs.
* `State`, `Move` — a machine at a position, with its open calls, and what an instruction does to
  it.
* `meaning` — the system of all runs.
* `SameResult` — what is seen of a machine that has stopped.
* `Goes` — where control goes.

## Main results

* `invariant_move` — return addresses lie above the stack pointer, and every open call is a `CALL`.
* `goes_of_move` — a move goes where control goes, unless it halts.
-/

namespace MiniTool
namespace Optimizer

open Ir Vm Vm.VirtualMemory Vm.VirtualMachine

/-- What stands at a position. -/
inductive Place
  /-- Nothing that is executed: a label, or an instruction that is removed. -/
  | skip
  | run (instruction : Instruction)
  /-- Data, or the end of the section. -/
  | stop

def Slot.place (slot : Slot) : Place :=
  if slot.remove then .skip
  else
    match slot.item with
    | .label _ => .skip
    | .instruction instruction => .run instruction
    | _ => .stop

/-- A section to be executed. -/
structure Program where
  place : ℕ → Place
  /-- The position of a label. -/
  target : Str → Option ℕ
  /-- The address of a symbol. -/
  symbol : Str → UInt64
  /-- What the `CALL` at a position pushes. -/
  returnAddress : ℕ → UInt64

/-- The items of a section that are not removed. -/
def Program.ofSlots (symbol : Str → UInt64) (returnAddress : ℕ → UInt64) (slots : List Slot) :
    Program where
  place i := ((slots[i]?).map Slot.place).getD .stop
  target := labelIndex (slots.map Slot.item)
  symbol
  returnAddress

/-- A whole section. -/
def Program.ofItems (symbol : Str → UInt64) (returnAddress : ℕ → UInt64) (items : List Item) :
    Program := .ofSlots symbol returnAddress (items.map fresh)

/-- The machine instruction, with the address of its symbol. -/
def Program.resolve (p : Program) (instruction : Instruction) : Isa.Instruction :=
  match instruction.symbol with
  | none => instruction.machine
  | some reference =>
    { instruction.machine with
      imm := (p.symbol reference.name + reference.addend.toUInt64).toInt64 }

/-- A machine that is about to execute what stands at a position. -/
structure State where
  position : ℕ
  vm : VirtualMachine
  /-- The open calls, innermost first: where the return address was pushed, and the `CALL`. -/
  frames : List (UInt64 × ℕ) := []
  /-- The bytes of return addresses that nothing has overwritten. -/
  hidden : Set UInt64 := ∅

namespace State

def goto (s : State) (position : ℕ) : State := { s with position }

/-- What is found at this address is not specified: it is part of a return address, or below the
stack pointer. -/
def Unspecified (s : State) (x : UInt64) : Prop :=
  x ∈ s.hidden ∨ (s.vm.stackLimit.toNat ≤ x.toNat ∧ x.toNat < s.vm.cpu.sp.toNat)

/-- The instruction looks at nothing that is not specified. -/
structure Specified (s : State) (machine : Isa.Instruction) : Prop where
  loads : ∀ x, s.vm.loads machine x → ¬s.Unspecified x
  pop : machine.opcode = .POP → ∀ x, InRange s.vm.cpu.sp 8 x → x ∉ s.hidden

end State

/-- Whether an instruction may carry a symbol, if it is no branch. -/
def takesSymbol (opcode : Isa.Opcode) : Bool := opcode = .MOVI || opcode = .LEA

/-- What is executed next does to a state, and its price. -/
inductive Move (p : Program) : State → ℕ → State → Prop
  | skip {s : State} (hplace : p.place s.position = .skip) : Move p s 0 (s.goto (s.position + 1))
  /-- An instruction that is no branch. -/
  | plain {s : State} {instruction : Instruction} {vm : VirtualMachine}
      (hplace : p.place s.position = .run instruction)
      (hbranch : isBranch instruction.machine.opcode = false)
      (hsymbol : instruction.isSymbolic = true → takesSymbol instruction.machine.opcode = true)
      (hspecified : s.Specified (p.resolve instruction))
      (hexecute : s.vm.execute (p.resolve instruction) 0 = (.ok (), vm)) :
      Move p s 1 { s with
        position := s.position + 1
        vm
        hidden := {x | x ∈ s.hidden ∧ ¬s.vm.stores (p.resolve instruction) x} }
  /-- A conditional jump that is not taken. -/
  | fall {s : State} {instruction : Instruction} (hplace : p.place s.position = .run instruction)
      (hbranch : isBranch instruction.machine.opcode = true)
      (hret : instruction.machine.opcode ≠ .RET)
      (htaken : Isa.branchTaken instruction.machine.opcode s.vm.cpu.flags = false) :
      Move p s 1 (s.goto (s.position + 1))
  | jump {s : State} {instruction : Instruction} {reference : SymbolRef} {t : ℕ}
      (hplace : p.place s.position = .run instruction)
      (hbranch : isBranch instruction.machine.opcode = true)
      (hcall : instruction.machine.opcode ≠ .CALL)
      (htaken : Isa.branchTaken instruction.machine.opcode s.vm.cpu.flags = true)
      (hsymbol : instruction.symbol = some reference) (haddend : reference.addend = 0)
      (htarget : p.target reference.name = some t) : Move p s 1 (s.goto t)
  | call {s : State} {instruction : Instruction} {reference : SymbolRef} {t : ℕ}
      {vm : VirtualMachine} (hplace : p.place s.position = .run instruction)
      (hcall : instruction.machine.opcode = .CALL)
      (hsymbol : instruction.symbol = some reference) (haddend : reference.addend = 0)
      (htarget : p.target reference.name = some t)
      (hpush : s.vm.push (p.returnAddress s.position) 0 = (.ok (), vm)) :
      Move p s 1
        { position := t
          vm
          frames := (vm.cpu.sp, s.position) :: s.frames
          hidden := s.hidden ∪ {x | InRange vm.cpu.sp 8 x} }
  /-- The return address of the innermost call is on top of the stack, as it was pushed. -/
  | ret {s : State} {instruction : Instruction} {c : ℕ} {frames : List (UInt64 × ℕ)}
      {value : UInt64} {vm : VirtualMachine} (hplace : p.place s.position = .run instruction)
      (hret : instruction.machine.opcode = .RET) (hsymbol : instruction.symbol = none)
      (hframes : s.frames = (s.vm.cpu.sp, c) :: frames)
      (hintact : ∀ x, InRange s.vm.cpu.sp 8 x → x ∈ s.hidden)
      (hpop : s.vm.pop 0 = (.ok value, vm)) :
      Move p s 1
        { position := c + 1
          vm
          frames
          hidden := {x | x ∈ s.hidden ∧ ¬InRange s.vm.cpu.sp 8 x} }

/-- The runs of a section. -/
def meaning (p : Program) : Simulation.System State where
  move := Move p
  final s := s.vm.cpu.halted = true

/-- The same is seen of two machines that have stopped. -/
structure SameResult (a b : VirtualMachine) : Prop where
  registers : a.cpu.registers = b.cpu.registers
  sp : a.cpu.sp = b.cpu.sp
  exitCode : a.cpu.exitCode = b.cpu.exitCode
  /-- The captured output is in the provider. -/
  output : a.syscalls = b.syscalls

namespace SameResult

theorem refl (a : VirtualMachine) : SameResult a a := ⟨rfl, rfl, rfl, rfl⟩

theorem symm {a b : VirtualMachine} (h : SameResult a b) : SameResult b a :=
  ⟨h.registers.symm, h.sp.symm, h.exitCode.symm, h.output.symm⟩

theorem trans {a b c : VirtualMachine} (hab : SameResult a b) (hbc : SameResult b c) :
    SameResult a c :=
  ⟨hab.registers.trans hbc.registers, hab.sp.trans hbc.sp, hab.exitCode.trans hbc.exitCode,
    hab.output.trans hbc.output⟩

end SameResult

/-! ### What stands at a position -/

section

variable {symbol : Str → UInt64} {returnAddress : ℕ → UInt64} {slots : List Slot} {i : ℕ}

theorem place_of_getElem? {slot : Slot} (h : slots[i]? = some slot) :
    (Program.ofSlots symbol returnAddress slots).place i = slot.place := by
  show ((slots[i]?).map Slot.place).getD .stop = _
  rw [h]
  rfl

theorem place_of_length_le (h : slots.length ≤ i) :
    (Program.ofSlots symbol returnAddress slots).place i = .stop := by
  show ((slots[i]?).map Slot.place).getD .stop = _
  rw [List.getElem?_eq_none h]
  rfl

theorem Slot.place_eq_run {slot : Slot} {instruction : Instruction} :
    slot.place = .run instruction ↔ slot.live? = some instruction := by
  unfold Slot.place Slot.live?
  split_ifs
  · exact ⟨nofun, nofun⟩
  · cases slot.item <;> simp

theorem place_eq_run {instruction : Instruction} :
    (Program.ofSlots symbol returnAddress slots).place i = .run instruction ↔
      (slots[i]?).bind Slot.live? = some instruction := by
  show ((slots[i]?).map Slot.place).getD .stop = _ ↔ _
  cases slots[i]? with
  | none => exact ⟨nofun, nofun⟩
  | some slot => exact Slot.place_eq_run

theorem place_eq_skip : (Program.ofSlots symbol returnAddress slots).place i = .skip ↔
    ∃ slot, slots[i]? = some slot ∧ (slot.remove = true ∨ ∃ l, slot.item = .label l) := by
  show ((slots[i]?).map Slot.place).getD .stop = _ ↔ _
  cases slots[i]? with
  | none => simp
  | some slot =>
    simp only [Option.map_some, Option.getD_some, Option.some.injEq, exists_eq_left']
    unfold Slot.place
    split_ifs with hremove
    · simp [hremove]
    · cases slot.item <;> simp [hremove]

end

/-! ### What every move keeps -/

/-- The stack is where it is mapped, return addresses lie above the stack pointer, and every open
call is a `CALL`. -/
structure Invariant (p : Program) (s : State) : Prop where
  stack : StackInvariant s.vm
  hidden : ∀ x ∈ s.hidden, s.vm.cpu.sp.toNat ≤ x.toNat
  frames : ∀ f ∈ s.frames, ∃ instruction, p.place f.2 = .run instruction ∧
    instruction.machine.opcode = .CALL

theorem Program.resolve_opcode (p : Program) (instruction : Instruction) :
    (p.resolve instruction).opcode = instruction.machine.opcode := by
  unfold resolve
  split <;> rfl

theorem Program.resolve_dst (p : Program) (instruction : Instruction) :
    (p.resolve instruction).dst = instruction.machine.dst := by
  unfold resolve
  split <;> rfl

theorem Program.resolve_src (p : Program) (instruction : Instruction) :
    (p.resolve instruction).src = instruction.machine.src := by
  unfold resolve
  split <;> rfl

theorem Program.resolve_of_not_symbolic (p : Program) {instruction : Instruction}
    (h : instruction.isSymbolic = false) : p.resolve instruction = instruction.machine := by
  unfold resolve
  unfold Instruction.isSymbolic at h
  cases hsymbol : instruction.symbol with
  | none => rfl
  | some reference =>
    rw [hsymbol] at h
    cases h

/-- Where the stack pointer goes. -/
theorem toNat_sp_of_execute {vm vm' : VirtualMachine} {machine : Isa.Instruction} {pc : UInt64}
    (hbranch : transfers machine.opcode = false)
    (h : vm.execute machine pc = (.ok (), vm')) :
    (machine.opcode = .PUSH ∧ vm'.cpu.sp = vm.cpu.sp - 8 ∧
        vm'.cpu.sp.toNat + 8 = vm.cpu.sp.toNat) ∨
      (machine.opcode = .POP ∧ vm'.cpu.sp = vm.cpu.sp + 8 ∧
        vm'.cpu.sp.toNat = vm.cpu.sp.toNat + 8) ∨
      (pushes machine.opcode = false ∧ pops machine.opcode = false ∧ vm'.cpu.sp = vm.cpu.sp) := by
  have hmoved := @sp_of_execute_ok vm machine pc (by rw [h])
  rw [h] at hmoved
  obtain ⟨-, hdoes⟩ := (execute_eq_ok hbranch).mp h
  by_cases hpush : machine.opcode = .PUSH
  · cases hdoes with
    | push hop hpush =>
      obtain ⟨memory, -, -, rfl, hsp⟩ := push_eq_ok hpush
      exact .inl ⟨hop, rfl, hsp⟩
    | _ hop => simp [hpush, Isa.isBinaryAlu, Isa.isUnaryAlu] at hop
  · by_cases hpop : machine.opcode = .POP
    · cases hdoes with
      | pop hop hpop =>
        obtain ⟨-, -, rfl, hsp⟩ := pop_eq_ok hpop
        exact .inr (.inl ⟨hop, rfl, hsp⟩)
      | _ hop => simp [hpop, Isa.isBinaryAlu, Isa.isUnaryAlu] at hop
    · have hcall : machine.opcode ≠ .CALL := by
        intro hop
        rw [hop] at hbranch
        cases hbranch
      have hret : machine.opcode ≠ .RET := by
        intro hop
        rw [hop] at hbranch
        cases hbranch
      have hpushes : pushes machine.opcode = false := by simp [pushes, hpush, hcall]
      have hpops : pops machine.opcode = false := by simp [pops, hpop, hret]
      unfold movedSp at hmoved
      rw [hpushes, hpops] at hmoved
      exact .inr (.inr ⟨hpushes, hpops, hmoved⟩)

/-- **Every move keeps the invariant.** -/
theorem invariant_move {p : Program} {s s' : State} {c : ℕ} (h : Invariant p s)
    (hmove : Move p s c s') : Invariant p s' := by
  cases hmove with
  | skip hplace => exact ⟨h.stack, h.hidden, h.frames⟩
  | fall => exact ⟨h.stack, h.hidden, h.frames⟩
  | jump => exact ⟨h.stack, h.hidden, h.frames⟩
  | @plain instruction vm hplace hbranch hsymbol hspecified hexecute =>
    have heffect := effect_of_execute s.vm (p.resolve instruction) 0
    rw [hexecute] at heffect
    refine ⟨h.stack.effect heffect, ?_, h.frames⟩
    rintro x ⟨hx, hstores⟩
    have hle := h.hidden x hx
    have hbranch' : transfers (p.resolve instruction).opcode = false := by
      rw [p.resolve_opcode]
      exact hbranch
    rcases toNat_sp_of_execute hbranch' hexecute with ⟨-, -, hsp⟩ | ⟨hpop, -, hsp⟩ | ⟨-, -, hsp⟩
    · show vm.cpu.sp.toNat ≤ x.toNat
      omega
    · -- what is popped is no return address
      have hnot := hspecified.pop hpop x
      unfold InRange at hnot
      show vm.cpu.sp.toNat ≤ x.toNat
      by_contra hlt
      exact hnot ⟨hle, by omega⟩ hx
    · show vm.cpu.sp.toNat ≤ x.toNat
      rw [hsp]
      exact hle
  | @call instruction _ _ _ hplace hcall hsymbol haddend htarget hpush =>
    obtain ⟨memory, hroom, hwrite, rfl, hsp⟩ := push_eq_ok hpush
    have heffect : Effect s.vm instruction.machine
        { s.vm with memory, cpu := { s.vm.cpu with sp := s.vm.cpu.sp - 8 } } :=
      @Effect.push _ _ _ s.vm.cpu.pc _ hroom hwrite
    refine ⟨h.stack.effect heffect, ?_, ?_⟩
    · rintro x (hx | hx)
      · have hle := h.hidden x hx
        dsimp only
        omega
      · exact hx.1
    · intro f hf
      rcases List.mem_cons.mp hf with rfl | hf
      · exact ⟨_, hplace, hcall⟩
      · exact h.frames f hf
  | @ret instruction _ _ _ _ hplace hret hsymbol hframes hintact hpop =>
    obtain ⟨hroom, -, rfl, hsp⟩ := pop_eq_ok hpop
    have heffect : Effect s.vm instruction.machine
        { s.vm with cpu := { s.vm.cpu with sp := s.vm.cpu.sp + 8 } } :=
      @Effect.pop _ _ s.vm.cpu.registers s.vm.cpu.pc hroom
    refine ⟨h.stack.effect heffect, ?_,
      fun f hf => h.frames f (by rw [hframes]; exact List.mem_cons_of_mem _ hf)⟩
    rintro x ⟨hx, hnot⟩
    have hle := h.hidden x hx
    unfold InRange at hnot
    dsimp only
    rw [hsp]
    by_contra hlt
    exact hnot ⟨hle, by omega⟩

/-! ### Where control goes -/

/-- Control does not go on after the instruction. -/
def terminates (opcode : Isa.Opcode) : Bool := (Isa.findOpcode opcode).any (·.isTerminator)

/-- Where control goes from a position, with these calls open. -/
inductive Goes (p : Program) (frames : List (UInt64 × ℕ)) (i : ℕ) : ℕ → Prop
  | skip (hplace : p.place i = .skip) : Goes p frames i (i + 1)
  | next {instruction : Instruction} (hplace : p.place i = .run instruction)
    (hgoes : terminates instruction.machine.opcode = false)
    (hcall : instruction.machine.opcode ≠ .CALL) : Goes p frames i (i + 1)
  | jump {instruction : Instruction} {reference : SymbolRef} {t : ℕ}
    (hplace : p.place i = .run instruction) (hbranch : isBranch instruction.machine.opcode = true)
    (hret : instruction.machine.opcode ≠ .RET) (hsymbol : instruction.symbol = some reference)
    (haddend : reference.addend = 0) (htarget : p.target reference.name = some t) :
    Goes p frames i t
  | ret {instruction : Instruction} {f : UInt64 × ℕ} (hplace : p.place i = .run instruction)
    (hret : instruction.machine.opcode = .RET) (hsymbol : instruction.symbol = none)
    (hframe : f ∈ frames) : Goes p frames i (f.2 + 1)

theorem terminates_of_not_branch {opcode : Isa.Opcode} (h : isBranch opcode = false)
    (hhalt : opcode ≠ .HALT) : terminates opcode = false := by
  cases opcode <;> first | rfl | exact absurd rfl hhalt | cases h

theorem terminates_of_not_taken {opcode : Isa.Opcode} {flags : UInt64} (hret : opcode ≠ .RET)
    (hbranch : isBranch opcode = true) (htaken : Isa.branchTaken opcode flags = false) :
    terminates opcode = false ∧ opcode ≠ .CALL := by
  cases opcode <;>
    first
    | exact ⟨rfl, Isa.Opcode.noConfusion⟩
    | cases hbranch; done
    | cases htaken; done
    | exact absurd rfl hret

/-- A move that does not halt the machine goes where control goes. -/
theorem goes_of_move {p : Program} {s s' : State} {c : ℕ} (hmove : Move p s c s') :
    s'.vm.cpu.halted = true ∨ Goes p s.frames s.position s'.position := by
  cases hmove with
  | skip hplace => exact .inr (.skip hplace)
  | @plain instruction vm hplace hbranch hsymbol hspecified hexecute =>
    by_cases hhalt : instruction.machine.opcode = .HALT
    · left
      have hop : (p.resolve instruction).opcode = .HALT := by rw [p.resolve_opcode, hhalt]
      have hbranch' : transfers (p.resolve instruction).opcode = false := by rw [hop]; rfl
      obtain ⟨-, hdoes⟩ := (execute_eq_ok hbranch').mp hexecute
      cases hdoes with
      | halt => rfl
      | _ hop' => simp [hop, Isa.isBinaryAlu, Isa.isUnaryAlu] at hop'
    · refine .inr (.next hplace (terminates_of_not_branch hbranch hhalt) fun hcall => ?_)
      rw [hcall] at hbranch
      cases hbranch
  | fall hplace hbranch hret htaken =>
    obtain ⟨hgoes, hcall⟩ := terminates_of_not_taken hret hbranch htaken
    exact .inr (.next hplace hgoes hcall)
  | @jump instruction _ _ hplace hbranch hcall htaken hsymbol haddend htarget =>
    refine .inr (.jump hplace hbranch (fun hret => ?_) hsymbol haddend htarget)
    rw [hret] at htaken
    cases htaken
  | @call instruction _ _ _ hplace hcall hsymbol haddend htarget hpush =>
    refine .inr (.jump hplace (by rw [hcall]; rfl) (fun hret => ?_) hsymbol haddend htarget)
    rw [hret] at hcall
    cases hcall
  | ret hplace hret hsymbol hframes hintact hpop =>
    refine .inr (.ret hplace hret hsymbol (?_ : (s.vm.cpu.sp, _) ∈ s.frames))
    rw [hframes]
    exact List.mem_cons_self

/-- The calls that are open after a move were open, or were made by it. -/
theorem frames_of_move {p : Program} {s s' : State} {c : ℕ} (hmove : Move p s c s') :
    ∀ f ∈ s'.frames, f ∈ s.frames ∨ f.2 = s.position := by
  intro f hf
  cases hmove with
  | call =>
    rcases List.mem_cons.mp hf with rfl | hf
    · exact .inr rfl
    · exact .inl hf
  | ret _ _ _ hframes =>
    rw [hframes]
    exact .inl (List.mem_cons_of_mem _ hf)
  | _ => exact .inl hf

/-- A move goes on, to a label, or back to an open call. -/
theorem position_of_move {p : Program} {s s' : State} {c : ℕ} (hmove : Move p s c s') :
    s'.position = s.position + 1 ∨ (∃ name, p.target name = some s'.position) ∨
      ∃ f ∈ s.frames, s'.position = f.2 + 1 := by
  cases hmove with
  | jump _ _ _ _ _ _ htarget => exact .inr (.inl ⟨_, htarget⟩)
  | call _ _ _ _ htarget => exact .inr (.inl ⟨_, htarget⟩)
  | ret _ _ _ hframes => exact .inr (.inr ⟨_, by rw [hframes]; exact List.mem_cons_self, rfl⟩)
  | _ => exact .inl rfl

end Optimizer
end MiniTool
