import MiniToolchain.Optimizer.Survivors
import MiniToolchain.Vm.Twins

/-!
# What a push and a pop leave behind

The peephole pass replaces a PUSH and the POP after it by a move, or by nothing.  The registers come
out the same, but the pair has written the word below the stack pointer, and a program can read
there.  What follows shows a difference exactly when it reads a byte of that word that the pair has
changed, before anything writes it again.

## Main definitions

* `rewritePair` — what takes the place of a PUSH and a POP.
* `executePair`, `executeRewritten` — the pair, and what takes its place.
* `pushedOver` — the bytes below the stack pointer that the pair changes.
* `Unobservable` — no continuation step shows which of the two was executed.

## Main results

* `unobservable_iff` — when the replacement does not show.
-/

namespace MiniTool
namespace Optimizer

open Vm Vm.VirtualMemory Vm.VirtualMachine ByteOrder

/-- What takes the place of a PUSH and a POP. -/
def rewritePair (first second : Isa.Instruction) : Option Isa.Instruction :=
  if first.dst = second.dst then none
  else some { first with opcode := .MOV, dst := second.dst, src := first.dst }

/-! ### The two ways -/

section

variable (vm : VirtualMachine) (first second : Isa.Instruction) (pc pc' : UInt64)

/-- The pair, at the addresses `pc` and `pc'`. -/
def executePair : VirtualMachine.Outcome :=
  match vm.execute first pc with
  | (.ok (), vm) => vm.execute second pc'
  | (.error fault, vm) => (.error fault, vm)

/-- What takes its place. -/
def executeRewritten : VirtualMachine.Outcome :=
  match rewritePair first second with
  | none => (.ok (), vm)
  | some machine => vm.execute machine pc

/-- The bytes below the stack pointer that the pair changes. -/
def pushedOver : Set UInt64 :=
  {x | InRange (vm.cpu.sp - 8) 8 x ∧ vm.memory.byteAt x ≠
    (littleEndian 8 (vm.cpu.registers first.dst.slot))[x.toNat - (vm.cpu.sp - 8).toNat]?}

end

variable {vm vm' : VirtualMachine} {instruction first second : Isa.Instruction} {pc pc' : UInt64}

theorem valid_of_execute (h : vm.execute instruction pc = (.ok (), vm')) :
    Isa.isValidRegister instruction.dst = true ∧ Isa.isValidRegister instruction.src = true := by
  unfold VirtualMachine.execute at h
  split_ifs at h with hinvalid
  · cases h
  · simpa using hinvalid

section

variable (hdst : Isa.isValidRegister instruction.dst = true)
  (hsrc : Isa.isValidRegister instruction.src = true)

include hdst hsrc

theorem execute_push (hop : instruction.opcode = .PUSH) :
    vm.execute instruction pc = vm.push (vm.cpu.registers instruction.dst.slot) pc := by
  unfold VirtualMachine.execute
  rw [hdst, hsrc, hop]
  rfl

theorem execute_pop (hop : instruction.opcode = .POP) {value : UInt64}
    (h : vm.pop pc = (.ok value, vm')) :
    vm.execute instruction pc = (.ok (), vm'.setRegister instruction.dst.slot value) := by
  unfold VirtualMachine.execute
  rw [hdst, hsrc, hop, h]
  rfl

theorem execute_pop_error (hop : instruction.opcode = .POP) {fault : VMFault}
    (h : vm.pop pc = (.error fault, vm')) : vm.execute instruction pc = (.error fault, vm') := by
  unfold VirtualMachine.execute
  rw [hdst, hsrc, hop, h]
  rfl

theorem execute_mov (hop : instruction.opcode = .MOV) : vm.execute instruction pc =
    (.ok (), vm.setRegister instruction.dst.slot (vm.cpu.registers instruction.src.slot)) := by
  unfold VirtualMachine.execute
  rw [hdst, hsrc, hop]
  rfl

end

theorem setRegister_self (vm : VirtualMachine) (slot : Fin 16) :
    vm.setRegister slot (vm.cpu.registers slot) = vm := by
  have hset : vm.cpu.registers.set slot (vm.cpu.registers slot) = vm.cpu.registers := by
    funext i
    unfold Registers.set
    split_ifs with h
    · rw [h]
    · rfl
  unfold VirtualMachine.setRegister
  rw [hset]

/-- What takes the place of the pair moves the register. -/
theorem executeRewritten_eq (hfirst : Isa.isValidRegister first.dst = true)
    (hsecond : Isa.isValidRegister second.dst = true) : executeRewritten vm first second pc =
      (.ok (), vm.setRegister second.dst.slot (vm.cpu.registers first.dst.slot)) := by
  unfold executeRewritten rewritePair
  by_cases hsame : first.dst = second.dst
  · rw [if_pos hsame, hsame, setRegister_self]
  · rw [if_neg hsame]
    exact @execute_mov vm
      { first with opcode := .MOV, dst := second.dst, src := first.dst } pc hsecond hfirst rfl

/-- The memories differ in the bytes pushed over. -/
theorem differAt_pushedOver {memory : VirtualMemory}
    (hwrite : vm.memory.writeU64 (vm.cpu.sp - 8) (vm.cpu.registers first.dst.slot) = .ok memory) :
    DifferAt (pushedOver vm first) memory vm.memory := by
  have hwrites := writes_writeU64 vm.memory (vm.cpu.sp - 8) (vm.cpu.registers first.dst.slot)
  have hlength := length_littleEndian 8 (vm.cpu.registers first.dst.slot)
  have hshapes := hwrites.shapes
  have hinside := hwrites.inside memory hwrite
  have houtside := hwrites.outside
  rw [hlength] at hinside houtside
  rw [hwrite] at hshapes houtside
  refine ⟨hshapes, heapNext_of_writeU64 hwrite, fun x => ?_⟩
  constructor
  · rintro ⟨hrange, hne⟩ heq
    exact hne ((hinside x hrange).symm.trans heq).symm
  · intro hne
    have hrange : InRange (vm.cpu.sp - 8) 8 x := by
      by_contra hnot
      exact hne (houtside x hnot)
    exact ⟨hrange, fun heq => hne ((hinside x hrange).trans heq.symm)⟩

/-- They lie just below the stack pointer, which is not at the bottom of the address space. -/
theorem below_pushedOver {value : UInt64} {memory : VirtualMemory}
    (hwrite : vm.memory.writeU64 (vm.cpu.sp - 8) value = .ok memory) :
    Below vm.cpu.sp.toNat (pushedOver vm first) vm := by
  have hok := (writes_writeU64 vm.memory (vm.cpu.sp - 8) value).isOk.mp ⟨memory, hwrite⟩
  rw [length_littleEndian] at hok
  obtain ⟨r, hr, -, hfits, -⟩ := hok
  have hnoWrap := (vm.memory.bounded r hr).2
  have hlt := vm.cpu.sp.toNat_lt
  have height : (8 : UInt64).toNat = 8 := rfl
  have hsub := UInt64.toNat_sub vm.cpu.sp 8
  rw [height] at hsub
  have hroom : 8 ≤ vm.cpu.sp.toNat := by omega
  refine ⟨hroom, fun x hx => ?_, fun _ => ⟨0, rfl⟩⟩
  obtain ⟨hlow, hhigh⟩ := hx.1
  omega

/-- **The pair and what takes its place leave machines that differ in the bytes pushed over.** -/
theorem executeRewritten_of_executePair (hpush : first.opcode = .PUSH) (hpop : second.opcode = .POP)
    (h : executePair vm first second pc pc' = (.ok (), vm')) :
    ∃ memory replaced, executeRewritten vm first second pc = (.ok (), replaced) ∧
      vm' = { replaced with memory } ∧ DifferAt (pushedOver vm first) memory replaced.memory ∧
      Below vm.cpu.sp.toNat (pushedOver vm first) replaced := by
  unfold executePair at h
  cases hfirst : vm.execute first pc with
  | mk result pushed =>
  rw [hfirst] at h
  cases result with
  | error fault => cases h
  | ok u =>
    dsimp only at h
    obtain ⟨hdst, hsrc⟩ := valid_of_execute hfirst
    obtain ⟨hdst', hsrc'⟩ := valid_of_execute h
    rw [execute_push hdst hsrc hpush] at hfirst
    rcases push_cases vm (vm.cpu.registers first.dst.slot) pc with
      ⟨fault, hcase⟩ | ⟨memory, -, hwrite, hcase⟩
    · rw [hcase] at hfirst
      cases hfirst
    · rw [hcase] at hfirst
      cases hfirst
      generalize hpushed : ({ vm with memory, cpu := { vm.cpu with sp := vm.cpu.sp - 8 } } :
        VirtualMachine) = pushed at h
      rcases pop_cases pushed pc' with ⟨fault, hcase'⟩ | ⟨value, -, hread, hcase'⟩
      · rw [execute_pop_error hdst' hsrc' hpop hcase'] at h
        cases h
      · -- what is popped is what was pushed
        subst hpushed
        have hshapes := (change_of_writeU64 hwrite).shapes_eq
        have hgrants := (grants_of_shapes hshapes).mp ((isOk_readU64 memory _).mp ⟨value, hread⟩)
        have hback := readU64_of_writeU64 hwrite hgrants
        obtain rfl := Except.ok.inj (hback.symm.trans hread)
        rw [execute_pop hdst' hsrc' hpop hcase'] at h
        cases h
        refine ⟨memory, _, executeRewritten_eq hdst hdst', ?_, differAt_pushedOver hwrite, ?_⟩
        · dsimp only [setRegister]
          rw [UInt64.sub_add_cancel]
        · have hbelow := @below_pushedOver vm first _ _ hwrite
          exact ⟨hbelow.room, hbelow.word, hbelow.sp⟩

/-- No later step shows whether the pair was executed or what takes its place: the same program goes
on from where the pair ended. -/
def Unobservable (program : UInt64 → Except VMFault Isa.Instruction) (vm : VirtualMachine)
    (first second : Isa.Instruction) (pc pc' : UInt64) : Prop :=
  ∀ k, SameView ((executePair vm first second pc pc').2.continueWith program k)
    ((executeRewritten vm first second pc).2.continueWith program k)

/-- **The replacement does not show exactly when nothing that follows reads a byte pushed over.** -/
theorem unobservable_iff (hpush : first.opcode = .PUSH) (hpop : second.opcode = .POP)
    (h : (executePair vm first second pc pc').1 = .ok ())
    (program : UInt64 → Except VMFault Isa.Instruction) :
    Unobservable program vm first second pc pc' ↔
      ∀ k, Unread program k (pushedOver vm first) (executeRewritten vm first second pc).2 := by
  cases hpair : executePair vm first second pc pc' with
  | mk result after =>
  rw [hpair] at h
  cases h
  obtain ⟨memory, replaced, hreplaced, rfl, hdiffer, hbelow⟩ :=
    executeRewritten_of_executePair hpush hpop hpair
  unfold Unobservable
  rw [hpair, hreplaced]
  constructor
  · intro hsame k
    exact unread_of_sameView hdiffer hbelow hsame k
  · intro hunread k
    exact sameView_of_unread hdiffer hbelow (hunread k)

/-! ### A program that reads below the stack pointer -/

/-- A machine with 1 in `R0`. -/
def one : VirtualMachine := loadedNop.setRegister 0 1

/-- LOAD R1, [R2 + 0x7FFEFFF8]: the word below the top of the stack. -/
def peek : Isa.Instruction := { opcode := .LOAD, dst := ⟨1⟩, src := ⟨2⟩, imm := 0x7FFEFFF8 }

/-- After PUSH R0 and POP R0 the LOAD finds 1 there, and without them 0. -/
theorem peek_shows :
    (executePair one { opcode := .PUSH } { opcode := .POP } 0 8).1 = .ok () ∧
      ¬Unobservable (fun _ => .ok peek) one { opcode := .PUSH } { opcode := .POP } 0 8 := by
  refine ⟨by rfl, fun h => ?_⟩
  have hregister := congrFun (h 1).registers 1
  have hpair : ((executePair one { opcode := .PUSH } { opcode := .POP } 0 8).2.continueWith
    (fun _ => .ok peek) 1).2.cpu.registers 1 = 1 := by rfl
  have hrewritten : ((executeRewritten one { opcode := .PUSH } { opcode := .POP } 0).2.continueWith
    (fun _ => .ok peek) 1).2.cpu.registers 1 = 0 := by rfl
  rw [hpair, hrewritten] at hregister
  cases hregister

/-- The same pair before a HALT. -/
theorem unobservable_iff_halt :
    Unobservable (fun _ => .ok { opcode := .HALT }) one { opcode := .PUSH } { opcode := .POP } 0 8 ↔
      ∀ k, Unread (fun _ => .ok { opcode := .HALT }) k (pushedOver one { opcode := .PUSH })
        (executeRewritten one { opcode := .PUSH } { opcode := .POP } 0).2 :=
  unobservable_iff rfl rfl (by rfl) _

end Optimizer
end MiniTool
