import MiniToolchain.Optimizer.Correctness
import MiniToolchain.Vm.Embedded

/-!
# The machine does what a section means

When the code of a section lies in the memory of a machine, beside everything the section works on,
the machine takes one step for every instruction of a run of the section.  What is left open in the
meaning of a section is decided here: the addresses of its instructions, and the return addresses.

## Main definitions

* `Encodes`, `Holds` — an instruction, and the code of a section, in memory.
* `Saved` — open calls whose return addresses are intact have them on the stack.
* `Shows` — a machine that stands where a run of a section stands.

## Main results

* `step_of_move` — a move of the section is a step of the machine.
* `runLoop_of_reaches` — a run of the section is a run of the machine.
-/

namespace MiniTool
namespace Optimizer

open Ir Vm Vm.VirtualMemory Vm.VirtualMachine ByteOrder

/-- An instruction of a section, as it is found in memory: branches are relative. -/
structure Encodes (p : Program) (address : ℕ → UInt64) (i : ℕ) (instruction : Instruction)
    (machine : Isa.Instruction) : Prop where
  opcode : machine.opcode = instruction.machine.opcode
  plain : isBranch instruction.machine.opcode = false → machine = p.resolve instruction
  branch : ∀ reference t, isBranch instruction.machine.opcode = true →
    instruction.symbol = some reference → reference.addend = 0 → p.target reference.name = some t →
    Isa.branchTarget (address i) machine.imm = address t

/-- The code of a section, with the address of each position. -/
structure Holds (p : Program) (address : ℕ → UInt64) (code : VirtualMemory) : Prop where
  skip : ∀ i, p.place i = .skip → address (i + 1) = address i
  next : ∀ i instruction, p.place i = .run instruction → address (i + 1) = address i + 8
  fetches : ∀ i instruction, p.place i = .run instruction →
    ∃ machine, Fetches code (address i) machine ∧ Encodes p address i instruction machine
  call : ∀ i instruction, p.place i = .run instruction → instruction.machine.opcode = .CALL →
    p.returnAddress i = address (i + 1)

/-! ### Return addresses on the stack -/

/-- The word at an address. -/
def WordAt (m : VirtualMemory) (address value : UInt64) : Prop :=
  ∀ x, InRange address 8 x → m.byteAt x = (littleEndian 8 value)[x.toNat - address.toNat]?

theorem wordAt_of_writeU64 {m m' : VirtualMemory} {address value : UInt64}
    (h : m.writeU64 address value = .ok m') : WordAt m' address value := by
  intro x hx
  have hinside := (writes_writeU64 m address value).inside m' h x
  rw [length_littleEndian] at hinside
  exact hinside hx

/-- The word at an address is what is read there. -/
theorem WordAt.readU64_eq {m : VirtualMemory} {address value read : UInt64}
    (h : WordAt m address value) (hread : m.readU64 address = .ok read) : read = value := by
  rw [VirtualMemory.readU64_eq] at hread
  cases hbytes : m.readBytes address 8 with
  | error fault =>
    rw [hbytes] at hread
    cases hread
  | ok bytes =>
    rw [hbytes] at hread
    cases hread
    obtain ⟨hlength, hat⟩ := byteAt_of_readBytes (by norm_num) (by norm_num) hbytes
    have hgrants := (isOk_readBytes (by norm_num) (by norm_num)).mp ⟨bytes, hbytes⟩
    obtain ⟨r, hr, -, hfits, -⟩ := hgrants
    have hnoWrap := (m.bounded r hr).2
    have hsame : bytes = littleEndian 8 value := by
      apply List.ext_getElem?
      intro i
      rcases Nat.lt_or_ge i 8 with hi | hi
      · have hcount : (address + UInt64.ofNat i).toNat = address.toNat + i := by
          rw [UInt64.toNat_add, UInt64.toNat_ofNat', Nat.mod_eq_of_lt (a := i) (by omega),
            Nat.mod_eq_of_lt (by omega)]
        have hx : InRange address 8 (address + UInt64.ofNat i) := by
          unfold InRange
          omega
        have hboth := (hat _ hx).symm.trans (h _ hx)
        rwa [hcount, Nat.add_sub_cancel_left] at hboth
      · rw [List.getElem?_eq_none (by omega),
          List.getElem?_eq_none (by rw [length_littleEndian]; exact hi)]
    have hload := load_littleEndian_append (by norm_num : 8 ≤ 8) value.toNat_lt []
    rw [List.append_nil] at hload
    rw [hsame]
    exact hload

/-- An open call whose return address is intact has it on the stack; what an inner call has pushed
over it is not. -/
def Saved (p : Program) (m : VirtualMemory) : Set UInt64 → List (UInt64 × ℕ) → Prop
  | _, [] => True
  | hidden, f :: frames =>
    ((∀ x, InRange f.1 8 x → x ∈ hidden) → WordAt m f.1 (p.returnAddress f.2)) ∧
      Saved p m {x | x ∈ hidden ∧ ¬InRange f.1 8 x} frames

/-- Nothing happens to the return addresses that stay intact. -/
theorem Saved.mono {p : Program} {m m' : VirtualMemory} {hidden hidden' : Set UInt64}
    {frames : List (UInt64 × ℕ)} (h : Saved p m hidden frames) (hsub : ∀ x ∈ hidden', x ∈ hidden)
    (hbytes : ∀ x ∈ hidden', m'.byteAt x = m.byteAt x) : Saved p m' hidden' frames := by
  induction frames generalizing hidden hidden' with
  | nil => trivial
  | cons f frames ih =>
    obtain ⟨hword, hrest⟩ := h
    refine ⟨fun hintact x hx => ?_, ih hrest (fun x hx => ⟨hsub x hx.1, hx.2⟩) fun x hx =>
      hbytes x hx.1⟩
    rw [hbytes x (hintact x hx)]
    exact hword (fun x hx => hsub x (hintact x hx)) x hx

/-! ### A step -/

/-- The machine stands where a run of the section stands. -/
structure Shows (p : Program) (address : ℕ → UInt64) (code : VirtualMemory) (s : State)
    (vm : VirtualMachine) : Prop where
  beside : ∃ memory count, vm = s.vm.beside memory (address s.position) count ∧
    Extends code s.vm.memory memory
  loaded : s.vm.loaded = true
  saved : Saved p s.vm.memory s.hidden s.frames

/-- A jump goes to its target, if it is taken. -/
theorem execute_jump {vm : VirtualMachine} {machine : Isa.Instruction} {pc : UInt64}
    (hdst : Isa.isValidRegister machine.dst = true) (hsrc : Isa.isValidRegister machine.src = true)
    (hbranch : isBranch machine.opcode = true) (hcall : machine.opcode ≠ .CALL)
    (hret : machine.opcode ≠ .RET) : vm.execute machine pc = (.ok (),
      if Isa.branchTaken machine.opcode vm.cpu.flags then vm.setPc (Isa.branchTarget pc machine.imm)
      else vm) := by
  have hother : vm.execute machine pc = vm.executeOther machine pc := by
    unfold execute
    rw [hdst, hsrc, if_neg (by decide)]
    dsimp only
    generalize machine.opcode = opcode at hbranch hcall hret
    cases opcode <;>
      first
      | rfl
      | cases hbranch; done
      | exact absurd rfl hcall
      | exact absurd rfl hret
  rw [hother]
  unfold executeOther
  dsimp only
  unfold isBranch at hbranch
  cases hinfo : Isa.findOpcode machine.opcode with
  | none =>
    rw [hinfo] at hbranch
    cases hbranch
  | some info =>
    rw [hinfo] at hbranch
    dsimp only
    rw [if_pos (show info.isBranch = true from hbranch)]
    split_ifs <;> rfl

theorem execute_call {vm vm' : VirtualMachine} {machine : Isa.Instruction} {pc : UInt64}
    (hdst : Isa.isValidRegister machine.dst = true) (hsrc : Isa.isValidRegister machine.src = true)
    (hop : machine.opcode = .CALL) (hpush : vm.push vm.cpu.pc pc = (.ok (), vm')) :
    vm.execute machine pc = (.ok (), vm'.setPc (Isa.branchTarget pc machine.imm)) := by
  unfold execute
  rw [hdst, hsrc, if_neg (by decide), hop]
  dsimp only
  rw [hpush]

theorem execute_ret {vm vm' : VirtualMachine} {machine : Isa.Instruction} {pc value : UInt64}
    (hdst : Isa.isValidRegister machine.dst = true) (hsrc : Isa.isValidRegister machine.src = true)
    (hop : machine.opcode = .RET) (hpop : vm.pop pc = (.ok value, vm')) :
    vm.execute machine pc = (.ok (), vm'.setPc value) := by
  unfold execute
  rw [hdst, hsrc, if_neg (by decide), hop]
  dsimp only
  rw [hpop]

section

variable {p : Program} {address : ℕ → UInt64} {code : VirtualMemory} {s s' : State} {c : ℕ}
  {vm : VirtualMachine}

/-- The machine executes what stands at the position. -/
theorem Shows.step (h : Shows p address code s vm) (hholds : Holds p address code)
    (hrun : s.vm.cpu.halted = false) {instruction : Instruction}
    (hplace : p.place s.position = .run instruction) :
    ∃ machine memory, Extends code s.vm.memory memory ∧
      Encodes p address s.position instruction machine ∧
      Isa.isValidRegister machine.dst = true ∧ Isa.isValidRegister machine.src = true ∧
      vm.step =
        (s.vm.beside memory (address (s.position + 1)) (vm.cpu.instructionCount + 1)).execute
          machine (address s.position) := by
  obtain ⟨memory, count, rfl, hmemory⟩ := h.beside
  obtain ⟨machine, hfetches, hencodes⟩ := hholds.fetches _ _ hplace
  have hfetch : (s.vm.beside memory (address s.position) count).fetch = .ok machine :=
    fetch_of_extends hfetches hmemory
  obtain ⟨hdst, hsrc⟩ := validRegisters_of_fetch hfetch
  refine ⟨machine, memory, hmemory, hencodes, hdst, hsrc, ?_⟩
  have hstep := @step_of_fetch (s.vm.beside memory (address s.position) count)
    _ h.loaded hrun hfetch
  rw [hstep, hholds.next _ _ hplace]
  rfl

/-- **A move of the section is a step of the machine**, unless nothing is executed. -/
theorem step_of_move (hholds : Holds p address code) (hinv : Invariant p s)
    (h : Shows p address code s vm) (hrun : s.vm.cpu.halted = false) (hmove : Move p s c s') :
    (c = 0 ∧ Shows p address code s' vm) ∨
      (c = 1 ∧ ∃ vm', vm.step = (.ok (), vm') ∧ Shows p address code s' vm' ∧
        vm'.cpu.instructionCount = vm.cpu.instructionCount + 1) := by
  cases hmove with
  | skip hplace =>
    obtain ⟨memory, count, hvm, hmemory⟩ := h.beside
    rw [← hholds.skip _ hplace] at hvm
    exact .inl ⟨rfl, ⟨memory, count, hvm, hmemory⟩, h.loaded, h.saved⟩
  | @plain instruction after hplace hbranch hsymbol hspecified hexecute =>
    obtain ⟨machine, memory, hmemory, hencodes, hdst, hsrc, hstep⟩ :=
      h.step hholds hrun hplace
    obtain rfl := hencodes.plain hbranch
    have hbranch' : transfers (p.resolve instruction).opcode = false := by
      rw [p.resolve_opcode]
      exact hbranch
    obtain ⟨-, hdoes⟩ := (execute_eq_ok hbranch').mp hexecute
    obtain ⟨memory', hdoes', hmemory'⟩ :=
      hdoes.beside hmemory (address (s.position + 1)) (vm.cpu.instructionCount + 1)
    rw [(execute_eq_ok hbranch').mpr ⟨⟨hdst, hsrc⟩, hdoes'⟩] at hstep
    refine .inr ⟨rfl, _, hstep, ⟨⟨memory', _, rfl, hmemory'⟩, ?_, ?_⟩, rfl⟩
    · exact (loaded_of_executes hdoes).trans h.loaded
    · exact h.saved.mono (fun x hx => hx.1) fun x hx => byteAt_of_executes hdoes hx.2
  | @fall instruction hplace hbranch hret htaken =>
    obtain ⟨machine, memory, hmemory, hencodes, hdst, hsrc, hstep⟩ :=
      h.step hholds hrun hplace
    have hop := hencodes.opcode
    have hcall := (terminates_of_not_taken hret hbranch htaken).2
    rw [← hop] at hbranch hret htaken hcall
    rw [execute_jump hdst hsrc hbranch hcall hret, if_neg (by
      rw [show (s.vm.beside memory (address (s.position + 1))
          (vm.cpu.instructionCount + 1)).cpu.flags = s.vm.cpu.flags from rfl, htaken]
      exact Bool.false_ne_true)] at hstep
    exact .inr ⟨rfl, _, hstep, ⟨⟨memory, _, rfl, hmemory⟩, h.loaded, h.saved⟩, rfl⟩
  | @jump instruction reference t hplace hbranch hcall htaken hsymbol haddend htarget =>
    obtain ⟨machine, memory, hmemory, hencodes, hdst, hsrc, hstep⟩ :=
      h.step hholds hrun hplace
    have hgoes := hencodes.branch reference t hbranch hsymbol haddend htarget
    have hret : instruction.machine.opcode ≠ .RET := by
      intro hret
      rw [hret] at htaken
      cases htaken
    have hop := hencodes.opcode
    rw [← hop] at hbranch hret htaken hcall
    rw [execute_jump hdst hsrc hbranch hcall hret, if_pos (by exact htaken), hgoes] at hstep
    exact .inr ⟨rfl, _, hstep, ⟨⟨memory, _, rfl, hmemory⟩, h.loaded, h.saved⟩, rfl⟩
  | @call instruction reference t after hplace hcall hsymbol haddend htarget hpush =>
    obtain ⟨machine, memory, hmemory, hencodes, hdst, hsrc, hstep⟩ :=
      h.step hholds hrun hplace
    have hgoes := hencodes.branch reference t (by rw [hcall]; rfl) hsymbol haddend htarget
    rw [hholds.call _ _ hplace hcall] at hpush
    obtain ⟨memory₁, hroom, hwrite, rfl, -⟩ := push_eq_ok hpush
    obtain ⟨memory₂, hwrite', hmemory'⟩ := hmemory.writeU64 hwrite
    have hpush' := @push_of_room (s.vm.beside memory (address (s.position + 1))
      (vm.cpu.instructionCount + 1)) (address (s.position + 1)) (address s.position)
        memory₂ hroom hwrite'
    rw [execute_call hdst hsrc (hencodes.opcode.trans hcall) hpush', hgoes] at hstep
    refine .inr ⟨rfl, _, hstep, ⟨⟨memory₂, _, rfl, hmemory'⟩, h.loaded, ?_, ?_⟩, rfl⟩
    · rintro -
      have hword := wordAt_of_writeU64 hwrite
      rw [← hholds.call _ _ hplace hcall] at hword
      exact hword
    · refine h.saved.mono (fun x hx => hx.1.resolve_right hx.2) fun x hx => ?_
      have hagree : AgreeOutside {y | InRange (s.vm.cpu.sp - 8) 8 y} memory₁ s.vm.memory :=
        .of_writeU64 hwrite fun y hy => hy
      exact hagree.bytes x hx.2
  | @ret instruction callAt frames value after hplace hret hsymbol hframes hintact hpop =>
    obtain ⟨machine, memory, hmemory, hencodes, hdst, hsrc, hstep⟩ :=
      h.step hholds hrun hplace
    obtain ⟨hroom, hread, rfl, -⟩ := pop_eq_ok hpop
    have hpop' := @pop_of_room (s.vm.beside memory (address (s.position + 1))
      (vm.cpu.instructionCount + 1)) value (address s.position) hroom (hmemory.readU64 hread)
    rw [execute_ret hdst hsrc (hencodes.opcode.trans hret) hpop'] at hstep
    have hsaved := h.saved
    rw [hframes] at hsaved
    obtain ⟨hword, hrest⟩ := hsaved
    -- what is popped is what the call has pushed
    obtain ⟨call, hcall, hop⟩ := hinv.frames (s.vm.cpu.sp, callAt) (by
      rw [hframes]
      exact List.mem_cons_self)
    have hvalue : value = address (callAt + 1) :=
      ((hword hintact).readU64_eq hread).trans (hholds.call _ _ hcall hop)
    subst hvalue
    exact .inr ⟨rfl, _, hstep, ⟨⟨memory, _, rfl, hmemory⟩, h.loaded, hrest⟩, rfl⟩

/-! ### Runs -/

/-- What the machine reports when it has halted. -/
def haltResult (vm : VirtualMachine) : RunResult :=
  { exitCode := vm.cpu.exitCode, instructions := vm.cpu.instructionCount, pc := vm.cpu.pc }

theorem Shows.halted (h : Shows p address code s vm) : vm.cpu.halted = s.vm.cpu.halted := by
  obtain ⟨memory, count, rfl, -⟩ := h.beside
  rfl

/-- **A run of the section is a run of the machine**, step by step. -/
theorem runLoop_of_reaches (hholds : Holds p address code) {n : ℕ}
    (hreaches : (meaning p).Reaches s n s') (hfinal : s'.vm.cpu.halted = true)
    (hinv : Invariant p s) (h : Shows p address code s vm) (executed : ℕ) {budget : ℕ}
    (hbudget : n ≤ budget) :
    ∃ vm', Shows p address code s' vm' ∧ runLoop vm executed budget = (haltResult vm', vm') ∧
      vm'.cpu.instructionCount = vm.cpu.instructionCount + UInt64.ofNat n := by
  induction hreaches generalizing vm executed budget with
  | refl s =>
    refine ⟨vm, h, runLoop_of_halted (h.halted.trans hfinal) executed budget, ?_⟩
    exact (UInt64.add_zero _).symm
  | @step s s₁ s' c n hrun hmove hrest ih =>
    have hrun' : s.vm.cpu.halted = false := Bool.eq_false_iff.mpr hrun
    have hinv' := invariant_move hinv hmove
    rcases step_of_move hholds hinv h hrun' hmove with
      ⟨rfl, hshows⟩ | ⟨rfl, vm₁, hstep, hshows, hcount⟩
    · rw [Nat.zero_add] at hbudget ⊢
      exact ih hfinal hinv' hshows executed hbudget
    · obtain ⟨budget, rfl⟩ : ∃ b, budget = b + 1 := ⟨budget - 1, by omega⟩
      obtain ⟨vm', hshows', hloop, hcount'⟩ :=
        ih hfinal hinv' hshows (executed + 1) (show n ≤ budget by omega)
      refine ⟨vm', hshows', ?_, ?_⟩
      · unfold runLoop
        rw [if_neg (by rw [h.halted]; exact hrun), hstep]
        exact hloop
      · rw [hcount', hcount, UInt64.ofNat_add, UInt64.add_assoc]
        rfl

/-- A machine with the code of a section in its memory, that is to start at a position. -/
theorem shows_enter {memory : VirtualMemory} {count : UInt64} {i : ℕ} (hloaded : vm.loaded = true)
    (hmemory : Extends code vm.memory memory) :
    Shows p address code (.enter vm i) (vm.beside memory (address i) count) :=
  ⟨⟨memory, count, rfl, hmemory⟩, hloaded, trivial⟩

/-- A section that halts is a machine that halts. -/
theorem run_of_halts (hholds : Holds p address code) {memory : VirtualMemory}
    {count budget : UInt64} {i n : ℕ} {f : State} (hstack : StackInvariant vm)
    (hloaded : vm.loaded = true) (hmemory : Extends code vm.memory memory)
    (hhalts : (meaning p).Halts (.enter vm i) n f) (hbudget : n ≤ budget.toNat) :
    ∃ vm', (vm.beside memory (address i) count).run budget = (haltResult vm', vm') ∧
      SameResult f.vm vm' ∧ vm'.cpu.instructionCount = count + UInt64.ofNat n := by
  have hshows : Shows p address code (.enter vm i) (vm.beside memory (address i) count) :=
    shows_enter hloaded hmemory
  obtain ⟨vm', hshows', hloop, hcount⟩ := runLoop_of_reaches hholds hhalts.1 hhalts.2
    (invariant_enter p hstack i) hshows 0 hbudget
  refine ⟨vm', ?_, ?_, hcount⟩
  · unfold VirtualMachine.run
    rw [show (vm.beside memory (address i) count).loaded = true from hloaded, if_neg (by decide)]
    exact hloop
  · obtain ⟨memory', count', rfl, -⟩ := hshows'.beside
    exact ⟨rfl, rfl, rfl, rfl⟩

end

end Optimizer
end MiniTool
