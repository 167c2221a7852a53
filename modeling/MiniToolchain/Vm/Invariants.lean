import MiniToolchain.Vm.Step

/-!
# Invariants of the machine

What holds in every state a loaded machine reaches, whatever it executes and however it faults.

## Main definitions

* `StackInvariant` — where SP can be, and the bits of FLAGS.
* `pushes`, `pops` — the instructions that use the stack.
* `movedSp` — where an instruction leaves SP.

## Main results

* `memory_map_invariant` — the regions stay those of `load`, none is both writable and executable,
  and what is not writable never changes.
* `stack_invariant` — the stack faults at its two ends and nowhere else.
-/

namespace MiniTool
namespace Vm

open Checked Isa

namespace VirtualMachine

variable {vm start reached : VirtualMachine} {executable : Executable}

/-! ### Writable or executable -/

theorem hasPermission_write_permissionsOf (flags : Executable.SegmentFlags) :
    hasPermission (permissionsOf flags) Permission.write =
      Executable.hasFlag flags Executable.SegmentFlags.write := by
  unfold permissionsOf
  cases Executable.hasFlag flags Executable.SegmentFlags.read <;>
    cases Executable.hasFlag flags Executable.SegmentFlags.write <;>
    cases Executable.hasFlag flags Executable.SegmentFlags.exec <;> rfl

theorem hasPermission_exec_permissionsOf (flags : Executable.SegmentFlags) :
    hasPermission (permissionsOf flags) Permission.exec =
      Executable.hasFlag flags Executable.SegmentFlags.exec := by
  unfold permissionsOf
  cases Executable.hasFlag flags Executable.SegmentFlags.read <;>
    cases Executable.hasFlag flags Executable.SegmentFlags.write <;>
    cases Executable.hasFlag flags Executable.SegmentFlags.exec <;> rfl

/-- No region of a loaded machine is both writable and executable. -/
theorem write_xor_execute_of_load (h : vm.load executable = (.ok (), start)) :
    ∀ r ∈ start.memory.regions, hasPermission r.permissions Permission.write = false ∨
      hasPermission r.permissions Permission.exec = false := by
  intro r hr
  rw [regions_of_load h, List.mem_append] at hr
  rcases hr with hr | hr
  · obtain ⟨segment, hsegment, rfl⟩ := List.mem_map.mp hr
    have hvalid := (Executable.validate_eq_ok.mp (load_eq_ok h).1).segments segment hsegment
    rw [regionOf, hasPermission_write_permissionsOf, hasPermission_exec_permissionsOf,
      ← Bool.and_eq_false_iff, ← Bool.not_eq_true, Bool.and_eq_true]
    exact hvalid.writeXorExec
  · right
    rcases List.mem_pair.mp hr with rfl | rfl
    · rfl
    · rfl

/-- A region that is not writable is the region of `load`, byte for byte. -/
theorem getElem?_of_runs (hruns : Runs start reached) {i : ℕ} {r : Region}
    (hr : start.memory.regions[i]? = some r)
    (hwrite : hasPermission r.permissions Permission.write = false) :
    reached.memory.regions[i]? = some r :=
  memory_induction (motive := fun m => m.regions[i]? = some r)
    (fun _ _ ih hchange => hchange.getElem?_of_not_writable ih hwrite) hr hruns

/-- In every state of every run of a loaded executable, the regions are those of `load`, none is
both writable and executable, what is not writable holds the bytes of `load`, and the next step
changes bytes of at most one region, all of them inside of it. -/
theorem memory_map_invariant (hload : vm.load executable = (.ok (), start))
    (hruns : Runs start reached) :
    reached.memory.shapes = start.memory.shapes ∧
      (∀ r ∈ reached.memory.regions, hasPermission r.permissions Permission.write = false ∨
        hasPermission r.permissions Permission.exec = false) ∧
      (∀ (i : ℕ) (r : Region), start.memory.regions[i]? = some r →
        hasPermission r.permissions Permission.write = false →
          reached.memory.regions[i]? = some r) ∧
      ∃ k, ∀ (i : ℕ) (r r' : Region) (offset : ℕ), reached.memory.regions[i]? = some r →
        reached.step.2.memory.regions[i]? = some r' → r'.data offset ≠ r.data offset →
          i = k ∧ offset < r.size.toNat := by
  refine ⟨shapes_of_runs hruns, ?_, fun i r hr hwrite => getElem?_of_runs hruns hr hwrite,
    (change_of_step reached).one_region⟩
  intro r hr
  have hshape : r.shape ∈ start.memory.shapes := by
    rw [← shapes_of_runs hruns]
    exact List.mem_map_of_mem hr
  obtain ⟨r', hr', hsame⟩ := List.mem_map.mp hshape
  have hpermissions : r'.permissions = r.permissions := congrArg (·.2.2.2) hsame
  rw [← hpermissions]
  exact write_xor_execute_of_load hload r' hr'

/-- Before the PUSH of `underflow`: the step writes to the stack, and to nothing else. -/
theorem memory_map_invariant_underflow :
    (loadedUnderflow.steps 1).memory.shapes = loadedUnderflow.memory.shapes ∧
      (∀ r ∈ (loadedUnderflow.steps 1).memory.regions,
        hasPermission r.permissions Permission.write = false ∨
          hasPermission r.permissions Permission.exec = false) ∧
      (loadedUnderflow.steps 1).memory.regions[0]? = loadedUnderflow.memory.regions[0]? ∧
      ∀ (i : ℕ) (r r' : Region) (offset : ℕ),
        (loadedUnderflow.steps 1).memory.regions[i]? = some r →
          (loadedUnderflow.steps 2).memory.regions[i]? = some r' →
            r'.data offset ≠ r.data offset → i = 1 := by
  obtain ⟨hshapes, hexclusive, hsame, k, hk⟩ :=
    memory_map_invariant load_underflow (runs_steps loadedUnderflow 1)
  refine ⟨hshapes, hexclusive, hsame 0 _ rfl (by decide), fun i r r' offset hr hr' hne => ?_⟩
  -- the value pushed is 7, where there was a 0
  have hpushed := hk 1 _ _ (stackRegion.size.toNat - 8) rfl rfl (by decide)
  rw [(hk i r r' offset hr hr' hne).1, ← hpushed.1]

/-! ### The stack -/

/-- Where SP can be, on a stack mapped where `load` maps it, and the bits of FLAGS. -/
structure StackInvariant (vm : VirtualMachine) : Prop where
  loaded : vm.loaded = true
  mapped : stackRegion.shape ∈ vm.memory.shapes
  top : vm.stackTop = kStackTop
  limit : vm.stackLimit = kStackTop - kStackSize
  low : kStackTop.toNat - kStackSize.toNat ≤ vm.cpu.sp.toNat
  high : vm.cpu.sp.toNat ≤ kStackTop.toNat
  aligned : vm.cpu.sp.toNat % 8 = 0
  flags : vm.cpu.flags &&& ~~~kFlagsMask = 0

theorem masked_and_not_mask (flags : UInt64) : flags &&& kFlagsMask &&& ~~~kFlagsMask = 0 := by
  rw [UInt64.and_assoc]
  simp

theorem flags_of_flagsFrom {cpu cpu' : CPUState} (hflags : cpu.flags &&& ~~~kFlagsMask = 0)
    (h : FlagsFrom cpu cpu') : cpu'.flags &&& ~~~kFlagsMask = 0 := by
  rcases h with h | ⟨flags, h⟩
  · rw [h]
    exact hflags
  · rw [h]
    exact masked_and_not_mask flags

theorem stackInvariant_of_load (h : vm.load executable = (.ok (), start)) :
    StackInvariant start := by
  have hregions := regions_of_load h
  obtain ⟨-, segments, stack, heap, -, -, -, rfl⟩ := load_eq_ok h
  have haligned : kStackTop.toNat % 8 = 0 := by decide
  refine ⟨rfl, ?_, rfl, rfl, Nat.sub_le _ _, le_refl _, haligned, UInt64.zero_and⟩
  rw [VirtualMemory.shapes, hregions]
  simp

theorem StackInvariant.effect {vm' : VirtualMachine} {instruction : Instruction}
    (h : StackInvariant vm) (heffect : Effect vm instruction vm') : StackInvariant vm' := by
  have hmapped : stackRegion.shape ∈ vm'.memory.shapes := by
    rw [(change_of_effect heffect).shapes_eq]
    exact h.mapped
  have htop : kStackTop.toNat = 2147418112 := rfl
  have hsize : kStackSize.toNat = 1048576 := rfl
  have hlimit : (kStackTop - kStackSize + 8).toNat = 2146369544 := rfl
  have h8 : (8 : UInt64).toNat = 8 := rfl
  obtain ⟨loaded, -, top, limit, low, high, aligned, flags⟩ := h
  cases heffect with
  | compute hsp hflags =>
    refine ⟨loaded, hmapped, top, limit, ?_, ?_, ?_, flags_of_flagsFrom flags hflags⟩
    · exact hsp ▸ low
    · exact hsp ▸ high
    · exact hsp ▸ aligned
  | store hwrite => exact ⟨loaded, hmapped, top, limit, low, high, aligned, flags⟩
  | push hroom hwrite =>
    rw [limit, UInt64.lt_iff_toNat_lt] at hroom
    have hsp : (vm.cpu.sp - 8).toNat = vm.cpu.sp.toNat - 8 :=
      UInt64.toNat_sub_of_le _ _ (UInt64.le_iff_toNat_le.mpr (by omega))
    refine ⟨loaded, hmapped, top, limit, ?_, ?_, ?_, flags⟩
    · show _ ≤ (vm.cpu.sp - 8).toNat
      omega
    · show (vm.cpu.sp - 8).toNat ≤ _
      omega
    · show (vm.cpu.sp - 8).toNat % 8 = 0
      omega
  | pop hroom =>
    rw [top, UInt64.lt_iff_toNat_lt] at hroom
    have hsp : (vm.cpu.sp + 8).toNat = vm.cpu.sp.toNat + 8 := by
      rw [UInt64.toNat_add]
      omega
    refine ⟨loaded, hmapped, top, limit, ?_, ?_, ?_, flags⟩
    · show _ ≤ (vm.cpu.sp + 8).toNat
      omega
    · show (vm.cpu.sp + 8).toNat ≤ _
      omega
    · show (vm.cpu.sp + 8).toNat % 8 = 0
      omega
  | syscall hsp hflags hopcode =>
    refine ⟨loaded, hmapped, top, limit, ?_, ?_, ?_, ?_⟩
    · exact hsp ▸ low
    · exact hsp ▸ high
    · exact hsp ▸ aligned
    · exact hflags ▸ flags

theorem StackInvariant.advance (h : StackInvariant vm) : StackInvariant vm.advance :=
  ⟨h.loaded, h.mapped, h.top, h.limit, h.low, h.high, h.aligned, h.flags⟩

theorem StackInvariant.runs (h : StackInvariant start) (hruns : Runs start reached) :
    StackInvariant reached := by
  induction hruns with
  | refl => exact h
  | tail _ hadvance ih =>
    cases hadvance with
    | step => exact step_induction _ ih fun _ _ _ heffect => ih.advance.effect heffect
    | provide =>
      exact ⟨ih.loaded, ih.mapped, ih.top, ih.limit, ih.low, ih.high, ih.aligned, ih.flags⟩

/-- The instructions that push. -/
def pushes (opcode : Opcode) : Bool := opcode = .PUSH || opcode = .CALL

def pops (opcode : Opcode) : Bool := opcode = .POP || opcode = .RET

/-- Where an instruction that does not fault leaves SP. -/
def movedSp (opcode : Opcode) (sp : UInt64) : UInt64 :=
  if pushes opcode then sp - 8
  else if pops opcode then sp + 8
  else sp

theorem sp_of_executeSyscall (vm : VirtualMachine) (instruction : Instruction) (pc : UInt64) :
    (vm.executeSyscall instruction pc).2.cpu.sp = vm.cpu.sp := by
  unfold executeSyscall
  dsimp only
  split
  · rfl
  · split_ifs <;> rfl

theorem sp_of_executeOther (vm : VirtualMachine) (instruction : Instruction) (pc : UInt64) :
    (vm.executeOther instruction pc).2.cpu.sp = vm.cpu.sp := by
  unfold executeOther
  dsimp only
  split_ifs
  · rfl
  · rfl
  · split <;> rfl
  · split <;> rfl

theorem validRegisters_of_execute_ok {vm : VirtualMachine} {instruction : Instruction} {pc : UInt64}
    (h : (vm.execute instruction pc).1 = .ok ()) :
    isValidRegister instruction.dst = true ∧ isValidRegister instruction.src = true := by
  unfold execute at h
  dsimp only at h
  split_ifs at h with hinvalid
  simpa using hinvalid

/-- Only pushes and pops move SP. -/
theorem sp_of_execute_ok {vm : VirtualMachine} {instruction : Instruction} {pc : UInt64}
    (h : (vm.execute instruction pc).1 = .ok ()) :
    (vm.execute instruction pc).2.cpu.sp = movedSp instruction.opcode vm.cpu.sp := by
  unfold execute at h ⊢
  dsimp only at h ⊢
  split_ifs at h ⊢
  split at h
  · next hopcode =>
    rw [hopcode]
    rfl
  · next hopcode =>
    rw [hopcode]
    rfl
  · next hopcode =>
    rw [hopcode]
    exact sp_of_executeSyscall vm instruction pc
  · next hopcode =>
    rw [hopcode]
    rfl
  · next hopcode =>
    rw [hopcode]
    rfl
  · next hopcode =>
    rw [hopcode]
    rfl
  · next hopcode =>
    rw [hopcode]
    split at h
    · cases h
    · rfl
  · next hopcode =>
    rw [hopcode]
    split at h
    · cases h
    · rfl
  · next hopcode =>
    rw [hopcode]
    rcases push_cases vm (vm.cpu.registers instruction.dst.slot) pc with
      ⟨_, hpush⟩ | ⟨_, -, -, hpush⟩
    · rw [hpush] at h
      cases h
    · rw [hpush]
      rfl
  · next hopcode =>
    rw [hopcode]
    rcases pop_cases vm pc with ⟨_, hpop⟩ | ⟨_, -, -, hpop⟩
    · rw [hpop] at h
      cases h
    · rw [hpop]
      rfl
  · next hopcode =>
    rw [hopcode]
    rcases push_cases vm vm.cpu.pc pc with ⟨_, hpush⟩ | ⟨_, -, -, hpush⟩
    · rw [hpush] at h
      cases h
    · rw [hpush]
      rfl
  · next hopcode =>
    rw [hopcode]
    rcases pop_cases vm pc with ⟨_, hpop⟩ | ⟨_, -, -, hpop⟩
    · rw [hpop] at h
      cases h
    · rw [hpop]
      rfl
  · next hpush hpop hcall hret =>
    have hpushes : pushes instruction.opcode = false := by
      simpa [pushes] using ⟨hpush, hcall⟩
    have hpops : pops instruction.opcode = false := by
      simpa [pops] using ⟨hpop, hret⟩
    rw [sp_of_executeOther, movedSp, hpushes, hpops]
    rfl

section

variable (vm : VirtualMachine) {instruction : Instruction} (pc : UInt64)
  (hdst : isValidRegister instruction.dst = true) (hsrc : isValidRegister instruction.src = true)

include hdst hsrc

/-- PUSH and CALL fault as the push does. -/
theorem execute_of_pushes (h : pushes instruction.opcode = true) :
    ∃ value, (vm.execute instruction pc).1 = (vm.push value pc).1 := by
  unfold execute
  simp only [hdst, hsrc, Bool.not_true, Bool.or_self, Bool.false_eq_true, if_false]
  simp only [pushes, Bool.or_eq_true, decide_eq_true_eq] at h
  rcases h with h | h
  · exact ⟨vm.cpu.registers instruction.dst.slot, by rw [h]⟩
  · refine ⟨vm.cpu.pc, ?_⟩
    rw [h]
    rcases push_cases vm vm.cpu.pc pc with ⟨fault, hpush⟩ | ⟨memory, -, -, hpush⟩
    · simp only [hpush]
    · simp only [hpush]

/-- POP and RET fault as the pop does. -/
theorem execute_of_pops (h : pops instruction.opcode = true) (fault : VMFault) :
    (vm.execute instruction pc).1 = .error fault ↔ (vm.pop pc).1 = .error fault := by
  unfold execute
  simp only [hdst, hsrc, Bool.not_true, Bool.or_self, Bool.false_eq_true, if_false]
  simp only [pops, Bool.or_eq_true, decide_eq_true_eq] at h
  rcases h with h | h
  · rw [h]
    rcases pop_cases vm pc with ⟨fault', hpop⟩ | ⟨value, -, -, hpop⟩
    · simp only [hpop]
      simp
    · simp [hpop]
  · rw [h]
    rcases pop_cases vm pc with ⟨fault', hpop⟩ | ⟨value, -, -, hpop⟩
    · simp only [hpop]
      simp
    · simp [hpop]

end

/-! ### The two ends of the stack -/

/-- The stack below its top can be accessed. -/
theorem StackInvariant.checkAccess (h : StackInvariant vm) (address : UInt64)
    (needed : Permission) (hneeded : hasPermission readWrite needed = true)
    (hlow : kStackTop.toNat - kStackSize.toNat ≤ address.toNat)
    (hhigh : address.toNat + 8 ≤ kStackTop.toNat) :
    ∃ r, vm.memory.checkAccess address 8 needed = .ok r := by
  obtain ⟨r, hr, hshape⟩ := List.mem_map.mp h.mapped
  have hbase : r.base = kStackTop - kStackSize := congrArg (·.2.1) hshape
  have hsize : r.size = kStackSize := congrArg (·.2.2.1) hshape
  have hpermissions : r.permissions = readWrite := congrArg (·.2.2.2) hshape
  have hbase' : r.base.toNat = kStackTop.toNat - kStackSize.toNat := by
    rw [hbase]
    rfl
  have hstop : r.stop = kStackTop.toNat := by
    rw [Region.stop, hbase', hsize]
    rfl
  have h8 : (8 : UInt64).toNat = 8 := rfl
  refine ⟨r, VirtualMemory.checkAccess_eq_ok.mpr ⟨hr, ?_, ?_, ?_⟩⟩
  · rw [Region.contains_iff, hbase', hstop]
    omega
  · rw [hstop, h8]
    exact hhigh
  · rw [hpermissions]
    exact hneeded

theorem StackInvariant.writeU64 (h : StackInvariant vm)
    (hsp : vm.cpu.sp ≠ kStackTop - kStackSize) (value : UInt64) :
    ∃ memory, vm.memory.writeU64 (vm.cpu.sp - 8) value = .ok memory := by
  have htop : kStackTop.toNat = 2147418112 := rfl
  have hsize : kStackSize.toNat = 1048576 := rfl
  have hlimit : (kStackTop - kStackSize).toNat = 2146369536 := rfl
  have h8 : (8 : UInt64).toNat = 8 := rfl
  have hlow := h.low
  have hhigh := h.high
  have haligned := h.aligned
  have hne : vm.cpu.sp.toNat ≠ (kStackTop - kStackSize).toNat :=
    fun heq => hsp (UInt64.toNat_inj.mp heq)
  have hsub : (vm.cpu.sp - 8).toNat = vm.cpu.sp.toNat - 8 :=
    UInt64.toNat_sub_of_le _ _ (UInt64.le_iff_toNat_le.mpr (by omega))
  obtain ⟨r, hr⟩ := h.checkAccess (vm.cpu.sp - 8) Permission.write rfl
    (by omega) (by omega)
  exact ⟨_, bind_eq_ok.mpr ⟨r, hr, rfl⟩⟩

theorem StackInvariant.readU64 (h : StackInvariant vm) (hsp : vm.cpu.sp ≠ kStackTop) :
    ∃ value, vm.memory.readU64 vm.cpu.sp = .ok value := by
  have htop : kStackTop.toNat = 2147418112 := rfl
  have hlow := h.low
  have hhigh := h.high
  have haligned := h.aligned
  have hne : vm.cpu.sp.toNat ≠ kStackTop.toNat := fun heq => hsp (UInt64.toNat_inj.mp heq)
  obtain ⟨r, hr⟩ := h.checkAccess vm.cpu.sp Permission.read rfl hlow
    (by omega)
  exact ⟨_, bind_eq_ok.mpr ⟨r, hr, rfl⟩⟩

theorem StackInvariant.push (h : StackInvariant vm) (value pc : UInt64) :
    (∀ fault, (vm.push value pc).1 = .error fault → fault.error = .stackOverflow) ∧
      ((∃ fault, (vm.push value pc).1 = .error fault) ↔ vm.cpu.sp = kStackTop - kStackSize) := by
  have hlimit : (kStackTop - kStackSize + 8).toNat = (kStackTop - kStackSize).toNat + 8 := rfl
  unfold VirtualMachine.push
  by_cases hsp : vm.cpu.sp = kStackTop - kStackSize
  · rw [if_pos]
    · exact ⟨fun fault hfault => by cases hfault; rfl, fun _ => hsp, fun _ => ⟨_, rfl⟩⟩
    · rw [h.limit, hsp, UInt64.lt_iff_toNat_lt, hlimit]
      omega
  · rw [if_neg]
    · obtain ⟨memory, hwrite⟩ := h.writeU64 hsp value
      simp only [hwrite]
      simp [hsp]
    · obtain ⟨-, -, -, limit, low, high, aligned, -⟩ := h
      rw [limit, UInt64.lt_iff_toNat_lt, hlimit]
      have htop : kStackTop.toNat = 2147418112 := rfl
      have hsize : kStackSize.toNat = 1048576 := rfl
      have hbottom : (kStackTop - kStackSize).toNat = 2146369536 := rfl
      have hne : vm.cpu.sp.toNat ≠ (kStackTop - kStackSize).toNat :=
        fun heq => hsp (UInt64.toNat_inj.mp heq)
      omega

theorem StackInvariant.pop (h : StackInvariant vm) (pc : UInt64) :
    (∀ fault, (vm.pop pc).1 = .error fault → fault.error = .stackUnderflow) ∧
      ((∃ fault, (vm.pop pc).1 = .error fault) ↔ vm.cpu.sp = kStackTop) := by
  unfold VirtualMachine.pop
  by_cases hsp : vm.cpu.sp = kStackTop
  · rw [if_pos]
    · exact ⟨fun fault hfault => by cases hfault; rfl, fun _ => hsp, fun _ => ⟨_, rfl⟩⟩
    · rw [h.top, hsp]
      exact UInt64.le_refl _
  · rw [if_neg]
    · obtain ⟨value, hread⟩ := h.readU64 hsp
      simp only [hread]
      simp [hsp]
    · rw [h.top, ge_iff_le, UInt64.le_iff_toNat_le]
      have hhigh := h.high
      have hne : vm.cpu.sp.toNat ≠ kStackTop.toNat := fun heq => hsp (UInt64.toNat_inj.mp heq)
      omega

/-- In every state of every run, SP is a multiple of eight inside the stack and FLAGS has no bit
outside its mask; the instructions that push fault exactly at the limit of the stack, as an
overflow, those that pop exactly at its top, as an underflow, and elsewhere their access
succeeds. -/
theorem stack_invariant (hload : vm.load executable = (.ok (), start))
    (hruns : Runs start reached) :
    (kStackTop - kStackSize ≤ reached.cpu.sp ∧ reached.cpu.sp ≤ kStackTop ∧
        reached.cpu.sp % 8 = 0 ∧ reached.cpu.flags &&& ~~~kFlagsMask = 0) ∧
      ∀ instruction, reached.cpu.halted = false → reached.fetch = .ok instruction →
        (pushes instruction.opcode = true →
          ((∃ fault, reached.step.1 = .error fault) ↔
              reached.cpu.sp = kStackTop - kStackSize) ∧
            (∀ fault, reached.step.1 = .error fault → fault.error = .stackOverflow) ∧
            (reached.cpu.sp ≠ kStackTop - kStackSize → ∀ value, ∃ memory,
              reached.memory.writeU64 (reached.cpu.sp - 8) value = .ok memory)) ∧
        (pops instruction.opcode = true →
          ((∃ fault, reached.step.1 = .error fault) ↔ reached.cpu.sp = kStackTop) ∧
            (∀ fault, reached.step.1 = .error fault → fault.error = .stackUnderflow) ∧
            (reached.cpu.sp ≠ kStackTop →
              ∃ value, reached.memory.readU64 reached.cpu.sp = .ok value)) := by
  have h := (stackInvariant_of_load hload).runs hruns
  have hzero : ∀ x : UInt64, x.toNat % 8 = 0 → x % 8 = 0 := by
    intro x hx
    apply UInt64.toNat_inj.mp
    rw [UInt64.toNat_mod]
    exact hx
  refine ⟨⟨UInt64.le_iff_toNat_le.mpr h.low, UInt64.le_iff_toNat_le.mpr h.high,
    hzero _ h.aligned, h.flags⟩, fun instruction hhalted hfetch => ?_⟩
  obtain ⟨hdst, hsrc⟩ := validRegisters_of_fetch hfetch
  rw [step_of_fetch h.loaded hhalted hfetch]
  constructor
  · intro hpushes
    obtain ⟨value, hvalue⟩ := execute_of_pushes reached.advance reached.cpu.pc hdst hsrc hpushes
    obtain ⟨hkind, hiff⟩ := h.advance.push value reached.cpu.pc
    rw [hvalue]
    exact ⟨hiff, hkind, fun hsp value => h.writeU64 hsp value⟩
  · intro hpops
    obtain ⟨hkind, hiff⟩ := h.advance.pop reached.cpu.pc
    simp only [execute_of_pops _ _ hdst hsrc hpops]
    exact ⟨hiff, hkind, fun hsp => h.readU64 hsp⟩

/-- The PUSH of `underflow` does not fault, and its second POP is an underflow. -/
theorem stack_invariant_underflow :
    ((loadedUnderflow.steps 2).cpu.sp % 8 = 0 ∧
        (loadedUnderflow.steps 2).cpu.flags &&& ~~~kFlagsMask = 0) ∧
      (¬∃ fault, (loadedUnderflow.steps 1).step.1 = .error fault) ∧
      ∃ fault, (loadedUnderflow.steps 3).step.1 = .error fault ∧ fault.error = .stackUnderflow := by
  obtain ⟨⟨-, -, haligned, hflags⟩, -⟩ :=
    stack_invariant load_underflow (runs_steps loadedUnderflow 2)
  obtain ⟨-, hpush⟩ := stack_invariant load_underflow (runs_steps loadedUnderflow 1)
  obtain ⟨-, hpop⟩ := stack_invariant load_underflow (runs_steps loadedUnderflow 3)
  have hpushes := (hpush { opcode := .PUSH, dst := .ofNat 1 } (by decide) (by rfl)).1 rfl
  obtain ⟨hfaults, hkind, -⟩ :=
    (hpop { opcode := .POP, dst := .ofNat 3 } (by decide) (by rfl)).2 rfl
  obtain ⟨fault, hfault⟩ := hfaults.mpr (by decide)
  exact ⟨⟨haligned, hflags⟩, fun h => absurd (hpushes.1.mp h) (by decide),
    fault, hfault, hkind fault hfault⟩

end VirtualMachine

end Vm
end MiniTool
