import MiniToolchain.Debugger.Breakpoints
import MiniToolchain.Lib.CallStack
import MiniToolchain.Vm.Faults
import MiniToolchain.Vm.Invariants

/-!
# What `finish` takes for a return

`finish` stops when SP is above its value at the command.  In a program whose calls and returns
match that is the return of the function if the function has nothing of its own on the stack;
otherwise it is the pop of what the function saved last.

## Main definitions

* `stackEvent` — what the next step does to the stack.
* `Matched` — the slots of the stack over a run whose calls and returns match.
* `ReturnsOnly` — `finish` is complete after the return of the function only.

## Main results

* `sp_of_matched` — SP is the height of the slots.
* `returnsOnly_iff` — when `finish` stops at the return of the function.
-/

namespace MiniTool
namespace Debugger

open Vm Isa CallStack

/-! ### The stack of a run -/

/-- What the next step does to the stack: nothing if it faults. -/
def stackEvent (machine : VirtualMachine) : Event UInt64 :=
  if machine.cpu.halted then .none
  else
    match machine.fetch, machine.step.1 with
    | .ok instruction, .ok () =>
      match instruction.opcode with
      | .PUSH => .push
      | .POP => .pop
      | .CALL => .call (machine.cpu.pc + UInt64.ofNat kInstructionSize)
      | .RET => .ret machine.step.2.cpu.pc
      | _ => .none
    | _, _ => .none

/-- The slots of the stack after each step of a run from an empty stack, every RET of which pops the
address that the CALL of its frame has pushed, and every POP a value of its own frame. -/
structure Matched (start : VirtualMachine) (slotsAt : ℕ → List (Slot UInt64)) : Prop where
  bottom : slotsAt 0 = []
  follows : Follows (fun k => stackEvent (start.steps k)) slotsAt

theorem sp_of_execute_error {vm : VirtualMachine} {instruction : Instruction} {pc : UInt64}
    {fault : VMFault} (hdst : isValidRegister instruction.dst = true)
    (hsrc : isValidRegister instruction.src = true)
    (h : (vm.execute instruction pc).1 = .error fault) :
    (vm.execute instruction pc).2.cpu.sp = vm.cpu.sp := by
  by_cases hopcode : instruction.opcode = .SYSCALL
  · unfold VirtualMachine.execute
    rw [hdst, hsrc, hopcode]
    exact VirtualMachine.sp_of_executeSyscall vm instruction pc
  · rw [VirtualMachine.eq_of_execute_error hopcode h]

/-- Where an event of the stack leaves SP. -/
def spAfter (sp : UInt64) : Event UInt64 → UInt64
  | .push | .call _ => sp - 8
  | .pop | .ret _ => sp + 8
  | .none => sp

/-- No other instruction moves SP. -/
theorem sp_of_step {machine : VirtualMachine} (hloaded : machine.loaded = true) :
    machine.step.2.cpu.sp = spAfter machine.cpu.sp (stackEvent machine) := by
  unfold stackEvent
  by_cases hhalted : machine.cpu.halted = true
  · rw [if_pos hhalted, step_of_halted hhalted]
    rfl
  · rw [if_neg hhalted]
    cases hfetch : machine.fetch with
    | error fault =>
      rcases VirtualMachine.step_cases machine with hsame | ⟨_, -, -, hother, -⟩
      · rw [hsame]
        rfl
      · rw [hfetch] at hother
        cases hother
    | ok instruction =>
      have hstep := VirtualMachine.step_of_fetch hloaded (by simpa using hhalted) hfetch
      obtain ⟨hdst, hsrc⟩ := VirtualMachine.validRegisters_of_fetch hfetch
      cases hresult : machine.step.1 with
      | error fault =>
        rw [hstep] at hresult ⊢
        rw [sp_of_execute_error hdst hsrc hresult]
        rfl
      | ok u =>
        have hmoved : machine.step.2.cpu.sp = VirtualMachine.movedSp instruction.opcode
            machine.cpu.sp := by
          rw [hstep] at hresult ⊢
          exact VirtualMachine.sp_of_execute_ok hresult
        rw [hmoved]
        dsimp only
        cases instruction.opcode <;> rfl

/-- The return that an event of the stack reports. -/
theorem ret_of_stackEvent {machine : VirtualMachine} {address : UInt64}
    (h : stackEvent machine = .ret address) :
    machine.step.2.cpu.pc = address ∧
      ∃ instruction, machine.fetch = .ok instruction ∧ instruction.opcode = .RET := by
  unfold stackEvent at h
  split_ifs at h
  split at h
  · next instruction hfetch _ =>
    split at h
    · cases h
    · cases h
    · cases h
    · next hopcode => exact ⟨Event.ret.inj h, instruction, hfetch, hopcode⟩
    · cases h
  · cases h

/-! ### The height of the stack -/

variable {vm start : VirtualMachine} {executable : Executable}
  {slotsAt : ℕ → List (Slot UInt64)}

/-- Eight bytes for each slot, below the top of the stack. -/
theorem sp_of_matched (hload : vm.load executable = (.ok (), start)) (h : Matched start slotsAt)
    (k : ℕ) : (start.steps k).cpu.sp.toNat + 8 * (slotsAt k).length = kStackTop.toNat := by
  induction k with
  | zero =>
    obtain ⟨-, _, _, _, -, -, -, rfl⟩ := VirtualMachine.load_eq_ok hload
    rw [h.bottom]
    rfl
  | succ k ih =>
    have hinv := (VirtualMachine.stackInvariant_of_load hload).runs
      (VirtualMachine.runs_steps start k)
    have htop : kStackTop.toNat = 2147418112 := rfl
    have hsize : kStackSize.toNat = 1048576 := rfl
    have h8 : (8 : UInt64).toNat = 8 := rfl
    have hlow := hinv.low
    have hhigh := hinv.high
    have hsub : ((start.steps k).cpu.sp - 8).toNat = (start.steps k).cpu.sp.toNat - 8 :=
      UInt64.toNat_sub_of_le _ _ (UInt64.le_iff_toNat_le.mpr (by omega))
    have hadd : ((start.steps k).cpu.sp + 8).toNat = (start.steps k).cpu.sp.toNat + 8 := by
      rw [UInt64.toNat_add]
      omega
    rw [VirtualMachine.steps_succ, sp_of_step hinv.loaded]
    have hfollows : (stackEvent (start.steps k)).apply (slotsAt k) = some (slotsAt (k + 1)) :=
      h.follows k
    rcases apply_cases hfollows with
      ⟨hevent, heq⟩ | ⟨hevent, heq⟩ | ⟨address, hevent, heq⟩ | ⟨hevent,
        heq⟩ | ⟨address, hevent, heq⟩
    · rw [hevent, heq]
      exact ih
    · rw [hevent, heq, List.length_cons, spAfter, hsub]
      omega
    · rw [hevent, heq, List.length_cons, spAfter, hsub]
      omega
    · rw [heq, List.length_cons] at ih
      rw [hevent, spAfter, hadd]
      omega
    · rw [heq, List.length_cons] at ih
      rw [hevent, spAfter, hadd]
      omega

/-- SP is above where it was exactly when the stack is shorter. -/
theorem sp_lt_iff_of_matched (hload : vm.load executable = (.ok (), start))
    (h : Matched start slotsAt) (m n : ℕ) :
    (start.steps n).cpu.sp > (start.steps m).cpu.sp ↔ (slotsAt n).length < (slotsAt m).length := by
  have hm := sp_of_matched hload h m
  have hn := sp_of_matched hload h n
  rw [gt_iff_lt, UInt64.lt_iff_toNat_lt]
  omega

/-! ### The return of the frame -/

/-- Before the program ends or the budget is used up, SP does not come above where it is. -/
def StaysBelow (d : Debugger) (budget : UInt64) : Prop :=
  ∀ k < budget.toNat, (∀ j ≤ k, ¬(d.machine.steps j).Stops) →
    ¬(d.machine.steps (k + 1)).cpu.sp > d.machine.cpu.sp

/-- If `finish` reports success, the last instruction was the RET that removed the slot of the
current function and none before it did, and PC is at the address in that slot. -/
def ReturnsOnly (start : VirtualMachine) (slotsAt : ℕ → List (Slot UInt64)) (d : Debugger)
    (budget : UInt64) (address : UInt64) (caller : List (Slot UInt64)) : Prop :=
  (d.finish budget).1.reason = .stepComplete → ∃ last instruction,
    d.log.length ≤ last ∧ (d.finish budget).2.log.length = last + 1 ∧
    (d.finish budget).2.machine = start.steps (last + 1) ∧
    (start.steps last).fetch = .ok instruction ∧ instruction.opcode = .RET ∧
    slotsAt last = .ret address :: caller ∧ slotsAt (last + 1) = caller ∧
    (∀ k, d.log.length ≤ k → k ≤ last → ∃ inner, slotsAt k = inner ++ .ret address :: caller) ∧
    (d.finish budget).2.machine.cpu.pc = address ∧ (d.finish budget).1.pc = address

theorem quiet_iff_not_stops {machine : VirtualMachine} :
    Quiet machine [] ↔ ¬machine.Stops := by
  constructor
  · rintro ⟨hruns, -, hgoes⟩ (⟨fault, hfault⟩ | hhalted)
    · rw [hruns] at hfault
      cases hfault
    · rw [hgoes] at hhalted
      cases hhalted
  · intro h
    refine ⟨?_, rfl, ?_⟩
    · cases hresult : machine.step.1 with
      | error fault => exact absurd (Or.inl ⟨fault, hresult⟩) h
      | ok u => rfl
    · by_contra hhalted
      exact h (Or.inr (by simpa using hhalted))

theorem finish_of_loaded {d : Debugger} (hloaded : d.machine.loaded = true) (budget : UInt64) :
    d.finish budget = d.finishLoop d.machine.cpu.sp budget.toNat := by
  unfold finish
  rw [hloaded]
  rfl

/-- `finish` reports success exactly when SP comes above where it is. -/
theorem finish_stepComplete_iff {d : Debugger} {budget : UInt64} (hloaded : d.machine.loaded = true)
    (hwatch : d.watchpoints = []) :
    (d.finish budget).1.reason = .stepComplete ↔ ¬d.StaysBelow budget := by
  rw [finish_of_loaded hloaded]
  constructor
  · intro hreason hstays
    obtain ⟨n, hn, hbefore, hquiet, habove, -⟩ := finishLoop_stepComplete hreason
    refine hstays n hn (fun j hj => ?_) habove
    rw [← quiet_iff_not_stops, ← hwatch]
    rcases Nat.lt_or_eq_of_le hj with hlt | rfl
    · exact (hbefore j hlt).1
    · exact hquiet
  · intro h
    classical
    have hexists : ∃ k, k < budget.toNat ∧ (∀ j ≤ k, ¬(d.machine.steps j).Stops) ∧
        (d.machine.steps (k + 1)).cpu.sp > d.machine.cpu.sp := by
      unfold StaysBelow at h
      push Not at h
      exact h
    -- the first time that it does
    obtain ⟨hbudget, hstops, habove⟩ := Nat.find_spec hexists
    have hquiet : ∀ j ≤ Nat.find hexists, Quiet (d.machine.steps j) d.watchpoints := by
      intro j hj
      rw [hwatch, quiet_iff_not_stops]
      exact hstops j hj
    refine finishLoop_of_above hbudget (fun j hj => ⟨hquiet j hj.le, fun hearly => ?_⟩)
      (hquiet _ (le_refl _)) habove
    exact Nat.find_min hexists hj
      ⟨hj.trans hbudget, fun i hi => hstops i (hi.trans hj.le), hearly⟩

/-- `finish` reports success after the first step that makes the stack shorter. -/
theorem exists_of_finish (hload : vm.load executable = (.ok (), start))
    (h : Matched start slotsAt) {d : Debugger} (htracks : Tracks start d)
    (hloaded : d.machine.loaded = true) {budget : UInt64}
    (hreason : (d.finish budget).1.reason = .stepComplete) :
    ∃ n, (d.finish budget).2.machine = start.steps (d.log.length + n + 1) ∧
      (d.finish budget).2.log.length = d.log.length + n + 1 ∧
      (d.finish budget).1.pc = (start.steps (d.log.length + n + 1)).cpu.pc ∧
      (∀ k ≤ n, (slotsAt d.log.length).length ≤ (slotsAt (d.log.length + k)).length) ∧
      (slotsAt (d.log.length + n + 1)).length < (slotsAt d.log.length).length := by
  have hsteps : ∀ k, d.machine.steps k = start.steps (d.log.length + k) := by
    intro k
    rw [htracks.machine, VirtualMachine.steps_add]
  rw [finish_of_loaded hloaded] at hreason ⊢
  obtain ⟨n, -, hbefore, -, habove, hmachine, hlog, hpc⟩ := finishLoop_stepComplete hreason
  rw [hsteps] at hmachine hpc habove
  rw [htracks.machine] at habove
  refine ⟨n, hmachine, hlog, hpc, fun k hk => ?_, (sp_lt_iff_of_matched hload h _ _).mp habove⟩
  cases k with
  | zero => exact le_refl _
  | succ k =>
    have hbelow := (hbefore k hk).2
    rw [hsteps, htracks.machine, sp_lt_iff_of_matched hload h] at hbelow
    exact Nat.not_lt.mp hbelow

theorem loaded_of_tracks (hload : vm.load executable = (.ok (), start)) {d : Debugger}
    (h : Tracks start d) : d.machine.loaded = true := by
  rw [h.machine]
  exact ((VirtualMachine.stackInvariant_of_load hload).runs
    (VirtualMachine.runs_steps start _)).loaded

/-- The slots of the stack while `CALL f`, `PUSH R1`, `POP R1` and `RET` are executed. -/
def savesRegisterSlots : ℕ → List (Slot UInt64)
  | 1 => [.ret 0x10008]
  | 2 => [.value, .ret 0x10008]
  | 3 => [.ret 0x10008]
  | _ => []

theorem steps_of_halted {machine : VirtualMachine} (h : machine.cpu.halted = true) (k : ℕ) :
    machine.steps k = machine := by
  induction k with
  | zero => rfl
  | succ k ih => rw [VirtualMachine.steps_succ, ih, step_of_halted h]

/-- A program that halts has to be followed up to there. -/
theorem Matched.of_halted {start : VirtualMachine} {slotsAt : ℕ → List (Slot UInt64)} {n : ℕ}
    (hbottom : slotsAt 0 = [])
    (hfollows : ∀ k < n, (stackEvent (start.steps k)).apply (slotsAt k) = some (slotsAt (k + 1)))
    (hhalted : (start.steps n).cpu.halted = true) (hafter : ∀ k, slotsAt (n + k) = slotsAt n) :
    Matched start slotsAt := by
  refine ⟨hbottom, fun k => ?_⟩
  rcases Nat.lt_or_ge k n with hlt | hge
  · exact hfollows k hlt
  · obtain ⟨k, rfl⟩ := Nat.exists_eq_add_of_le hge
    have hevent : stackEvent (start.steps (n + k)) = .none := by
      rw [← VirtualMachine.steps_add, steps_of_halted hhalted]
      unfold stackEvent
      rw [if_pos hhalted]
    dsimp only
    rw [hevent, hafter, Nat.add_assoc, hafter]
    rfl

theorem matched_savesRegister : Matched savesRegisterStart savesRegisterSlots :=
  .of_halted rfl (show ∀ k < 5, _ by decide) (by decide) fun k => by
    rw [Nat.add_comm 5 k]
    rfl

/-- After `PUSH R1` the program is inside of the function; `finish` stops after `POP R1`. -/
theorem finish_stops_early : VirtualMachine.load {} savesRegister = (.ok (), savesRegisterStart) ∧
    Matched savesRegisterStart savesRegisterSlots ∧
    savesRegisterSlots (session savesRegisterStart savesRegister [.step, .step]).log.length =
      [.value, .ret 0x10008] ∧
    ¬ReturnsOnly savesRegisterStart savesRegisterSlots
      (session savesRegisterStart savesRegister [.step, .step]) 10 0x10008 [] := by
  refine ⟨load_savesRegister, matched_savesRegister, by decide, fun hreturns => ?_⟩
  obtain ⟨last, instruction, -, hlog, -, -, -, hlast, -⟩ := hreturns (by decide)
  have hlength :
      ((session savesRegisterStart savesRegister [.step, .step]).finish 10).2.log.length =
      3 := by decide
  rw [hlength] at hlog
  obtain rfl : last = 2 := by omega
  cases (List.cons.inj hlast).1

/-- In a program whose calls and returns match, without breakpoints and watchpoints and with `saved`
values of the current function on the stack, `finish` stops at nothing but the return of the
function exactly when there are none or it reports no success at all. -/
theorem returnsOnly_iff (hload : vm.load executable = (.ok (), start)) (h : Matched start slotsAt)
    (commands : List Command) (budget : UInt64) {saved : ℕ} {address : UInt64}
    {caller : List (Slot UInt64)}
    (hinside : slotsAt (session start executable commands).log.length =
      List.replicate saved .value ++ .ret address :: caller)
    (hunset : (session start executable commands).breakpoints = [] ∧
      (session start executable commands).watchpoints = []) :
    ReturnsOnly start slotsAt (session start executable commands) budget address caller ↔
      saved = 0 ∨ (session start executable commands).StaysBelow budget := by
  have htracks := Tracks.session start executable commands
  generalize session start executable commands = d at hinside hunset htracks ⊢
  have hloaded := loaded_of_tracks hload htracks
  constructor
  · intro hreturns
    by_cases hreason : (d.finish budget).1.reason = .stepComplete
    · left
      obtain ⟨last, instruction, -, hlog, -, -, -, hlast, -⟩ := hreturns hreason
      obtain ⟨n, -, hlog', -, hlong, hshort⟩ := exists_of_finish hload h htracks hloaded hreason
      have hn : last = d.log.length + n := by omega
      have hsame := (h.follows.first_shorter d.log.length hlong hshort).1
      -- the slot that was removed is the one that was on top
      rw [hn, hsame, hinside] at hlast
      cases saved with
      | zero => rfl
      | succ saved => cases (List.cons.inj hlast).1
    · right
      rwa [finish_stepComplete_iff hloaded hunset.2, not_not] at hreason
  · rintro (rfl | hstays) hreason
    · obtain ⟨n, hmachine, hlog, hpc, hlong, hshort⟩ :=
        exists_of_finish hload h htracks hloaded hreason
      have hinside : slotsAt d.log.length = .ret address :: caller := hinside
      obtain ⟨hsame, ⟨-, hvalue⟩ | ⟨address', hevent, hret⟩⟩ :=
        h.follows.first_shorter d.log.length hlong hshort
      · rw [hinside] at hvalue
        cases (List.cons.inj hvalue).1
      · rw [hinside] at hret
        obtain ⟨hslot, hcaller⟩ := List.cons.inj hret
        cases hslot
        obtain ⟨hreturn, instruction, hfetch, hopcode⟩ := ret_of_stackEvent hevent
        rw [← VirtualMachine.steps_succ] at hreturn
        refine ⟨d.log.length + n, instruction, Nat.le_add_right _ n, hlog, hmachine,
          hfetch, hopcode, hsame.trans hinside, hcaller.symm, fun k hk hlast => ?_, ?_, ?_⟩
        · obtain ⟨j, rfl⟩ := Nat.exists_eq_add_of_le hk
          rw [← hinside]
          exact h.follows.exists_append _ fun i hi => hlong i (by omega)
        · rw [hmachine]
          exact hreturn
        · rw [hpc]
          exact hreturn
    · exact absurd hstays ((finish_stepComplete_iff hloaded hunset.2).mp hreason)

/-- On entry to the function `finish` stops at its return. -/
theorem returnsOnly_savesRegister : ReturnsOnly savesRegisterStart savesRegisterSlots
    (session savesRegisterStart savesRegister [.step]) 10 0x10008 [] := by
  have hinside : savesRegisterSlots
      (session savesRegisterStart savesRegister [.step]).log.length =
        List.replicate 0 .value ++ .ret 0x10008 :: [] := by decide
  exact (returnsOnly_iff load_savesRegister matched_savesRegister [.step] 10 hinside
    ⟨rfl, rfl⟩).mpr (Or.inl rfl)

end Debugger
end MiniTool
