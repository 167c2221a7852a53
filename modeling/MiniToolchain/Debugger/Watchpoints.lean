import MiniToolchain.Debugger.Breakpoints
import MiniToolchain.Vm.Faults
import MiniToolchain.Vm.ReadWrite

/-!
# Which writes stop a program

A watchpoint remembers the eight bytes it has seen last.  The check after an instruction looks for a
watchpoint whose bytes are others, remembers them and looks no further: of two watchpoints that one
instruction changes, the second is reported by a later one.

## Main definitions

* `ChangesTo`, `OnlyOne` — what the next instruction does to the watchpoints.
* `Remembers` — every watchpoint remembers the bytes that are there.
* `Watches` — a command stops for the changes, and for nothing else.

## Main results

* `checkWatchpoints_cases` — what the check finds.
* `Remembers.singleStep` — a step that changes only one watchpoint leaves them all up to date.
* `allWatched_of_onlyOne` — what a session has to avoid.
-/

namespace MiniTool
namespace Vm
namespace VirtualMachine

/-! ### The memory of one step -/

/-- A call that fails has written nothing. -/
theorem memory_of_invoke_error {provider : DefaultSyscallProvider} {number : UInt64}
    {context : SyscallContext} {e : String} (h : (provider.invoke number context).1 = .error e) :
    (provider.invoke number context).2.2.memory = context.memory := by
  unfold DefaultSyscallProvider.invoke at h ⊢
  cases hnumber : SyscallNumber.ofValue number with
  | none => rfl
  | some call =>
    rw [hnumber] at h
    cases call with
    | exit => rfl
    | write => exact DefaultSyscallProvider.memory_of_doWrite provider context
    | read =>
      -- the bytes are stored in one piece or not at all
      dsimp only at h ⊢
      unfold DefaultSyscallProvider.doRead at h ⊢
      dsimp only at h ⊢
      split_ifs at h ⊢
      · rfl
      · rfl
      · split at h
        · rfl
        · cases h
    | allocate =>
      exfalso
      replace h : (provider.doAllocate context).1 = .error e := h
      unfold DefaultSyscallProvider.doAllocate at h
      dsimp only at h
      split at h <;> cases h

/-- An instruction that faults has written nothing. -/
theorem memory_of_step_error {vm : VirtualMachine} {fault : VMFault}
    (h : vm.step.1 = .error fault) : vm.step.2.memory = vm.memory := by
  rcases step_cases vm with hsame | ⟨instruction, -, -, hfetch, hstep⟩
  · rw [hsame]
  · rw [hstep] at h ⊢
    by_cases hopcode : instruction.opcode = .SYSCALL
    · rw [execute_of_syscall hfetch hopcode] at h ⊢
      obtain ⟨e, he⟩ := isError_executeSyscall.mp ⟨fault, h⟩
      have hmemory := memory_of_invoke_error he
      unfold executeSyscall
      dsimp only
      rw [he]
      exact hmemory
    · rw [eq_of_execute_error hopcode h]
      rfl

/-- What can be read before a step can be read after it. -/
theorem exists_readU64_step (vm : VirtualMachine) {address value : UInt64}
    (h : vm.memory.readU64 address = .ok value) :
    ∃ value', vm.step.2.memory.readU64 address = .ok value' := by
  have hshapes : vm.step.2.memory.shapes = vm.memory.shapes :=
    shapes_of_runs (runs_steps vm 1)
  rw [VirtualMemory.isOk_readU64, VirtualMemory.grants_of_shapes hshapes,
    ← VirtualMemory.isOk_readU64]
  exact ⟨value, h⟩

end VirtualMachine
end Vm

namespace Debugger

open Vm Isa

/-! ### What a step changes -/

/-- The next instruction changes the bytes of an enabled watchpoint. -/
structure ChangesTo (machine : VirtualMachine) (watchpoint : Watchpoint) (before after : UInt64) :
    Prop where
  enabled : watchpoint.enabled = true
  old : machine.memory.readU64 watchpoint.address = .ok before
  new : machine.step.2.memory.readU64 watchpoint.address = .ok after
  changed : after ≠ before

/-- Of no two watchpoints both are changed by the next instruction. -/
def OnlyOne (machine : VirtualMachine) (watchpoints : List Watchpoint) : Prop :=
  machine.step.1 = .ok () → watchpoints.Pairwise fun first second =>
    ¬((∃ before after, ChangesTo machine first before after) ∧
      ∃ before after, ChangesTo machine second before after)

/-- How a change is reported. -/
def report (machine : VirtualMachine) (watchpoint : Watchpoint) (before after : UInt64) :
    StopEvent :=
  let address := Binary.hexText 1 watchpoint.address.toNat
  let before := Binary.hexText 1 before.toNat
  let after := Binary.hexText 1 after.toNat
  { reason := .watchpoint, pc := machine.cpu.pc,
    message := s!"[{watchpoint.id}] 0x{address}: 0x{before} -> 0x{after}" }

/-- Every enabled watchpoint remembers the bytes that are there. -/
def Remembers (machine : VirtualMachine) (watchpoints : List Watchpoint) : Prop :=
  ∀ watchpoint ∈ watchpoints, watchpoint.enabled = true →
    machine.memory.readU64 watchpoint.address = .ok watchpoint.previous

/-- Of the instructions that a command executed without a fault, those that changed a watchpoint
ended it with a report of every watchpoint they changed, and no other ended it with such a
report. -/
structure Watches (d : Debugger) (result : StopEvent × Debugger) : Prop where
  stops : ∀ j < d.performed result.2, (d.machine.steps j).step.1 = .ok () →
    ((∃ watchpoint ∈ d.watchpoints, ∃ before after,
        ChangesTo (d.machine.steps j) watchpoint before after) ↔
      j + 1 = d.performed result.2 ∧ result.1.reason = .watchpoint)
  reports : ∀ j < d.performed result.2, (d.machine.steps j).step.1 = .ok () →
    ∀ watchpoint ∈ d.watchpoints, ∀ before after,
      ChangesTo (d.machine.steps j) watchpoint before after →
        result.1 = report (d.machine.steps (j + 1)) watchpoint before after

/-! ### What the check finds -/

/-- The bytes of an enabled watchpoint are others than it remembers. -/
def Differs (machine : VirtualMachine) (watchpoint : Watchpoint) (value : UInt64) : Prop :=
  watchpoint.enabled = true ∧ machine.memory.readU64 watchpoint.address = .ok value ∧
    value ≠ watchpoint.previous

/-- The check finds nothing, or the first watchpoint that differs, which it brings up to date. -/
theorem checkWatchpoints_cases (machine : VirtualMachine) (watchpoints : List Watchpoint) :
    (checkWatchpoints machine watchpoints = none ∧
        ∀ watchpoint ∈ watchpoints, ∀ value, ¬Differs machine watchpoint value) ∨
      ∃ earlier watchpoint later value,
        watchpoints = earlier ++ watchpoint :: later ∧ Differs machine watchpoint value ∧
          checkWatchpoints machine watchpoints =
            some (report machine watchpoint watchpoint.previous value,
              earlier ++ { watchpoint with previous := value } :: later) := by
  induction watchpoints with
  | nil => exact Or.inl ⟨rfl, fun _ h => absurd h List.not_mem_nil⟩
  | cons watchpoint watchpoints ih =>
    -- a watchpoint that does not differ is passed over
    have hpassed : (∀ value, ¬Differs machine watchpoint value) →
        checkWatchpoints machine (watchpoint :: watchpoints) =
          (checkWatchpoints machine watchpoints).map fun found =>
            (found.1, watchpoint :: found.2) := by
      intro hsame
      conv_lhs => unfold checkWatchpoints
      dsimp only
      split_ifs with henabled
      · rfl
      · split
        · rfl
        · next value hread =>
          have hprevious : value = watchpoint.previous := by
            by_contra hdiffers
            exact hsame value ⟨by simpa using henabled, hread, hdiffers⟩
          rw [if_pos hprevious]
    by_cases hdiffers : ∃ value, Differs machine watchpoint value
    · obtain ⟨value, hvalue⟩ := hdiffers
      right
      refine ⟨[], watchpoint, watchpoints, value, rfl, hvalue, ?_⟩
      obtain ⟨henabled, hread, hne⟩ := hvalue
      unfold checkWatchpoints
      dsimp only
      rw [henabled, hread]
      exact if_neg hne
    · have hsame : ∀ value, ¬Differs machine watchpoint value := not_exists.mp hdiffers
      rw [hpassed hsame]
      rcases ih with ⟨hnone, hall⟩ | ⟨earlier, found, later, value, hsplit, hvalue, hcheck⟩
      · left
        rw [hnone]
        refine ⟨rfl, fun other hother value => ?_⟩
        rcases List.mem_cons.mp hother with rfl | hmem
        · exact hsame value
        · exact hall other hmem value
      · right
        rw [hcheck, hsplit]
        exact ⟨watchpoint :: earlier, found, later, value, rfl, hvalue, rfl⟩

/-! ### One step -/

/-- A watchpoint that is up to date differs after the step exactly when the step changes it. -/
theorem differs_iff {machine : VirtualMachine} {watchpoint : Watchpoint} {value : UInt64}
    (h : watchpoint.enabled = true → machine.memory.readU64 watchpoint.address =
      .ok watchpoint.previous) :
    Differs machine.step.2 watchpoint value ↔
      ChangesTo machine watchpoint watchpoint.previous value :=
  ⟨fun ⟨henabled, hread, hne⟩ => ⟨henabled, h henabled, hread, hne⟩,
    fun hchanges => ⟨hchanges.enabled, hchanges.new, hchanges.changed⟩⟩

/-- What a watchpoint that is up to date is changed from. -/
theorem before_of_changesTo {machine : VirtualMachine} {watchpoint : Watchpoint}
    {before after : UInt64} (hchanges : ChangesTo machine watchpoint before after)
    (h : watchpoint.enabled = true → machine.memory.readU64 watchpoint.address =
      .ok watchpoint.previous) :
    before = watchpoint.previous := by
  have hold := hchanges.old
  rw [h hchanges.enabled] at hold
  exact (Except.ok.inj hold).symm

/-- A watchpoint that the step does not change stays up to date. -/
theorem readU64_of_not_changesTo {machine : VirtualMachine} {watchpoint : Watchpoint}
    (h : watchpoint.enabled = true → machine.memory.readU64 watchpoint.address =
      .ok watchpoint.previous)
    (hsame : ¬∃ before after, ChangesTo machine watchpoint before after)
    (henabled : watchpoint.enabled = true) :
    machine.step.2.memory.readU64 watchpoint.address = .ok watchpoint.previous := by
  obtain ⟨value, hvalue⟩ := VirtualMachine.exists_readU64_step machine (h henabled)
  by_cases hprevious : value = watchpoint.previous
  · rw [hvalue, hprevious]
  · exact absurd ⟨_, _, henabled, h henabled, hvalue, hprevious⟩ hsame

/-- A step that the loops do not stop at changes no watchpoint. -/
theorem Quiet.not_changesTo {machine : VirtualMachine} {watchpoints : List Watchpoint}
    (hquiet : Quiet machine watchpoints) (h : Remembers machine watchpoints)
    {watchpoint : Watchpoint} (hmem : watchpoint ∈ watchpoints) {before after : UInt64} :
    ¬ChangesTo machine watchpoint before after := by
  intro hchanges
  have hbefore := before_of_changesTo hchanges (h watchpoint hmem)
  rw [hbefore] at hchanges
  have hdiffers := (differs_iff (h watchpoint hmem)).mpr hchanges
  rcases checkWatchpoints_cases machine.step.2 watchpoints with
    ⟨-, hall⟩ | ⟨_, _, _, _, -, -, hcheck⟩
  · exact hall watchpoint hmem after hdiffers
  · rw [hquiet.unchanged] at hcheck
    cases hcheck

theorem Quiet.remembers {machine : VirtualMachine} {watchpoints : List Watchpoint}
    (hquiet : Quiet machine watchpoints) (h : Remembers machine watchpoints) :
    Remembers machine.step.2 watchpoints := by
  intro watchpoint hmem
  refine readU64_of_not_changesTo (h watchpoint hmem) ?_
  rintro ⟨before, after, hchanges⟩
  exact hquiet.not_changesTo h hmem hchanges

/-- What a step that does not fault leaves, and what it reports. -/
theorem singleStep_of_ok {d : Debugger} (hhalted : d.machine.cpu.halted = false)
    (h : d.machine.step.1 = .ok ()) :
    d.singleStep.1 = (classify d.machine.step.2 d.watchpoints).1 ∧
      d.singleStep.2.watchpoints = (classify d.machine.step.2 d.watchpoints).2 := by
  have hrunning : ¬d.machine.cpu.halted = true := by simp [hhalted]
  unfold singleStep
  rw [if_neg hrunning]
  cases hstep : d.machine.step with
  | mk outcome machine =>
    rw [hstep] at h
    cases h
    exact ⟨rfl, rfl⟩

/-- After a fault the watchpoints are those from before. -/
theorem watchpoints_of_error {d : Debugger} {fault : VMFault}
    (h : d.machine.step.1 = .error fault) : d.singleStep.2.watchpoints = d.watchpoints := by
  unfold singleStep
  split_ifs
  · rfl
  · cases hstep : d.machine.step with
    | mk outcome machine =>
      rw [hstep] at h
      cases h
      rfl

/-- Beside a watchpoint that is changed no other is. -/
theorem OnlyOne.not_changesTo {machine : VirtualMachine} {earlier later : List Watchpoint}
    {found watchpoint : Watchpoint} {before after : UInt64}
    (hone : OnlyOne machine (earlier ++ found :: later)) (hok : machine.step.1 = .ok ())
    (hfound : ChangesTo machine found before after)
    (hmem : watchpoint ∈ earlier ∨ watchpoint ∈ later) :
    ¬∃ before after, ChangesTo machine watchpoint before after := by
  intro hchanges
  obtain ⟨-, hlater, hearlier⟩ := List.pairwise_append.mp (hone hok)
  rcases hmem with hmem | hmem
  · exact hearlier watchpoint hmem found List.mem_cons_self ⟨hchanges, _, _, hfound⟩
  · exact (List.pairwise_cons.mp hlater).1 watchpoint hmem ⟨⟨_, _, hfound⟩, hchanges⟩

/-- The watchpoints of a debugger are up to date. -/
def UpToDate (d : Debugger) : Prop := Remembers d.machine d.watchpoints

theorem performed_of_halted {d : Debugger} (h : d.machine.cpu.halted = true) :
    d.performed d.singleStep.2 = 0 := by
  rw [(singleStep_of_halted h).1, performed, Nat.sub_self]

theorem performed_of_running {d : Debugger} (h : d.machine.cpu.halted = false) :
    d.performed d.singleStep.2 = 1 := by
  rw [performed, (singleStep_of_running h).log, List.length_append, List.length_singleton]
  omega

/-- What a single step has to report. -/
theorem watches_singleStep {d : Debugger}
    (h : d.machine.cpu.halted = false → d.machine.step.1 = .ok () →
      ((∃ watchpoint ∈ d.watchpoints, ∃ before after,
          ChangesTo d.machine watchpoint before after) ↔ d.singleStep.1.reason = .watchpoint) ∧
        ∀ watchpoint ∈ d.watchpoints, ∀ before after,
          ChangesTo d.machine watchpoint before after →
            d.singleStep.1 = report d.machine.step.2 watchpoint before after) :
    Watches d d.singleStep := by
  cases hhalted : d.machine.cpu.halted with
  | true =>
    have hperformed := performed_of_halted hhalted
    refine ⟨fun j hj => ?_, fun j hj => ?_⟩
    · rw [hperformed] at hj
      exact absurd hj (Nat.not_lt_zero j)
    · rw [hperformed] at hj
      exact absurd hj (Nat.not_lt_zero j)
  | false =>
    have hperformed := performed_of_running hhalted
    refine ⟨fun j hj hok => ?_, fun j hj hok => ?_⟩
    · rw [hperformed] at hj ⊢
      obtain rfl := Nat.lt_one_iff.mp hj
      exact (h hhalted hok).1.trans ⟨fun hreason => ⟨rfl, hreason⟩, fun hboth => hboth.2⟩
    · rw [hperformed] at hj
      obtain rfl := Nat.lt_one_iff.mp hj
      exact (h hhalted hok).2

/-- A step after which the check finds nothing. -/
theorem UpToDate.of_none {d : Debugger} (h : d.UpToDate) (hhalted : d.machine.cpu.halted = false)
    (hok : d.machine.step.1 = .ok ())
    (hcheck : checkWatchpoints d.machine.step.2 d.watchpoints = none)
    (hall : ∀ watchpoint ∈ d.watchpoints, ∀ value, ¬Differs d.machine.step.2 watchpoint value) :
    Watches d d.singleStep ∧ d.singleStep.2.UpToDate := by
  obtain ⟨hevent, hwatchpoints⟩ := singleStep_of_ok hhalted hok
  have hsame : ∀ watchpoint ∈ d.watchpoints, ∀ before after,
      ¬ChangesTo d.machine watchpoint before after := by
    intro watchpoint hmem before after hchanges
    rw [before_of_changesTo hchanges (h watchpoint hmem)] at hchanges
    exact hall watchpoint hmem after ((differs_iff (h watchpoint hmem)).mpr hchanges)
  constructor
  · refine watches_singleStep fun _ _ => ⟨⟨?_, fun hreason => ?_⟩, fun watchpoint hmem before after
      hchanges => absurd hchanges (hsame watchpoint hmem before after)⟩
    · rintro ⟨watchpoint, hmem, before, after, hchanges⟩
      exact absurd hchanges (hsame watchpoint hmem before after)
    · exfalso
      rw [hevent] at hreason
      unfold classify at hreason
      rw [hcheck] at hreason
      dsimp only at hreason
      split_ifs at hreason
  · unfold UpToDate
    rw [(singleStep_of_running hhalted).machine, hwatchpoints, (classify_of_none hcheck).1]
    intro watchpoint hmem
    refine readU64_of_not_changesTo (h watchpoint hmem) ?_
    rintro ⟨before, after, hchanges⟩
    exact hsame watchpoint hmem before after hchanges

/-- A step after which the check finds the only watchpoint that was changed. -/
theorem UpToDate.of_some {d : Debugger} (h : d.UpToDate) (hhalted : d.machine.cpu.halted = false)
    (hok : d.machine.step.1 = .ok ()) (hone : OnlyOne d.machine d.watchpoints)
    {earlier later : List Watchpoint} {found : Watchpoint} {value : UInt64}
    (hsplit : d.watchpoints = earlier ++ found :: later)
    (hdiffers : Differs d.machine.step.2 found value)
    (hcheck : checkWatchpoints d.machine.step.2 d.watchpoints =
      some (report d.machine.step.2 found found.previous value,
        earlier ++ { found with previous := value } :: later)) :
    Watches d d.singleStep ∧ d.singleStep.2.UpToDate := by
  obtain ⟨hevent, hwatchpoints⟩ := singleStep_of_ok hhalted hok
  have hclassify : classify d.machine.step.2 d.watchpoints =
      (report d.machine.step.2 found found.previous value,
        earlier ++ { found with previous := value } :: later) := by
    unfold classify
    rw [hcheck]
  rw [hclassify] at hevent hwatchpoints
  have hmem : ∀ {watchpoint}, watchpoint ∈ d.watchpoints ↔
      watchpoint = found ∨ watchpoint ∈ earlier ∨ watchpoint ∈ later := by
    intro watchpoint
    rw [hsplit, List.mem_append, List.mem_cons]
    exact or_left_comm
  have hfound := (differs_iff (h found (hmem.mpr (Or.inl rfl)))).mp hdiffers
  have hothers : ∀ {watchpoint}, watchpoint ∈ earlier ∨ watchpoint ∈ later →
      ¬∃ before after, ChangesTo d.machine watchpoint before after := by
    intro watchpoint hother
    rw [hsplit] at hone
    exact hone.not_changesTo hok hfound hother
  constructor
  · refine watches_singleStep fun _ _ => ⟨⟨fun _ => ?_, fun _ => ?_⟩, ?_⟩
    · rw [hevent]
      rfl
    · exact ⟨found, hmem.mpr (Or.inl rfl), _, _, hfound⟩
    · intro watchpoint hwatched before after hchanges
      rcases hmem.mp hwatched with rfl | hother
      · obtain rfl := before_of_changesTo hchanges (h watchpoint hwatched)
        have hnew := hchanges.new
        rw [hfound.new] at hnew
        rw [hevent, Except.ok.inj hnew]
      · exact absurd ⟨before, after, hchanges⟩ (hothers hother)
  · unfold UpToDate
    rw [(singleStep_of_running hhalted).machine, hwatchpoints]
    intro watchpoint hwatched
    have hcases : watchpoint = { found with previous := value } ∨
        watchpoint ∈ earlier ∨ watchpoint ∈ later := by
      rw [List.mem_append, List.mem_cons] at hwatched
      exact or_left_comm.mp hwatched
    rcases hcases with rfl | hother
    · exact fun _ => hfound.new
    · exact readU64_of_not_changesTo (h watchpoint (hmem.mpr (Or.inr hother))) (hothers hother)

/-- A step that changes only one watchpoint reports it, and leaves all of them up to date. -/
theorem UpToDate.singleStep {d : Debugger} (h : d.UpToDate)
    (hone : d.machine.cpu.halted = false → OnlyOne d.machine d.watchpoints) :
    Watches d d.singleStep ∧ d.singleStep.2.UpToDate := by
  cases hhalted : d.machine.cpu.halted with
  | true =>
    refine ⟨watches_singleStep fun hrunning => ?_, ?_⟩
    · rw [hhalted] at hrunning
      cases hrunning
    · rw [(singleStep_of_halted hhalted).1]
      exact h
  | false =>
    cases hresult : d.machine.step.1 with
    | error fault =>
      refine ⟨watches_singleStep fun _ hok => ?_, ?_⟩
      · rw [hresult] at hok
        cases hok
      · unfold UpToDate Remembers
        rw [(singleStep_of_running hhalted).machine, watchpoints_of_error hresult,
          VirtualMachine.memory_of_step_error hresult]
        exact h
    | ok u =>
      rcases checkWatchpoints_cases d.machine.step.2 d.watchpoints with
        ⟨hcheck, hall⟩ | ⟨earlier, found, later, value, hsplit, hdiffers, hcheck⟩
      · exact h.of_none hhalted hresult hcheck hall
      · exact h.of_some hhalted hresult (hone hhalted) hsplit hdiffers hcheck

/-! ### The commands -/

/-- A command goes on for steps that report nothing, and then ends: without a step, or with one that
it returns. -/
inductive Ends : Debugger → StopEvent × Debugger → Prop
  | idle {d d' : Debugger} {event : StopEvent} (reason : event.reason ≠ .watchpoint)
      (machine : d'.machine = d.machine) (watchpoints : d'.watchpoints = d.watchpoints)
      (log : d'.log = d.log) : Ends d (event, d')
  | last (d : Debugger) : Ends d d.singleStep
  | step {d : Debugger} {result : StopEvent × Debugger} (quiet : Quiet d.machine d.watchpoints)
      (rest : Ends d.singleStep.2 result) : Ends d result

theorem Ends.logged {d : Debugger} {result : StopEvent × Debugger} (h : Ends d result) :
    d.log.length ≤ result.2.log.length := by
  induction h with
  | idle _ _ _ hlog => rw [hlog]
  | last d => exact (@honours_singleStep d 1 nofun).logged
  | step hquiet _ ih =>
    rw [(singleStep_of_running hquiet.running).log, List.length_append] at ih
    omega

theorem performed_of_quiet {d : Debugger} {result : StopEvent × Debugger}
    (hquiet : Quiet d.machine d.watchpoints) (hrest : Ends d.singleStep.2 result) :
    d.performed result.2 = d.singleStep.2.performed result.2 + 1 := by
  have hlogged := hrest.logged
  have hlog := congrArg List.length (singleStep_of_running hquiet.running).log
  rw [List.length_append, List.length_singleton] at hlog
  unfold performed
  omega

/-- A command that has not executed anything reports no watchpoint. -/
theorem Ends.reason {d : Debugger} {result : StopEvent × Debugger} (h : Ends d result)
    (hnothing : d.performed result.2 = 0) : result.1.reason ≠ .watchpoint := by
  cases h with
  | idle hreason => exact hreason
  | last =>
    cases hhalted : d.machine.cpu.halted with
    | true =>
      rw [(singleStep_of_halted hhalted).2]
      exact StopReason.noConfusion
    | false =>
      rw [performed_of_running hhalted] at hnothing
      cases hnothing
  | step hquiet hrest =>
    rw [performed_of_quiet hquiet hrest] at hnothing
    cases hnothing

/-- What a command does whose every step changes only one watchpoint. -/
theorem Ends.watches {d : Debugger} {result : StopEvent × Debugger} (h : Ends d result)
    (huptodate : d.UpToDate)
    (hone : ∀ j < d.performed result.2, OnlyOne (d.machine.steps j) d.watchpoints) :
    Watches d result ∧ result.2.UpToDate := by
  induction h with
  | @idle d d' event hreason hmachine hwatchpoints hlog =>
    have hperformed : d.performed d' = 0 := by rw [performed, hlog, Nat.sub_self]
    refine ⟨⟨fun j hj => ?_, fun j hj => ?_⟩, ?_⟩
    · rw [hperformed] at hj
      exact absurd hj (Nat.not_lt_zero j)
    · rw [hperformed] at hj
      exact absurd hj (Nat.not_lt_zero j)
    · unfold UpToDate
      rw [hmachine, hwatchpoints]
      exact huptodate
  | last d =>
    refine huptodate.singleStep fun hhalted => hone 0 ?_
    rw [performed_of_running hhalted]
    exact Nat.zero_lt_one
  | @step d result hquiet hrest ih =>
    have hstepped := singleStep_of_running hquiet.running
    have hwatchpoints := (hstepped.complete (hstepped.quiet.mpr hquiet)).1
    have hperformed := performed_of_quiet hquiet hrest
    -- what happens after the first step is what happens one step later
    have hsteps : ∀ j, d.singleStep.2.machine.steps j = d.machine.steps (j + 1) := by
      intro j
      rw [hstepped.machine]
      rfl
    have hafter : d.singleStep.2.UpToDate := by
      unfold UpToDate
      rw [hstepped.machine, hwatchpoints]
      exact hquiet.remembers huptodate
    obtain ⟨hwatches, hend⟩ := ih hafter fun j hj => by
      rw [hsteps, hwatchpoints]
      exact hone (j + 1) (by omega)
    refine ⟨⟨fun j hj hok => ?_, fun j hj hok watchpoint hmem before after hchanges => ?_⟩, hend⟩
    · cases j with
      | zero =>
        constructor
        · rintro ⟨watchpoint, hmem, before, after, hchanges⟩
          exact absurd hchanges (hquiet.not_changesTo huptodate hmem)
        · rintro ⟨hone, hreason⟩
          exact absurd hreason (hrest.reason (by omega))
      | succ j =>
        have hstops := hwatches.stops j (by omega)
        rw [hsteps, hwatchpoints] at hstops
        rw [hperformed, Nat.add_left_inj]
        exact hstops hok
    · cases j with
      | zero => exact absurd hchanges (hquiet.not_changesTo huptodate hmem)
      | succ j =>
        have hreports := hwatches.reports j (by omega)
        rw [hsteps, hwatchpoints, hsteps] at hreports
        exact hreports hok watchpoint hmem before after hchanges

theorem ends_runLoop {budget : UInt64} {left : ℕ} : ∀ (d : Debugger) (executed : ℕ),
    Ends d (runLoop budget d executed left) := by
  induction left with
  | zero => exact fun d _ => .idle StopReason.noConfusion rfl rfl rfl
  | succ left ih =>
    intro d executed
    unfold runLoop
    dsimp only
    split
    · exact .idle StopReason.noConfusion rfl rfl rfl
    · split_ifs with hreason
      · exact .last d
      · have hcomplete := not_not.mp hreason
        exact .step ((singleStep_of_running (running_of_stepComplete hcomplete)).quiet.mp hcomplete)
          (ih _ _)

theorem ends_stepOverLoop {resume depth : UInt64} {left : ℕ} : ∀ d : Debugger,
    Ends d (d.stepOverLoop resume depth left) := by
  induction left with
  | zero => exact fun d => .idle StopReason.noConfusion rfl rfl rfl
  | succ left ih =>
    intro d
    unfold stepOverLoop
    dsimp only
    split_ifs with hreason hback
    · exact .last d
    · exact .last d
    · have hcomplete := not_not.mp hreason
      have hquiet := (singleStep_of_running (running_of_stepComplete hcomplete)).quiet.mp hcomplete
      split
      · exact .step hquiet (.idle StopReason.noConfusion rfl rfl rfl)
      · exact .step hquiet (ih _)

theorem ends_finishLoop {depth : UInt64} {left : ℕ} : ∀ d : Debugger,
    Ends d (d.finishLoop depth left) := by
  induction left with
  | zero => exact fun d => .idle StopReason.noConfusion rfl rfl rfl
  | succ left ih =>
    intro d
    unfold finishLoop
    dsimp only
    split_ifs with hreason habove
    · exact .last d
    · exact .last d
    · have hcomplete := not_not.mp hreason
      exact .step ((singleStep_of_running (running_of_stepComplete hcomplete)).quiet.mp hcomplete)
        (ih _)

theorem ends_resume {d : Debugger} {command : Command} {result : StopEvent × Debugger}
    (h : d.resume command = some result) : Ends d result := by
  have hidle : Ends d (notRunning, d) := .idle StopReason.noConfusion rfl rfl rfl
  cases command with
  | run budget =>
    cases h
    unfold run
    split_ifs
    · exact hidle
    · exact ends_runLoop d 0
  | step =>
    cases h
    unfold Debugger.step
    split_ifs
    · exact hidle
    · exact .last d
  | stepOver budget =>
    cases h
    unfold stepOver
    split_ifs
    · exact hidle
    · exact .last d
    · exact ends_stepOverLoop d
  | finish budget =>
    cases h
    unfold finish
    split_ifs
    · exact hidle
    · exact ends_finishLoop d
  | _ => cases h

/-! ### Sessions -/

/-- Every command of a session that resumes the program reports the changes of the watchpoints of
its time. -/
def AllWatched (start : VirtualMachine) (executable : Executable) (commands : List Command) :
    Prop :=
  ∀ before command after result, commands = before ++ command :: after →
    (session start executable before).resume command = some result →
      Watches (session start executable before) result

/-- No instruction that a session executes changes two of the watchpoints of its time. -/
def AllOnlyOne (start : VirtualMachine) (executable : Executable) (commands : List Command) :
    Prop :=
  ∀ before command after result, commands = before ++ command :: after →
    (session start executable before).resume command = some result →
      ∀ j < (session start executable before).performed result.2,
        OnlyOne ((session start executable before).machine.steps j)
          (session start executable before).watchpoints

/-- The commands that do not resume the program leave the watchpoints up to date. -/
theorem UpToDate.apply {d : Debugger} (h : d.UpToDate) {command : Command}
    (hlooks : d.resume command = none) : (d.apply command).UpToDate := by
  cases command with
  | addBreakpoint address => exact h
  | addBreakpointBySymbol name =>
    show (d.addBreakpointBySymbol name).2.UpToDate
    unfold addBreakpointBySymbol
    split
    · exact h
    · exact h
  | removeBreakpoint id =>
    show (d.removeBreakpoint id).2.UpToDate
    unfold removeBreakpoint
    split_ifs
    · exact h
    · exact h
  | setBreakpointEnabled id enabled =>
    show (d.setBreakpointEnabled id enabled).2.UpToDate
    unfold setBreakpointEnabled
    split
    · exact h
    · exact h
  | addWatchpoint address =>
    show (d.addWatchpoint address).2.UpToDate
    unfold addWatchpoint
    split
    · exact h
    · next previous hread =>
      intro watchpoint hmem
      rcases List.mem_append.mp hmem with hmem | hmem
      · exact h watchpoint hmem
      · -- the new one remembers what is there now
        obtain rfl := List.mem_singleton.mp hmem
        exact fun _ => hread
  | removeWatchpoint id =>
    show (d.removeWatchpoint id).2.UpToDate
    unfold removeWatchpoint
    split_ifs
    · exact fun watchpoint hmem => h watchpoint (List.mem_filter.mp hmem).1
    · exact h
  | findSymbol name => exact h
  | describeAddress address => exact h
  | run budget => cases hlooks
  | step => cases hlooks
  | stepOver budget => cases hlooks
  | finish budget => cases hlooks

theorem apply_of_resume {d : Debugger} {command : Command} {result : StopEvent × Debugger}
    (h : d.resume command = some result) : d.apply command = result.2 := by
  cases command with
  | run | step | stepOver | finish =>
    cases h
    rfl
  | _ => cases h

theorem session_concat (start : VirtualMachine) (executable : Executable) (commands : List Command)
    (command : Command) : session start executable (commands ++ [command]) =
      (session start executable commands).apply command := by
  unfold session
  rw [List.foldl_append]
  rfl

/-- Before each command of such a session the watchpoints are up to date. -/
theorem upToDate_session {start : VirtualMachine} {executable : Executable}
    {commands : List Command} (hone : AllOnlyOne start executable commands)
    (before : List Command) :
    ∀ after, commands = before ++ after → (session start executable before).UpToDate := by
  induction before using List.reverseRecOn with
  | nil => exact fun _ _ => fun _ hmem => absurd hmem List.not_mem_nil
  | append_singleton before command ih =>
    intro after hcommands
    rw [List.append_assoc] at hcommands
    have hbefore := ih _ hcommands
    rw [session_concat]
    cases hresume : (session start executable before).resume command with
    | none => exact hbefore.apply hresume
    | some result =>
      rw [apply_of_resume hresume]
      exact ((ends_resume hresume).watches hbefore
        (hone before command after result hcommands hresume)).2

/-- In a session in which no instruction changes two watchpoints, each change of one is reported by
the instruction that makes it, and nothing else is. -/
theorem allWatched_of_onlyOne (start : VirtualMachine) (executable : Executable)
    (commands : List Command) (hone : AllOnlyOne start executable commands) :
    AllWatched start executable commands := by
  intro before command after result hcommands hresume
  have huptodate := upToDate_session hone before _ hcommands
  exact ((ends_resume hresume).watches huptodate
    (hone before command after result hcommands hresume)).1

/-- `MOVI R1, 1`, `PUSH R1`, `NOP` and `HALT`. -/
def pushesOne : Executable where
  segments := [
    { type := .text, flags := Executable.SegmentFlags.read ||| Executable.SegmentFlags.exec,
      name := str ".text", virtualAddress := 0x10000, virtualSize := 32,
      data := [1, 0, 0, 0, 0, 0, 16, 17, 0, 0, 0, 0, 0, 0, 16, 21, 0, 0, 0, 0, 0, 0, 0, 0,
        0, 0, 0, 0, 0, 0, 0, 1] }]
  entryPoint := 0x10000

def pushesOneStart : VirtualMachine := (VirtualMachine.load {} pushesOne).2

theorem load_pushesOne : VirtualMachine.load {} pushesOne = (.ok (), pushesOneStart) := by rfl

/-- Two watchpoints on the word that PUSH writes: the second is reported by the NOP after it. -/
theorem nop_reports_watchpoint : VirtualMachine.load {} pushesOne = (.ok (), pushesOneStart) ∧
    ¬AllWatched pushesOneStart pushesOne
      [.addWatchpoint 0x7FFEFFF8, .addWatchpoint 0x7FFEFFF8, .step, .step, .step] := by
  refine ⟨load_pushesOne, fun hall => ?_⟩
  have h := hall [.addWatchpoint 0x7FFEFFF8, .addWatchpoint 0x7FFEFFF8, .step, .step] .step [] _
    rfl rfl
  have hstops := h.stops 0 (by decide) (by rfl)
  obtain ⟨watchpoint, -, before, after, hchanges⟩ := hstops.mpr (by decide)
  -- but the NOP has changed nothing at all
  have hmemory : ((session pushesOneStart pushesOne
      [.addWatchpoint 0x7FFEFFF8, .addWatchpoint 0x7FFEFFF8, .step, .step]).machine.steps
        0).step.2.memory = ((session pushesOneStart pushesOne
      [.addWatchpoint 0x7FFEFFF8, .addWatchpoint 0x7FFEFFF8, .step, .step]).machine.steps
        0).memory := by rfl
  have hnew := hchanges.new
  rw [hmemory, hchanges.old] at hnew
  exact hchanges.changed (Except.ok.inj hnew).symm

/-- With a single watchpoint the PUSH is reported, and the NOP is not. -/
theorem allWatched_pushesOne : AllWatched pushesOneStart pushesOne
    [.addWatchpoint 0x7FFEFFF8, .step, .step, .step] := by
  refine allWatched_of_onlyOne pushesOneStart pushesOne _ ?_
  intro before command after result hcommands hresume j hj hok
  have hshort : ∀ watchpoints : List Watchpoint, watchpoints.length ≤ 1 →
      OnlyOne ((session pushesOneStart pushesOne before).machine.steps j) watchpoints := by
    intro watchpoints hlength _
    rcases watchpoints with _ | ⟨first, _ | ⟨second, rest⟩⟩
    · exact List.Pairwise.nil
    · exact List.pairwise_singleton _ first
    · simp at hlength
  refine hshort _ ?_ hok
  rcases before with _ | ⟨first, _ | ⟨second, _ | ⟨third, _ | ⟨fourth, before⟩⟩⟩⟩
  · decide
  · cases hcommands
    decide
  · cases hcommands
    decide
  · cases hcommands
    decide
  · exfalso
    have hlength := congrArg List.length hcommands
    simp at hlength

end Debugger
end MiniTool
