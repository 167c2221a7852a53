import MiniToolchain.Debugger.Frames

/-!
# What `next` takes for the return

At a CALL, `stepOver` goes on until PC is behind the CALL and SP no lower than it was.  A recursion
comes back to the same address, but below: the first time that both hold is the return from the
CALL.

## Main definitions

* `Back`, `GoesOver` — what ends the loop of `stepOver`, and a step that does not.
* `MatchingReturn` — the RET that removes the address a CALL has pushed.

## Main results

* `stepOverLoop_cases` — how far the loop goes.
* `matchingReturn_of_back` — where it ends.
* `stepOver_returns` — `stepOver` stops at the matching return.
-/

namespace MiniTool
namespace Debugger

open Vm Isa CallStack

/-! ### How far `stepOver` goes -/

/-- Behind the CALL, and no deeper than it was. -/
def Back (resume depth : UInt64) (machine : VirtualMachine) : Prop :=
  machine.cpu.pc = resume ∧ machine.cpu.sp ≥ depth

/-- The step after `j` others does not end `stepOver`. -/
structure GoesOver (d : Debugger) (resume depth : UInt64) (j : ℕ) : Prop where
  quiet : Quiet (d.machine.steps j) d.watchpoints
  away : ¬Back resume depth (d.machine.steps (j + 1))
  passes : d.breakpointAt (d.machine.steps (j + 1)).cpu.pc = none

theorem breakpointAt_congr {d d' : Debugger} (h : d'.breakpoints = d.breakpoints)
    (address : UInt64) : d'.breakpointAt address = d.breakpointAt address := by
  rw [breakpointAt, h, breakpointAt]

theorem stepOverLoop_of_goesOver {d : Debugger} {resume depth : UInt64}
    (h : d.GoesOver resume depth 0) (left : ℕ) :
    d.stepOverLoop resume depth (left + 1) = d.singleStep.2.stepOverLoop resume depth left := by
  have hstepped := singleStep_of_running h.quiet.running
  have haway : ¬(d.singleStep.2.machine.cpu.pc = resume ∧
      d.singleStep.2.machine.cpu.sp ≥ depth) := by
    rw [hstepped.machine]
    exact h.away
  have hpasses : d.singleStep.2.breakpointAt d.singleStep.2.machine.cpu.pc = none := by
    rw [breakpointAt_congr hstepped.breakpoints, hstepped.machine]
    exact h.passes
  conv_lhs => unfold stepOverLoop
  dsimp only
  rw [if_neg (not_not.mpr (hstepped.quiet.mpr h.quiet)), if_neg haway, hpasses]

/-- A step that ends the loop is its last, unless a breakpoint comes after it. -/
theorem stepOverLoop_of_not_goesOver {d : Debugger} {resume depth : UInt64}
    (h : ¬d.GoesOver resume depth 0) (left : ℕ) :
    (d.stepOverLoop resume depth (left + 1) = d.singleStep ∧
        (Quiet d.machine d.watchpoints → Back resume depth d.machine.step.2)) ∨
      (d.stepOverLoop resume depth (left + 1)).1.reason = .breakpoint ∧
        ¬Back resume depth d.machine.step.2 ∧ d.breakpointAt d.machine.step.2.cpu.pc ≠ none := by
  by_cases hquiet : Quiet d.machine d.watchpoints
  · have hstepped := singleStep_of_running hquiet.running
    have hcomplete : ¬d.singleStep.1.reason ≠ .stepComplete :=
      not_not.mpr (hstepped.quiet.mpr hquiet)
    unfold stepOverLoop
    dsimp only
    rw [if_neg hcomplete]
    by_cases hback : Back resume depth d.machine.step.2
    · left
      refine ⟨if_pos ?_, fun _ => hback⟩
      rw [hstepped.machine]
      exact hback
    · right
      have haway : ¬(d.singleStep.2.machine.cpu.pc = resume ∧
          d.singleStep.2.machine.cpu.sp ≥ depth) := by
        rw [hstepped.machine]
        exact hback
      rw [if_neg haway, breakpointAt_congr hstepped.breakpoints, hstepped.machine]
      cases hlook : d.breakpointAt d.machine.step.2.cpu.pc with
      | some hit => exact ⟨rfl, hback, Option.some_ne_none hit⟩
      | none => exact absurd ⟨hquiet, hback, hlook⟩ h
  · left
    refine ⟨?_, fun hsteps => absurd hsteps hquiet⟩
    have hreason : d.singleStep.1.reason ≠ .stepComplete := by
      intro hcomplete
      exact hquiet ((singleStep_of_running (running_of_stepComplete hcomplete)).quiet.mp hcomplete)
    unfold stepOverLoop
    dsimp only
    rw [if_pos hreason]

/-- The loop of `stepOver` goes on until the budget is used up, or takes the first step that ends
it. -/
theorem stepOverLoop_cases (resume depth : UInt64) (left : ℕ) :
    ∀ d : Debugger, ∃ (n : ℕ) (d' : Debugger),
      d.Reaches n d' ∧ (∀ j < n, d.GoesOver resume depth j) ∧
        (n = left ∧ d.stepOverLoop resume depth left =
          (d'.exhausted "step over did not return", d') ∨
          n < left ∧ d.stepOverLoop resume depth left = d'.singleStep ∧
            (Quiet d'.machine d'.watchpoints → Back resume depth d'.machine.step.2) ∨
          n < left ∧ (d.stepOverLoop resume depth left).1.reason = .breakpoint ∧
            ¬Back resume depth (d.machine.steps (n + 1)) ∧
            d.breakpointAt (d.machine.steps (n + 1)).cpu.pc ≠ none) := by
  induction left with
  | zero => exact fun d => ⟨0, d, .refl d, nofun, Or.inl ⟨rfl, rfl⟩⟩
  | succ left ih =>
    intro d
    by_cases hgoes : d.GoesOver resume depth 0
    · obtain ⟨n, d', hreaches, hbefore, hend⟩ := ih d.singleStep.2
      have hstepped := singleStep_of_running hgoes.quiet.running
      have hlook := breakpointAt_congr hstepped.breakpoints
      refine ⟨n + 1, d', hreaches.cons hgoes.quiet, fun j hj => ?_, ?_⟩
      · cases j with
        | zero => exact hgoes
        | succ j =>
          -- what the loop meets after the first step is what it meets one step later
          obtain ⟨hquiet, haway, hpasses⟩ := hbefore j (Nat.lt_of_succ_lt_succ hj)
          rw [hlook] at hpasses
          rw [(hstepped.complete (hstepped.quiet.mpr hgoes.quiet)).1] at hquiet
          rw [hstepped.machine] at hquiet haway hpasses
          exact ⟨hquiet, haway, hpasses⟩
      · rw [stepOverLoop_of_goesOver hgoes]
        rcases hend with ⟨hleft, heq⟩ | ⟨hleft, hend⟩ | ⟨hleft, hreason, haway, hhit⟩
        · exact Or.inl ⟨congrArg (· + 1) hleft, heq⟩
        · exact Or.inr (Or.inl ⟨Nat.succ_lt_succ hleft, hend⟩)
        · rw [hlook] at hhit
          rw [hstepped.machine] at haway hhit
          exact Or.inr (Or.inr ⟨Nat.succ_lt_succ hleft, hreason, haway, hhit⟩)
    · refine ⟨0, d, .refl d, nofun, Or.inr ?_⟩
      rcases stepOverLoop_of_not_goesOver hgoes left with hend | hend
      · exact Or.inl ⟨Nat.succ_pos left, hend⟩
      · exact Or.inr ⟨Nat.succ_pos left, hend⟩

/-- What is known when the loop reports success. -/
theorem stepOverLoop_stepComplete {d : Debugger} {resume depth : UInt64} {left : ℕ}
    (h : (d.stepOverLoop resume depth left).1.reason = .stepComplete) :
    ∃ n < left, (∀ j < n, d.GoesOver resume depth j) ∧
      Quiet (d.machine.steps n) d.watchpoints ∧
        Back resume depth (d.machine.steps (n + 1)) ∧
        (d.stepOverLoop resume depth left).2.machine = d.machine.steps (n + 1) ∧
        (d.stepOverLoop resume depth left).2.log.length = d.log.length + (n + 1) ∧
        (d.stepOverLoop resume depth left).1.pc = (d.machine.steps (n + 1)).cpu.pc := by
  obtain ⟨n, d', hreaches, hbefore, ⟨-, heq⟩ | ⟨hleft, heq, hback⟩ | ⟨-, hreason, -⟩⟩ :=
    stepOverLoop_cases resume depth left d
  · rw [heq] at h
    cases h
  · rw [heq] at h ⊢
    have hstepped := singleStep_of_running (running_of_stepComplete h)
    have hquiet := hstepped.quiet.mp h
    have hmachine : d'.singleStep.2.machine = d.machine.steps (n + 1) := by
      rw [hstepped.machine, hreaches.machine, VirtualMachine.steps_succ]
    have hend := hback hquiet
    rw [← hstepped.machine, hmachine] at hend
    rw [hreaches.machine, hreaches.watchpoints] at hquiet
    refine ⟨n, hleft, hbefore, hquiet, hend, hmachine, ?_, ?_⟩
    · rw [hstepped.log, List.length_append, List.length_singleton, hreaches.log, Nat.add_assoc]
    · rw [← hmachine]
      exact (hstepped.complete h).2
  · rw [hreason] at h
    cases h

/-- When the loop reports success. -/
theorem stepOverLoop_of_back {d : Debugger} {resume depth : UInt64} {left n : ℕ} (hn : n < left)
    (hbefore : ∀ j < n, d.GoesOver resume depth j)
    (hquiet : Quiet (d.machine.steps n) d.watchpoints)
    (hback : Back resume depth (d.machine.steps (n + 1))) :
    (d.stepOverLoop resume depth left).1.reason = .stepComplete := by
  obtain ⟨m, d', hreaches, hbefore', hend⟩ := stepOverLoop_cases resume depth left d
  have hm : m ≤ n := by
    by_contra hpast
    exact (hbefore' n (Nat.not_le.mp hpast)).away hback
  rcases hend with ⟨hleft, -⟩ | ⟨-, heq, hend⟩ | ⟨-, -, haway, hhit⟩
  · omega
  · have hquiet' : Quiet d'.machine d'.watchpoints := by
      rw [hreaches.machine, hreaches.watchpoints]
      rcases Nat.lt_or_eq_of_le hm with hlt | rfl
      · exact (hbefore m hlt).quiet
      · exact hquiet
    rw [heq]
    exact (singleStep_of_running hquiet'.running).quiet.mpr hquiet'
  · rcases Nat.lt_or_eq_of_le hm with hlt | rfl
    · exact absurd (hbefore m hlt).passes hhit
    · exact absurd hback haway

theorem singleStep_ne_notRunning (d : Debugger) : d.singleStep.1.reason ≠ .notRunning := by
  cases hhalted : d.machine.cpu.halted with
  | true =>
    rw [(singleStep_of_halted hhalted).2]
    exact StopReason.noConfusion
  | false =>
    have hhalted : ¬d.machine.cpu.halted = true := by simp [hhalted]
    unfold singleStep
    rw [if_neg hhalted]
    cases d.machine.step with
    | mk outcome machine =>
      cases outcome with
      | error fault => exact StopReason.noConfusion
      | ok u =>
        intro hreason
        rcases reason_of_classify machine d.watchpoints with h | h | h <;>
          rw [h] at hreason <;> cases hreason

theorem stepOverLoop_ne_notRunning (d : Debugger) (resume depth : UInt64) (left : ℕ) :
    (d.stepOverLoop resume depth left).1.reason ≠ .notRunning := by
  obtain ⟨n, d', -, -, ⟨-, heq⟩ | ⟨-, heq, -⟩ | ⟨-, hreason, -⟩⟩ :=
    stepOverLoop_cases resume depth left d
  · rw [heq]
    exact StopReason.noConfusion
  · rw [heq]
    exact singleStep_ne_notRunning d'
  · rw [hreason]
    exact StopReason.noConfusion

/-! ### The matching return -/

/-- After the CALL that is step `called`, step `last` is the RET that removes the return address
`resume` which the CALL has pushed.  It lies below everything that the steps in between have on the
stack. -/
structure MatchingReturn (start : VirtualMachine) (slotsAt : ℕ → List (Slot UInt64))
    (called last : ℕ) (resume : UInt64) : Prop where
  after : called < last
  inside : ∀ k, called < k → k ≤ last → ∃ inner, slotsAt k = inner ++ .ret resume :: slotsAt called
  top : slotsAt last = .ret resume :: slotsAt called
  returns : ∃ instruction, (start.steps last).fetch = .ok instruction ∧ instruction.opcode = .RET
  removed : slotsAt (last + 1) = slotsAt called
  resumes : (start.steps (last + 1)).cpu.pc = resume

variable {vm start : VirtualMachine} {executable : Executable}
  {slotsAt : ℕ → List (Slot UInt64)}

/-- What makes the stack shorter than the CALL has made it is the matching return. -/
theorem matchingReturn_of_shorter (h : Matched start slotsAt) {called n : ℕ} {resume : UInt64}
    (hcall : slotsAt (called + 1) = .ret resume :: slotsAt called)
    (hlong : ∀ k ≤ n, (slotsAt (called + 1)).length ≤ (slotsAt (called + 1 + k)).length)
    (hshort : (slotsAt (called + 1 + n + 1)).length < (slotsAt (called + 1)).length) :
    MatchingReturn start slotsAt called (called + 1 + n) resume := by
  obtain ⟨hsame, ⟨-, hvalue⟩ | ⟨address, hevent, hret⟩⟩ :=
    h.follows.first_shorter (called + 1) hlong hshort
  · rw [hcall] at hvalue
    cases (List.cons.inj hvalue).1
  · rw [hcall] at hret
    obtain ⟨hslot, hremoved⟩ := List.cons.inj hret
    cases hslot
    obtain ⟨hreturn, hinstruction⟩ := ret_of_stackEvent hevent
    rw [← VirtualMachine.steps_succ] at hreturn
    refine ⟨by omega, fun k hk hlast => ?_, hsame.trans hcall, hinstruction, hremoved.symm, hreturn⟩
    obtain ⟨j, rfl⟩ := Nat.exists_eq_add_of_le (Nat.succ_le_of_lt hk)
    rw [← hcall]
    exact h.follows.exists_append _ fun i hi => hlong i (by omega)

/-- SP is no lower than it was exactly when the stack is no longer. -/
theorem le_sp_iff_of_matched (hload : vm.load executable = (.ok (), start))
    (h : Matched start slotsAt) (m n : ℕ) :
    (start.steps n).cpu.sp ≥ (start.steps m).cpu.sp ↔ (slotsAt n).length ≤ (slotsAt m).length := by
  have hlt := sp_lt_iff_of_matched hload h n m
  rw [ge_iff_le, ← UInt64.not_lt, ← gt_iff_lt, hlt, Nat.not_lt]

/-- After the matching return PC and SP are as the loop wants them. -/
theorem MatchingReturn.back (hload : vm.load executable = (.ok (), start))
    (h : Matched start slotsAt) {called last : ℕ} {resume : UInt64}
    (hreturn : MatchingReturn start slotsAt called last resume) :
    Back resume (start.steps called).cpu.sp (start.steps (last + 1)) := by
  refine ⟨hreturn.resumes, (le_sp_iff_of_matched hload h _ _).mpr ?_⟩
  rw [hreturn.removed]

/-- Before the matching return SP is lower, wherever PC is. -/
theorem MatchingReturn.not_back (hload : vm.load executable = (.ok (), start))
    (h : Matched start slotsAt) {called last k : ℕ} {resume : UInt64}
    (hreturn : MatchingReturn start slotsAt called last resume) (hk : called < k)
    (hlast : k ≤ last) :
    ¬Back resume (start.steps called).cpu.sp (start.steps k) := by
  rintro ⟨-, hdepth⟩
  obtain ⟨inner, hinner⟩ := hreturn.inside k hk hlast
  have hlength := (le_sp_iff_of_matched hload h _ _).mp hdepth
  rw [hinner, List.length_append, List.length_cons] at hlength
  omega

/-- The first time that PC and SP are as the loop wants them is after the matching return. -/
theorem matchingReturn_of_back (hload : vm.load executable = (.ok (), start))
    (h : Matched start slotsAt) {called n : ℕ} {resume : UInt64}
    (hcall : slotsAt (called + 1) = .ret resume :: slotsAt called)
    (haway : ∀ j < n, ¬Back resume (start.steps called).cpu.sp (start.steps (called + (j + 1))))
    (hback : Back resume (start.steps called).cpu.sp (start.steps (called + (n + 1)))) :
    MatchingReturn start slotsAt called (called + n) resume := by
  have hdepth := (le_sp_iff_of_matched hload h _ _).mp hback.2
  have hpushed := congrArg List.length hcall
  rw [List.length_cons] at hpushed
  have hn : n ≠ 0 := by
    rintro rfl
    rw [Nat.zero_add] at hdepth
    omega
  obtain ⟨n, rfl⟩ := Nat.exists_eq_add_one_of_ne_zero hn
  have hexists : ∃ k, (slotsAt (called + 1 + k + 1)).length < (slotsAt (called + 1)).length := by
    refine ⟨n, ?_⟩
    have hsame : called + 1 + n + 1 = called + (n + 1 + 1) := by omega
    rw [hsame]
    omega
  -- the first time that the stack is shorter than in the callee
  obtain ⟨k, hshort, hleast⟩ : ∃ k,
      (slotsAt (called + 1 + k + 1)).length < (slotsAt (called + 1)).length ∧
        ∀ j < k, (slotsAt (called + 1)).length ≤ (slotsAt (called + 1 + j + 1)).length := by
    classical
    exact ⟨Nat.find hexists, Nat.find_spec hexists, fun j hj =>
      Nat.not_lt.mp (Nat.find_min hexists hj)⟩
  have hlong : ∀ j ≤ k, (slotsAt (called + 1)).length ≤ (slotsAt (called + 1 + j)).length := by
    intro j hj
    cases j with
    | zero => exact le_refl _
    | succ j => exact hleast j hj
  have hreturn := matchingReturn_of_shorter h hcall hlong hshort
  have hkn : k = n := by
    rcases Nat.lt_trichotomy k n with hlt | heq | hlt
    · -- the loop would have stopped there
      refine absurd (hreturn.back hload h) ?_
      have hsame : called + 1 + k + 1 = called + (k + 1 + 1) := by omega
      rw [hsame]
      exact haway (k + 1) (by omega)
    · exact heq
    · have hlength := hleast n hlt
      have hsame : called + 1 + n + 1 = called + (n + 1 + 1) := by omega
      rw [hsame] at hlength
      omega
  have hsame : called + 1 + k = called + (n + 1) := by omega
  rw [hsame] at hreturn
  exact hreturn

/-! ### `stepOver` at a CALL -/

/-- The instruction that `atCall` has seen is the one that the machine fetches. -/
theorem fetch_of_atCall {d : Debugger} (hcall : d.atCall = true)
    (haligned : d.machine.cpu.pc % UInt64.ofNat kInstructionSize = 0) :
    ∃ instruction, d.machine.fetch = .ok instruction ∧ instruction.opcode = .CALL := by
  unfold atCall at hcall
  unfold VirtualMachine.fetch
  dsimp only
  rw [if_neg (not_not.mpr haligned)]
  cases hword : d.machine.memory.fetchInstruction d.machine.cpu.pc with
  | error fault =>
    rw [hword] at hcall
    cases hcall
  | ok word =>
    rw [hword] at hcall
    dsimp only at hcall ⊢
    cases hdecode : decode word with
    | error e =>
      rw [hdecode] at hcall
      cases hcall
    | ok instruction =>
      rw [hdecode] at hcall
      exact ⟨instruction, rfl, of_decide_eq_true hcall⟩

/-- A CALL that does not fault pushes the address behind it. -/
theorem slots_of_atCall (h : Matched start slotsAt) {d : Debugger} (htracks : Tracks start d)
    (hloaded : d.machine.loaded = true) (hcall : d.atCall = true)
    (hquiet : Quiet d.machine d.watchpoints) :
    slotsAt (d.log.length + 1) =
      .ret (d.machine.cpu.pc + UInt64.ofNat kInstructionSize) :: slotsAt d.log.length := by
  have hruns := hquiet.runs
  have hrunning := hquiet.running
  have haligned : d.machine.cpu.pc % UInt64.ofNat kInstructionSize = 0 := by
    by_contra hodd
    unfold VirtualMachine.step VirtualMachine.fetch at hruns
    simp [hloaded, hrunning, hodd] at hruns
  obtain ⟨instruction, hfetch, hopcode⟩ := fetch_of_atCall hcall haligned
  have hevent : stackEvent d.machine =
      .call (d.machine.cpu.pc + UInt64.ofNat kInstructionSize) := by
    unfold stackEvent
    rw [hrunning, hfetch, hruns]
    simp [hopcode]
  have hfollows := h.follows d.log.length
  dsimp only at hfollows
  rw [← htracks.machine, hevent] at hfollows
  exact (Option.some.inj hfollows).symm

/-- Between the CALL and the instruction `last` nothing is to be reported. -/
structure Uneventful (start : VirtualMachine) (d : Debugger) (last : ℕ) : Prop where
  quiet : ∀ k, d.log.length ≤ k → k ≤ last → Quiet (start.steps k) d.watchpoints
  passes : ∀ k, d.log.length < k → k ≤ last → d.breakpointAt (start.steps k).cpu.pc = none

/-- In a program whose calls and returns match, `stepOver` at a CALL reports success only after the
RET that matches it, and then wherever that is reached; otherwise it reports some other stop. -/
theorem stepOver_returns (hload : vm.load executable = (.ok (), start)) (h : Matched start slotsAt)
    (commands : List Command) (budget : UInt64)
    (hcall : (session start executable commands).atCall = true) :
    let d := session start executable commands
    let resume := d.machine.cpu.pc + UInt64.ofNat kInstructionSize
    ((d.stepOver budget).1.reason = .stepComplete →
        ∃ last, MatchingReturn start slotsAt d.log.length last resume ∧
          (d.stepOver budget).2.log.length = last + 1 ∧
          (d.stepOver budget).2.machine = start.steps (last + 1) ∧
          (d.stepOver budget).1.pc = resume) ∧
      ((d.stepOver budget).1.reason ≠ .stepComplete →
        (d.stepOver budget).1.reason ∈
          [StopReason.breakpoint, .watchpoint, .fault, .halted]) ∧
      ∀ last, MatchingReturn start slotsAt d.log.length last resume →
        last < d.log.length + budget.toNat → Uneventful start d last →
          (d.stepOver budget).1.reason = .stepComplete := by
  have htracks := Tracks.session start executable commands
  generalize session start executable commands = d at hcall htracks ⊢
  intro d resume
  have hloaded := loaded_of_tracks hload htracks
  have hsteps : ∀ k, d.machine.steps k = start.steps (d.log.length + k) := by
    intro k
    rw [htracks.machine, VirtualMachine.steps_add]
  have hover : d.stepOver budget = d.stepOverLoop resume d.machine.cpu.sp budget.toNat := by
    unfold stepOver
    rw [hloaded, hcall]
    rfl
  rw [hover]
  refine ⟨fun hreason => ?_, fun hreason => ?_, fun last hreturn hbudget hevents => ?_⟩
  · obtain ⟨n, -, hbefore, hquiet, hback, hmachine, hlog, hpc⟩ := stepOverLoop_stepComplete hreason
    have hfirst : Quiet d.machine d.watchpoints := by
      cases n with
      | zero => exact hquiet
      | succ n => exact (hbefore 0 (Nat.succ_pos n)).quiet
    have hpushed := slots_of_atCall h htracks hloaded hcall hfirst
    have hsp : d.machine.cpu.sp = (start.steps d.log.length).cpu.sp := by rw [htracks.machine]
    rw [hsteps] at hmachine hpc hback
    rw [hsp] at hback
    have hreturn := matchingReturn_of_back hload h hpushed
      (fun j hj => by rw [← hsteps, ← hsp]; exact (hbefore j hj).away) hback
    refine ⟨d.log.length + n, hreturn, hlog, hmachine, ?_⟩
    rw [hpc]
    exact hreturn.resumes
  · have hrunning := stepOverLoop_ne_notRunning d resume d.machine.cpu.sp budget.toNat
    cases hstop : (d.stepOverLoop resume d.machine.cpu.sp budget.toNat).1.reason with
    | stepComplete => exact absurd hstop hreason
    | notRunning => exact absurd hstop hrunning
    | breakpoint | watchpoint | fault | halted => decide
  · have hsp : d.machine.cpu.sp = (start.steps d.log.length).cpu.sp := by rw [htracks.machine]
    have hafter := hreturn.after
    obtain ⟨n, rfl⟩ := Nat.exists_eq_add_of_lt hafter
    have hquiet : ∀ j ≤ n + 1, Quiet (d.machine.steps j) d.watchpoints := by
      intro j hj
      rw [hsteps]
      exact hevents.quiet _ (Nat.le_add_right _ j) (by omega)
    refine stepOverLoop_of_back (n := n + 1) (by omega) (fun j hj => ?_) (hquiet _ (le_refl _)) ?_
    · refine ⟨hquiet j (by omega), ?_, ?_⟩
      · rw [hsteps, hsp]
        exact hreturn.not_back hload h (by omega) (by omega)
      · rw [hsteps]
        exact hevents.passes _ (by omega) (by omega)
    · rw [hsteps, hsp]
      exact hreturn.back hload h

/-- `MOVI R1, 3`, `CALL f`, `HALT`, and `f: DEC R1`, `JE done`, `CALL f`, `done: RET`. -/
def countsDown : Executable where
  segments := [
    { type := .text, flags := Executable.SegmentFlags.read ||| Executable.SegmentFlags.exec,
      name := str ".text", virtualAddress := 0x10000, virtualSize := 56,
      data := [3, 0, 0, 0, 0, 0, 16, 17, 8, 0, 0, 0, 0, 0, 0, 87, 0, 0, 0, 0, 0, 0, 0, 1,
        0, 0, 0, 0, 0, 0, 16, 38, 8, 0, 0, 0, 0, 0, 0, 81, 232, 255, 255, 255, 255, 255, 0, 87,
        0, 0, 0, 0, 0, 0, 0, 88] }]
  entryPoint := 0x10000

def countsDownStart : VirtualMachine := (VirtualMachine.load {} countsDown).2

theorem load_countsDown :
    VirtualMachine.load {} countsDown = (.ok (), countsDownStart) := by rfl

/-- The slots of the stack while `f` calls itself twice and the three of them return. -/
def countsDownSlots : ℕ → List (Slot UInt64)
  | 2 | 3 | 4 => [.ret 0x10010]
  | 5 | 6 | 7 => [.ret 0x10030, .ret 0x10010]
  | 8 | 9 | 10 => [.ret 0x10030, .ret 0x10030, .ret 0x10010]
  | 11 => [.ret 0x10030, .ret 0x10010]
  | 12 => [.ret 0x10010]
  | _ => []

theorem matched_countsDown : Matched countsDownStart countsDownSlots :=
  .of_halted rfl (show ∀ k < 14, _ by decide) (by decide) fun k => by
    rw [Nat.add_comm 14 k]
    rfl

/-- As far as the first `CALL f` in `f`. -/
def toInnerCall : List Command := [.step, .step, .step, .step]

/-- Over this CALL: the machine is behind it after the innermost `f` and after the next, and
`stepOver` stops at the third return.  With a breakpoint in `f` it does not get there. -/
theorem stepOver_countsDown :
    (countsDownStart.steps 10).cpu.pc = 0x10030 ∧ (countsDownStart.steps 11).cpu.pc = 0x10030 ∧
      ((session countsDownStart countsDown toInnerCall).stepOver 20).1.reason = .stepComplete ∧
      MatchingReturn countsDownStart countsDownSlots 4 11 0x10030 ∧
      ((session countsDownStart countsDown toInnerCall).stepOver 20).2.machine =
        countsDownStart.steps 12 ∧
      ((session countsDownStart countsDown (toInnerCall ++ [.addBreakpoint 0x10018])).stepOver
        20).1.reason ∈ [StopReason.breakpoint, .watchpoint, .fault, .halted] := by
  have hreason : ((session countsDownStart countsDown toInnerCall).stepOver 20).1.reason =
      .stepComplete := by decide
  have hlength : ((session countsDownStart countsDown toInnerCall).stepOver 20).2.log.length =
      12 := by
    decide
  obtain ⟨last, hreturn, hlog, hmachine, -⟩ :=
    (stepOver_returns load_countsDown matched_countsDown toInnerCall 20 (by decide)).1 hreason
  have hother := (stepOver_returns load_countsDown matched_countsDown
    (toInnerCall ++ [.addBreakpoint 0x10018]) 20 (by decide)).2.1 (by decide)
  rw [hlength] at hlog
  obtain rfl : last = 11 := by omega
  exact ⟨by decide, by decide, hreason, hreturn, hmachine, hother⟩

end Debugger
end MiniTool
