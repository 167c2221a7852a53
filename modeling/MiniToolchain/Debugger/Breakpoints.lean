import MiniToolchain.Debugger.Debugger

/-!
# Which breakpoints stop a program

`run` and `stepOver` look at the breakpoints before every instruction but their first.  `finish`
never does: it runs over the breakpoints inside of the function.

## Main definitions

* `resume`, `performed` — a command that resumes the program, and how many steps it took.
* `Honours` — the command has missed no breakpoint.
* `Quiet` — a step that a loop does not stop at.

## Main results

* `lt_performed_finishLoop`, `finishLoop_stepComplete` — how far `finish` goes, and when it
  succeeds.
* `honours_runLoop`, `honours_stepOverLoop` — two of the loops miss nothing.
* `allHonoured_iff` — what a session has to avoid.
-/

namespace MiniTool
namespace Debugger

open Vm Isa

/-! ### What a command performed -/

/-- What a command that resumes the program returns. -/
def resume (d : Debugger) : Command → Option (StopEvent × Debugger)
  | .run budget => some (d.run budget)
  | .step => some d.step
  | .stepOver budget => some (d.stepOver budget)
  | .finish budget => some (d.finish budget)
  | _ => none

/-- The single steps between two states of a session. -/
def performed (d d' : Debugger) : ℕ := d'.log.length - d.log.length

/-- There is no instruction to execute, or no enabled breakpoint is at its address. -/
def Passes (d : Debugger) (machine : VirtualMachine) : Prop :=
  ∀ instruction, machine.fetch = .ok instruction → d.breakpointAt machine.cpu.pc = none

/-- After the first `exempt` steps no instruction with an enabled breakpoint was executed, and a
stop for a breakpoint is at its address, before the instruction there. -/
structure Honours (exempt : ℕ) (d : Debugger) (result : StopEvent × Debugger) : Prop where
  logged : d.log.length ≤ result.2.log.length
  passes : ∀ j, exempt ≤ j → j < d.performed result.2 → d.Passes (d.machine.steps j)
  stops : result.1.reason = .breakpoint →
    result.2.machine = d.machine.steps (d.performed result.2) ∧
      result.1.pc = result.2.machine.cpu.pc ∧
        ∃ breakpoint ∈ d.breakpoints, breakpoint.enabled = true ∧ breakpoint.address = result.1.pc

/-! ### One step -/

/-- The single step reports neither an event nor an end of the program. -/
structure Quiet (machine : VirtualMachine) (watchpoints : List Watchpoint) : Prop where
  runs : machine.step.1 = .ok ()
  unchanged : checkWatchpoints machine.step.2 watchpoints = none
  goesOn : machine.step.2.cpu.halted = false

theorem step_of_halted {machine : VirtualMachine} (h : machine.cpu.halted = true) :
    machine.step.2 = machine := by
  rcases VirtualMachine.step_cases machine with hsame | ⟨-, -, hhalted, -⟩
  · exact hsame
  · rw [h] at hhalted
    cases hhalted

theorem Quiet.running {machine : VirtualMachine} {watchpoints : List Watchpoint}
    (h : Quiet machine watchpoints) : machine.cpu.halted = false := by
  by_contra hhalted
  have hgoes := h.goesOn
  rw [step_of_halted (by simpa using hhalted)] at hgoes
  exact hhalted hgoes

/-- A step is complete when no watched value changed and the program has not ended. -/
theorem classify_stepComplete (machine : VirtualMachine) (watchpoints : List Watchpoint) :
    (classify machine watchpoints).1.reason = .stepComplete ↔
      checkWatchpoints machine watchpoints = none ∧ machine.cpu.halted = false := by
  unfold classify
  cases hcheck : checkWatchpoints machine watchpoints with
  | some triggered =>
    have hreason := reason_of_checkWatchpoints hcheck
    simp [hreason]
  | none => cases machine.cpu.halted <;> simp

/-- What a step that did not fault can be reported as. -/
theorem reason_of_classify (machine : VirtualMachine) (watchpoints : List Watchpoint) :
    (classify machine watchpoints).1.reason = .watchpoint ∨
      (classify machine watchpoints).1.reason = .halted ∨
      (classify machine watchpoints).1.reason = .stepComplete := by
  unfold classify
  cases hcheck : checkWatchpoints machine watchpoints with
  | some triggered => exact Or.inl (reason_of_checkWatchpoints hcheck)
  | none =>
    cases machine.cpu.halted with
    | true => exact Or.inr (Or.inl rfl)
    | false => exact Or.inr (Or.inr rfl)

theorem classify_ne_breakpoint (machine : VirtualMachine) (watchpoints : List Watchpoint) :
    (classify machine watchpoints).1.reason ≠ .breakpoint := by
  intro hreason
  rcases reason_of_classify machine watchpoints with h | h | h <;> rw [hreason] at h <;> cases h

theorem classify_of_none {machine : VirtualMachine} {watchpoints : List Watchpoint}
    (h : checkWatchpoints machine watchpoints = none) :
    (classify machine watchpoints).2 = watchpoints ∧
      (classify machine watchpoints).1.pc = machine.cpu.pc := by
  unfold classify
  rw [h]
  cases machine.cpu.halted <;> exact ⟨rfl, rfl⟩

/-- What a single step of a machine that runs leaves, and what it reports. -/
structure Stepped (d : Debugger) (result : StopEvent × Debugger) : Prop where
  machine : result.2.machine = d.machine.step.2
  breakpoints : result.2.breakpoints = d.breakpoints
  log : result.2.log = d.log ++ [result.1]
  reason : result.1.reason ≠ .breakpoint
  quiet : result.1.reason = .stepComplete ↔ Quiet d.machine d.watchpoints
  complete : result.1.reason = .stepComplete →
    result.2.watchpoints = d.watchpoints ∧ result.1.pc = result.2.machine.cpu.pc

theorem singleStep_of_halted {d : Debugger} (h : d.machine.cpu.halted = true) :
    d.singleStep.2 = d ∧ d.singleStep.1.reason = .halted := by
  unfold singleStep
  rw [if_pos h]
  exact ⟨rfl, rfl⟩

theorem singleStep_of_running {d : Debugger} (h : d.machine.cpu.halted = false) :
    Stepped d d.singleStep := by
  have hhalted : ¬d.machine.cpu.halted = true := by simp [h]
  unfold singleStep
  rw [if_neg hhalted]
  cases hstep : d.machine.step with
  | mk outcome machine =>
    cases outcome with
    | error fault =>
      refine ⟨by rw [hstep], rfl, rfl, StopReason.noConfusion, ⟨nofun, fun hquiet => ?_⟩, nofun⟩
      have hruns := hquiet.runs
      rw [hstep] at hruns
      cases hruns
    | ok u =>
      have hok : d.machine.step = (.ok (), machine) := hstep
      have hcomplete := classify_stepComplete machine d.watchpoints
      refine ⟨by rw [hok], rfl, rfl, classify_ne_breakpoint _ _, ?_, fun hreason => ?_⟩
      · constructor
        · intro hreason
          obtain ⟨hcheck, hrunning⟩ := hcomplete.mp hreason
          exact ⟨by rw [hok], by rw [hok]; exact hcheck, by rw [hok]; exact hrunning⟩
        · rintro ⟨-, hcheck, hrunning⟩
          rw [hok] at hcheck hrunning
          exact hcomplete.mpr ⟨hcheck, hrunning⟩
      · exact classify_of_none (hcomplete.mp hreason).1

theorem running_of_stepComplete {d : Debugger} (h : d.singleStep.1.reason = .stepComplete) :
    d.machine.cpu.halted = false := by
  by_contra hhalted
  rw [(singleStep_of_halted (by simpa using hhalted)).2] at h
  cases h

/-! ### How far `finish` goes -/

/-- The step after `j` others does not end `finish`. -/
def Continues (d : Debugger) (depth : UInt64) (j : ℕ) : Prop :=
  Quiet (d.machine.steps j) d.watchpoints ∧ ¬(d.machine.steps (j + 1)).cpu.sp > depth

/-- The debugger after `n` steps that reported nothing. -/
structure Reaches (d : Debugger) (n : ℕ) (d' : Debugger) : Prop where
  machine : d'.machine = d.machine.steps n
  breakpoints : d'.breakpoints = d.breakpoints
  watchpoints : d'.watchpoints = d.watchpoints
  log : d'.log.length = d.log.length + n

theorem Reaches.refl (d : Debugger) : d.Reaches 0 d := ⟨rfl, rfl, rfl, rfl⟩

/-- One more step, before the others. -/
theorem Reaches.cons {d d' : Debugger} {n : ℕ} (hquiet : Quiet d.machine d.watchpoints)
    (h : d.singleStep.2.Reaches n d') : d.Reaches (n + 1) d' := by
  have hstepped := singleStep_of_running hquiet.running
  refine ⟨?_, h.breakpoints.trans hstepped.breakpoints, ?_, ?_⟩
  · rw [h.machine, hstepped.machine]
    rfl
  · rw [h.watchpoints, (hstepped.complete (hstepped.quiet.mpr hquiet)).1]
  · rw [h.log, hstepped.log, List.length_append, List.length_singleton]
    omega

theorem finishLoop_of_continues {d : Debugger} {depth : UInt64} (h : d.Continues depth 0)
    (left : ℕ) : d.finishLoop depth (left + 1) = d.singleStep.2.finishLoop depth left := by
  have hstepped := singleStep_of_running h.1.running
  have hdepth : ¬d.singleStep.2.machine.cpu.sp > depth := by
    rw [hstepped.machine]
    exact h.2
  conv_lhs => unfold finishLoop
  dsimp only
  rw [if_neg (not_not.mpr (hstepped.quiet.mpr h.1)), if_neg hdepth]

theorem finishLoop_of_not_continues {d : Debugger} {depth : UInt64} (h : ¬d.Continues depth 0)
    (left : ℕ) : d.finishLoop depth (left + 1) = d.singleStep := by
  unfold finishLoop
  dsimp only
  split_ifs with hreason hdepth
  · rfl
  · rfl
  · refine absurd ?_ h
    cases hhalted : d.machine.cpu.halted with
    | true =>
      rw [(singleStep_of_halted hhalted).2] at hreason
      exact absurd StopReason.noConfusion hreason
    | false =>
      have hstepped := singleStep_of_running hhalted
      rw [hstepped.machine] at hdepth
      exact ⟨hstepped.quiet.mp (not_not.mp hreason), hdepth⟩

/-- The loop of `finish` goes on until the budget is used up, or takes the first step that ends
it. -/
theorem finishLoop_cases (depth : UInt64) (left : ℕ) : ∀ d : Debugger, ∃ (n : ℕ) (d' : Debugger),
    d.Reaches n d' ∧ (∀ j < n, d.Continues depth j) ∧
      (n = left ∧ d.finishLoop depth left = (d'.exhausted "function did not return", d') ∨
        n < left ∧ ¬d.Continues depth n ∧ d.finishLoop depth left = d'.singleStep) := by
  induction left with
  | zero => exact fun d => ⟨0, d, .refl d, nofun, Or.inl ⟨rfl, rfl⟩⟩
  | succ left ih =>
    intro d
    by_cases hgoes : d.Continues depth 0
    · obtain ⟨n, d', hreaches, hbefore, hend⟩ := ih d.singleStep.2
      have hstepped := singleStep_of_running hgoes.1.running
      -- what the loop meets after the first step is what it meets one step later
      have hshift : ∀ j, d.singleStep.2.Continues depth j ↔ d.Continues depth (j + 1) := by
        intro j
        unfold Continues
        rw [hstepped.machine, (hstepped.complete (hstepped.quiet.mpr hgoes.1)).1]
        exact Iff.rfl
      refine ⟨n + 1, d', hreaches.cons hgoes.1, fun j hj => ?_, ?_⟩
      · cases j with
        | zero => exact hgoes
        | succ j => exact (hshift j).mp (hbefore j (Nat.lt_of_succ_lt_succ hj))
      · rw [finishLoop_of_continues hgoes]
        rcases hend with ⟨hleft, heq⟩ | ⟨hleft, hends, heq⟩
        · exact Or.inl ⟨congrArg (· + 1) hleft, heq⟩
        · exact Or.inr ⟨Nat.succ_lt_succ hleft, fun h => hends ((hshift n).mpr h), heq⟩
    · exact ⟨0, d, .refl d, nofun, Or.inr ⟨Nat.succ_pos left, hgoes,
        finishLoop_of_not_continues hgoes left⟩⟩

/-- The loop takes the step after `k` others when the budget is left and none of them ended it. -/
theorem lt_performed_finishLoop {d : Debugger} {depth : UInt64} {left k : ℕ} (hk : 0 < k) :
    k < d.performed (d.finishLoop depth left).2 ↔ k < left ∧ ∀ j < k, d.Continues depth j := by
  obtain ⟨n, d', hreaches, hbefore, ⟨hleft, heq⟩ | ⟨hleft, hends, heq⟩⟩ :=
    finishLoop_cases depth left d
  · have hperformed : d.performed (d.finishLoop depth left).2 = left := by
      rw [heq, performed, hreaches.log]
      omega
    rw [hperformed]
    rw [hleft] at hbefore
    exact ⟨fun h => ⟨h, fun j hj => hbefore j (hj.trans h)⟩, fun h => h.1⟩
  · have hrange : k < d.performed (d.finishLoop depth left).2 ↔ k ≤ n := by
      rw [heq]
      cases hhalted : d'.machine.cpu.halted with
      | true =>
        -- only a machine that has halted before takes no step at all
        have hzero : n = 0 := by
          by_contra hpos
          have hgoes := (hbefore (n - 1) (by omega)).1.goesOn
          rw [← VirtualMachine.steps_succ, Nat.sub_add_cancel (Nat.pos_of_ne_zero hpos),
            ← hreaches.machine, hhalted] at hgoes
          cases hgoes
        rw [(singleStep_of_halted hhalted).1, performed, hreaches.log]
        omega
      | false =>
        rw [performed, (singleStep_of_running hhalted).log, List.length_append, hreaches.log,
          List.length_singleton]
        omega
    rw [hrange]
    constructor
    · exact fun h => ⟨h.trans_lt hleft, fun j hj => hbefore j (hj.trans_le h)⟩
    · intro h
      by_contra hpast
      exact hends (h.2 n (Nat.not_le.mp hpast))

theorem finishLoop_ne_breakpoint (d : Debugger) (depth : UInt64) (left : ℕ) :
    (d.finishLoop depth left).1.reason ≠ .breakpoint := by
  obtain ⟨n, d', hreaches, hbefore, ⟨hleft, heq⟩ | ⟨hleft, hends, heq⟩⟩ :=
    finishLoop_cases depth left d
  · rw [heq]
    exact StopReason.noConfusion
  · rw [heq]
    cases hhalted : d'.machine.cpu.halted with
    | true =>
      rw [(singleStep_of_halted hhalted).2]
      exact StopReason.noConfusion
    | false => exact (singleStep_of_running hhalted).reason

/-- What is known when the loop reports success. -/
theorem finishLoop_stepComplete {d : Debugger} {depth : UInt64} {left : ℕ}
    (h : (d.finishLoop depth left).1.reason = .stepComplete) :
    ∃ n < left, (∀ j < n, d.Continues depth j) ∧
      Quiet (d.machine.steps n) d.watchpoints ∧
        (d.machine.steps (n + 1)).cpu.sp > depth ∧
        (d.finishLoop depth left).2.machine = d.machine.steps (n + 1) ∧
        (d.finishLoop depth left).2.log.length = d.log.length + (n + 1) ∧
        (d.finishLoop depth left).1.pc = (d.machine.steps (n + 1)).cpu.pc := by
  obtain ⟨n, d', hreaches, hbefore, ⟨-, heq⟩ | ⟨hleft, hends, heq⟩⟩ :=
    finishLoop_cases depth left d
  · rw [heq] at h
    cases h
  · rw [heq] at h ⊢
    have hstepped := singleStep_of_running (running_of_stepComplete h)
    have hquiet := hstepped.quiet.mp h
    have hmachine : d'.singleStep.2.machine = d.machine.steps (n + 1) := by
      rw [hstepped.machine, hreaches.machine, VirtualMachine.steps_succ]
    rw [hreaches.machine, hreaches.watchpoints] at hquiet
    refine ⟨n, hleft, hbefore, hquiet, ?_, hmachine, ?_, ?_⟩
    · by_contra hdepth
      exact hends ⟨hquiet, hdepth⟩
    · rw [hstepped.log, List.length_append, List.length_singleton, hreaches.log, Nat.add_assoc]
    · rw [← hmachine]
      exact (hstepped.complete h).2

/-- When the loop reports success. -/
theorem finishLoop_of_above {d : Debugger} {depth : UInt64} {left n : ℕ} (hn : n < left)
    (hbefore : ∀ j < n, d.Continues depth j) (hquiet : Quiet (d.machine.steps n) d.watchpoints)
    (habove : (d.machine.steps (n + 1)).cpu.sp > depth) :
    (d.finishLoop depth left).1.reason = .stepComplete := by
  have hlast : ¬d.Continues depth n := fun h => h.2 habove
  obtain ⟨m, d', hreaches, hbefore', ⟨hm, heq⟩ | ⟨hm, hends, heq⟩⟩ :=
    finishLoop_cases depth left d
  · rw [← hm] at hn
    exact absurd (hbefore' n hn) hlast
  · have hmn : m = n := by
      rcases Nat.lt_trichotomy m n with hlt | heq | hlt
      · exact absurd (hbefore m hlt) hends
      · exact heq
      · exact absurd (hbefore' n hlt) hlast
    rw [hmn] at hreaches
    rw [← hreaches.machine, ← hreaches.watchpoints] at hquiet
    rw [heq]
    exact (singleStep_of_running hquiet.running).quiet.mpr hquiet

/-! ### The commands that look -/

/-- After a first step, the others are those of the debugger after it. -/
theorem Honours.cons {d : Debugger} {result : StopEvent × Debugger} {exempt : ℕ}
    (hrunning : d.machine.cpu.halted = false) (hfirst : exempt = 0 → d.Passes d.machine)
    (h : Honours 0 d.singleStep.2 result) : Honours exempt d result := by
  have hstepped := singleStep_of_running hrunning
  have hlog := h.logged
  rw [hstepped.log, List.length_append, List.length_singleton] at hlog
  have hperformed : d.performed result.2 = d.singleStep.2.performed result.2 + 1 := by
    rw [performed, performed, hstepped.log, List.length_append, List.length_singleton]
    omega
  have hbreakpoints : ∀ address, d.singleStep.2.breakpointAt address = d.breakpointAt address := by
    intro address
    rw [breakpointAt, hstepped.breakpoints, breakpointAt]
  refine ⟨Nat.le_of_succ_le hlog, fun j hexempt hj => ?_, fun hreason => ?_⟩
  · cases j with
    | zero => exact hfirst (Nat.le_zero.mp hexempt)
    | succ j =>
      have hpasses := h.passes j (Nat.zero_le j) (by omega)
      intro instruction hfetch
      rw [hstepped.machine] at hpasses
      rw [← hbreakpoints]
      exact hpasses instruction hfetch
  · obtain ⟨hmachine, hpc, breakpoint, hmem, hat⟩ := h.stops hreason
    refine ⟨?_, hpc, breakpoint, ?_, hat⟩
    · rw [hmachine, hperformed, hstepped.machine]
      rfl
    · rw [← hstepped.breakpoints]
      exact hmem

/-- A single step that ends a command. -/
theorem honours_singleStep {d : Debugger} {exempt : ℕ} (hfirst : exempt = 0 → d.Passes d.machine) :
    Honours exempt d d.singleStep := by
  cases hhalted : d.machine.cpu.halted with
  | true =>
    obtain ⟨hsame, hreason⟩ := singleStep_of_halted hhalted
    refine ⟨by rw [hsame], fun j _ hj => ?_, fun hstop => ?_⟩
    · rw [hsame, performed, Nat.sub_self] at hj
      exact absurd hj (Nat.not_lt_zero j)
    · rw [hreason] at hstop
      cases hstop
  | false =>
    have hstepped := singleStep_of_running hhalted
    have hlog : d.singleStep.2.log.length = d.log.length + 1 := by
      rw [hstepped.log, List.length_append, List.length_singleton]
    refine ⟨by omega, fun j hexempt hj => ?_, fun hstop => absurd hstop hstepped.reason⟩
    have hj0 : j = 0 := by
      rw [performed, hlog] at hj
      omega
    subst hj0
    exact hfirst (Nat.le_zero.mp hexempt)

theorem mem_of_breakpointAt {d : Debugger} {address : UInt64} {hit : Breakpoint}
    (h : d.breakpointAt address = some hit) :
    hit ∈ d.breakpoints ∧ hit.enabled = true ∧ hit.address = address := by
  have hfound := List.find?_some h
  simp only [Bool.and_eq_true, decide_eq_true_eq] at hfound
  exact ⟨List.mem_of_find?_eq_some h, hfound⟩

/-- What stops without a step, at a breakpoint. -/
theorem honours_of_hit {d : Debugger} {result : StopEvent × Debugger} {hit : Breakpoint}
    (exempt : ℕ) (h : d.breakpointAt d.machine.cpu.pc = some hit)
    (hmachine : result.2.machine = d.machine) (hlog : result.2.log = d.log)
    (hpc : result.1.pc = d.machine.cpu.pc) : Honours exempt d result := by
  have hperformed : d.performed result.2 = 0 := by
    rw [performed, hlog, Nat.sub_self]
  refine ⟨by rw [hlog], fun j _ hj => ?_, fun _ => ?_⟩
  · rw [hperformed] at hj
    exact absurd hj (Nat.not_lt_zero j)
  · obtain ⟨hmem, henabled, haddress⟩ := mem_of_breakpointAt h
    rw [hperformed, hmachine, hpc]
    exact ⟨rfl, rfl, hit, hmem, henabled, haddress⟩

/-- What stops without a step and without a breakpoint. -/
theorem honours_idle {d : Debugger} {event : StopEvent} (exempt : ℕ)
    (h : event.reason ≠ .breakpoint) : Honours exempt d (event, d) := by
  refine ⟨le_refl _, fun j _ hj => ?_, fun hstop => absurd hstop h⟩
  rw [performed, Nat.sub_self] at hj
  exact absurd hj (Nat.not_lt_zero j)

/-- `run` exempts its first step only. -/
theorem honours_runLoop {budget : UInt64} {left : ℕ} : ∀ (d : Debugger) (executed : ℕ),
    Honours (if executed = 0 then 1 else 0) d (runLoop budget d executed left) := by
  induction left with
  | zero => exact fun d executed => honours_idle _ StopReason.noConfusion
  | succ left ih =>
    intro d executed
    unfold runLoop
    dsimp only
    cases hlook : (if 0 < executed ∨ (!d.started) = true then d.breakpointAt d.machine.cpu.pc
      else none) with
    | some hit =>
      split_ifs at hlook
      exact honours_of_hit _ hlook rfl rfl rfl
    | none =>
      -- after the first step the loop has just looked
      have hfirst : (if executed = 0 then 1 else 0) = 0 → d.Passes d.machine := by
        intro hexempt instruction _
        have hpos : 0 < executed := by
          by_contra hzero
          rw [if_pos (Nat.eq_zero_of_not_pos hzero)] at hexempt
          cases hexempt
        rw [if_pos (Or.inl hpos)] at hlook
        exact hlook
      dsimp only
      by_cases hreason : d.singleStep.1.reason = .stepComplete
      · rw [if_neg (not_not.mpr hreason)]
        exact (ih d.singleStep.2 (executed + 1)).cons (running_of_stepComplete hreason) hfirst
      · rw [if_pos hreason]
        exact honours_singleStep hfirst

/-- `stepOver` looks after every step, and so exempts its first. -/
theorem honours_stepOverLoop {resume depth : UInt64} {left : ℕ} : ∀ d : Debugger,
    Honours 1 d (d.stepOverLoop resume depth left) := by
  induction left with
  | zero => exact fun d => honours_idle _ StopReason.noConfusion
  | succ left ih =>
    intro d
    unfold stepOverLoop
    dsimp only
    split_ifs with hreason hback
    · exact honours_singleStep Nat.noConfusion
    · exact honours_singleStep Nat.noConfusion
    · have hrunning := running_of_stepComplete (not_not.mp hreason)
      cases hlook : d.singleStep.2.breakpointAt d.singleStep.2.machine.cpu.pc with
      | some hit =>
        refine Honours.cons hrunning Nat.noConfusion ?_
        exact honours_of_hit 0 hlook rfl rfl rfl
      | none =>
        -- the loop goes on from an instruction it has looked at
        have hnext := ih d.singleStep.2
        refine Honours.cons hrunning Nat.noConfusion ⟨hnext.logged, fun j _ hj => ?_, hnext.stops⟩
        cases j with
        | zero => exact fun _ _ => hlook
        | succ j => exact hnext.passes (j + 1) (Nat.succ_pos j) hj

theorem honours_run (d : Debugger) (budget : UInt64) : Honours 1 d (d.run budget) := by
  unfold run
  split_ifs
  · exact honours_idle 1 StopReason.noConfusion
  · exact honours_runLoop d 0

theorem honours_step (d : Debugger) : Honours 1 d d.step := by
  unfold step
  split_ifs
  · exact honours_idle 1 StopReason.noConfusion
  · exact honours_singleStep nofun

theorem honours_stepOver (d : Debugger) (budget : UInt64) : Honours 1 d (d.stepOver budget) := by
  unfold stepOver
  split_ifs
  · exact honours_idle 1 StopReason.noConfusion
  · exact honours_singleStep nofun
  · exact honours_stepOverLoop d

/-! ### The command that does not -/

theorem length_le_finishLoop (d : Debugger) (depth : UInt64) (left : ℕ) :
    d.log.length ≤ (d.finishLoop depth left).2.log.length := by
  obtain ⟨n, d', hreaches, -, ⟨-, heq⟩ | ⟨-, -, heq⟩⟩ := finishLoop_cases depth left d
  · rw [heq, hreaches.log]
    exact Nat.le_add_right _ n
  · have hlogged := (@honours_singleStep d' 1 nofun).logged
    rw [heq]
    have hbefore := hreaches.log
    omega

/-- Before the function returns, the program ends, a watched value changes or the budget is used up,
no enabled breakpoint is reached after the first instruction. -/
def Undisturbed (d : Debugger) (budget : UInt64) : Prop :=
  d.machine.loaded = true → ∀ k, 0 < k → k < budget.toNat →
    (∀ j < k, d.Continues d.machine.cpu.sp j) → d.Passes (d.machine.steps k)

/-- `finish` misses no breakpoint exactly when it meets none. -/
theorem honours_finish_iff (d : Debugger) (budget : UInt64) :
    Honours 1 d (d.finish budget) ↔ d.Undisturbed budget := by
  unfold finish Undisturbed
  cases hloaded : d.machine.loaded with
  | false => exact ⟨fun _ => nofun, fun _ => honours_idle 1 StopReason.noConfusion⟩
  | true =>
    constructor
    · intro h _ k hk hbudget hbefore
      exact h.passes k hk ((lt_performed_finishLoop hk).mpr ⟨hbudget, hbefore⟩)
    · intro h
      refine ⟨length_le_finishLoop d _ _, fun k hk hlt => ?_,
        fun hstop => absurd hstop (finishLoop_ne_breakpoint _ _ _)⟩
      obtain ⟨hbudget, hbefore⟩ := (lt_performed_finishLoop hk).mp hlt
      exact h rfl k hk hbudget hbefore

/-! ### Sessions -/

/-- Every command of a session that resumes the program honours the breakpoints of its time. -/
def AllHonoured (start : VirtualMachine) (executable : Executable) (commands : List Command) :
    Prop :=
  ∀ before command after result, commands = before ++ command :: after →
    (session start executable before).resume command = some result →
      Honours 1 (session start executable before) result

/-- A session misses no breakpoint exactly when no `finish` of it meets one. -/
theorem allHonoured_iff (start : VirtualMachine) (executable : Executable)
    (commands : List Command) :
    AllHonoured start executable commands ↔
      ∀ before budget after, commands = before ++ .finish budget :: after →
        (session start executable before).Undisturbed budget := by
  constructor
  · intro h before budget after hcommands
    exact (honours_finish_iff _ budget).mp (h before _ after _ hcommands rfl)
  · intro h before command after result hcommands hresume
    cases command with
    | run budget =>
      cases hresume
      exact honours_run _ budget
    | step =>
      cases hresume
      exact honours_step _
    | stepOver budget =>
      cases hresume
      exact honours_stepOver _ budget
    | finish budget =>
      cases hresume
      exact (honours_finish_iff _ budget).mpr (h before budget after hcommands)
    | _ => cases hresume

/-- `CALL f`, `HALT`, and `f: PUSH R1`, `POP R1`, `RET`. -/
def savesRegister : Executable where
  segments := [
    { type := .text, flags := Executable.SegmentFlags.read ||| Executable.SegmentFlags.exec,
      name := str ".text", virtualAddress := 0x10000, virtualSize := 40,
      data := [8, 0, 0, 0, 0, 0, 0, 87, 0, 0, 0, 0, 0, 0, 0, 1, 0, 0, 0, 0, 0, 0, 16, 21,
        0, 0, 0, 0, 0, 0, 16, 22, 0, 0, 0, 0, 0, 0, 0, 88] }]
  entryPoint := 0x10000

def savesRegisterStart : VirtualMachine := (VirtualMachine.load {} savesRegister).2

theorem load_savesRegister :
    VirtualMachine.load {} savesRegister = (.ok (), savesRegisterStart) := by rfl

/-- A breakpoint on the POP, a step into the function, and `finish`: the POP is executed. -/
theorem finish_runs_over : VirtualMachine.load {} savesRegister = (.ok (), savesRegisterStart) ∧
    ¬AllHonoured savesRegisterStart savesRegister [.addBreakpoint 0x10018, .step, .finish 10] := by
  refine ⟨load_savesRegister, fun hall => ?_⟩
  have h := hall [.addBreakpoint 0x10018, .step] (.finish 10) [] _ rfl rfl
  have hpasses := h.passes 1 (le_refl 1) (by decide) _ (by rfl)
  -- the second step of `finish` is the one at the breakpoint
  have hhit :
      ((session savesRegisterStart savesRegister [.addBreakpoint 0x10018, .step]).breakpointAt
        ((session savesRegisterStart savesRegister [.addBreakpoint 0x10018, .step]).machine.steps
          1).cpu.pc).isSome = true := by decide
  rw [hpasses] at hhit
  cases hhit

end Debugger
end MiniTool
