import MiniToolchain.Vm.Step

/-!
# The debugger

Breakpoints, watchpoints and the four ways to resume a program.  The debugger reaches the machine
through `step` and the reads of its memory only.

## Main definitions

* `Debugger`, `Breakpoint`, `Watchpoint`, `StopEvent`.
* `singleStep`, `run`, `step`, `stepOver`, `finish` — the resuming commands.
* `Command`, `session` — a sequence of commands on a machine.

## Main results

* `Tracks.apply` — a command steps the machine and does nothing else to it.
* `debugger_transparent` — the machine of a session is the machine after as many steps.
-/

namespace MiniTool
namespace Debugger

open Vm Isa

structure Breakpoint where
  id : UInt32 := 0
  address : UInt64 := 0
  enabled : Bool := true
  /-- The symbol the breakpoint was set on, for display. -/
  symbol : Str := []
  hits : UInt32 := 0
  deriving DecidableEq, Repr

structure Watchpoint where
  id : UInt32 := 0
  address : UInt64 := 0
  previous : UInt64 := 0
  enabled : Bool := true
  deriving DecidableEq, Repr

/-- Why the debugger gave control back. -/
inductive StopReason
  | breakpoint
  | watchpoint
  | stepComplete
  | halted
  | fault
  | notRunning
  deriving DecidableEq, Repr

structure StopEvent where
  reason : StopReason := .stepComplete
  pc : UInt64 := 0
  message : String := ""
  /-- Only meaningful when the reason is a fault. -/
  error : VMError := .none
  deriving DecidableEq, Repr

end Debugger

open Debugger in
/-- The debugger of a machine.  The source has no `log`: it keeps what each single step of the
session returned. -/
structure Debugger where
  machine : Vm.VirtualMachine
  executable : Executable
  breakpoints : List Breakpoint := []
  watchpoints : List Watchpoint := []
  nextId : UInt32 := 1
  started : Bool := false
  log : List StopEvent := []

namespace Debugger

open Vm Isa

/-! ### Breakpoints and watchpoints -/

/-- A symbol, or an offset from it. -/
def describeAddress (d : Debugger) (address : UInt64) : Option Str :=
  (d.executable.symbolContaining address).map fun symbol =>
    if symbol.address = address then symbol.name
    else
      let offset := address - symbol.address
      symbol.name ++ str s!"+{offset}"

def findSymbol (d : Debugger) (name : Str) : Option UInt64 :=
  (d.executable.findSymbol name).map (·.address)

def addBreakpoint (d : Debugger) (address : UInt64) : UInt32 × Debugger :=
  let symbol := (d.describeAddress address).getD []
  (d.nextId, { d with
    nextId := d.nextId + 1
    breakpoints := d.breakpoints ++ [{ id := d.nextId, address, symbol }] })

/-- Sets a breakpoint on a symbol, if the name is known. -/
def addBreakpointBySymbol (d : Debugger) (name : Str) : Option UInt32 × Debugger :=
  match d.executable.findSymbol name with
  | none => (none, d)
  | some symbol =>
    let (id, d) := d.addBreakpoint symbol.address
    (some id, d)

def removeBreakpoint (d : Debugger) (id : UInt32) : Bool × Debugger :=
  if d.breakpoints.any fun breakpoint => breakpoint.id = id then
    (true, { d with
      breakpoints := d.breakpoints.filter fun breakpoint => breakpoint.id ≠ id })
  else (false, d)

/-- Enables or disables the first breakpoint with the id. -/
def setEnabled (id : UInt32) (enabled : Bool) : List Breakpoint → Option (List Breakpoint)
  | [] => none
  | breakpoint :: rest =>
    if breakpoint.id = id then some ({ breakpoint with enabled } :: rest)
    else (setEnabled id enabled rest).map (breakpoint :: ·)

def setBreakpointEnabled (d : Debugger) (id : UInt32) (enabled : Bool) : Bool × Debugger :=
  match setEnabled id enabled d.breakpoints with
  | none => (false, d)
  | some breakpoints => (true, { d with breakpoints })

/-- Watches the eight bytes at an address, if they can be read. -/
def addWatchpoint (d : Debugger) (address : UInt64) : Option UInt32 × Debugger :=
  match d.machine.memory.readU64 address with
  | .error _ => (none, d)
  | .ok previous =>
    (some d.nextId, { d with
      nextId := d.nextId + 1
      watchpoints := d.watchpoints ++ [{ id := d.nextId, address, previous }] })

def removeWatchpoint (d : Debugger) (id : UInt32) : Bool × Debugger :=
  if d.watchpoints.any fun watchpoint => watchpoint.id = id then
    (true, { d with
      watchpoints := d.watchpoints.filter fun watchpoint => watchpoint.id ≠ id })
  else (false, d)

/-- The first enabled breakpoint at an address. -/
def breakpointAt (d : Debugger) (address : UInt64) : Option Breakpoint :=
  d.breakpoints.find? fun breakpoint => breakpoint.enabled && breakpoint.address = address

/-- The first watchpoint whose bytes changed, which then remembers the new ones. -/
def checkWatchpoints (machine : VirtualMachine) :
    List Watchpoint → Option (StopEvent × List Watchpoint)
  | [] => none
  | watchpoint :: rest =>
    let later := (checkWatchpoints machine rest).map fun (event, rest) =>
      (event, watchpoint :: rest)
    if !watchpoint.enabled then later
    else
      match machine.memory.readU64 watchpoint.address with
      | .error _ => later
      | .ok value =>
        if value = watchpoint.previous then later
        else
          let address := Binary.hexText 1 watchpoint.address.toNat
          let before := Binary.hexText 1 watchpoint.previous.toNat
          let after := Binary.hexText 1 value.toNat
          some ({ reason := .watchpoint, pc := machine.cpu.pc,
                  message := s!"[{watchpoint.id}] 0x{address}: 0x{before} -> 0x{after}" },
            { watchpoint with previous := value } :: rest)

/-! ### Resuming -/

/-- What a step that did not fault is reported as, and the watchpoints after it. -/
def classify (machine : VirtualMachine) (watchpoints : List Watchpoint) :
    StopEvent × List Watchpoint :=
  match checkWatchpoints machine watchpoints with
  | some (event, watchpoints) => (event, watchpoints)
  | none =>
    if machine.cpu.halted then
      ({ reason := .halted, pc := machine.cpu.pc,
         message := s!"exit code {machine.cpu.exitCode}" }, watchpoints)
    else ({ reason := .stepComplete, pc := machine.cpu.pc }, watchpoints)

/-- Steps once and classifies the outcome. -/
def singleStep (d : Debugger) : StopEvent × Debugger :=
  if d.machine.cpu.halted then
    ({ reason := .halted, pc := d.machine.cpu.pc, message := "already halted" }, d)
  else
    match d.machine.step with
    | (.error fault, machine) =>
      let event : StopEvent :=
        { reason := .fault, pc := fault.pc, message := fault.message, error := fault.error }
      (event, { d with machine, started := true, log := d.log ++ [event] })
    | (.ok (), machine) =>
      let (event, watchpoints) := classify machine d.watchpoints
      (event, { d with machine, watchpoints, started := true, log := d.log ++ [event] })

def notRunning : StopEvent := { reason := .notRunning, message := "no program is loaded" }

/-- What a loop that used up its budget reports. -/
def exhausted (d : Debugger) (message : String) : StopEvent :=
  { reason := .fault, pc := d.machine.cpu.pc, message, error := .budgetExhausted }

def step (d : Debugger) : StopEvent × Debugger :=
  if !d.machine.loaded then (notRunning, d) else d.singleStep

/-- The breakpoint a program stops at, and the count of its hits. -/
def stopAt (d : Debugger) (hit : Breakpoint) : StopEvent × Debugger :=
  let breakpoints := d.breakpoints.map fun breakpoint =>
    if breakpoint.id = hit.id then { breakpoint with hits := breakpoint.hits + 1 } else breakpoint
  ({ reason := .breakpoint, pc := d.machine.cpu.pc, message := hit.symbol.text },
    { d with started := true, breakpoints })

/-- The loop of `run`, with the budget that is left. -/
def runLoop (budget : UInt64) (d : Debugger) (executed : ℕ) : ℕ → StopEvent × Debugger
  | 0 => (d.exhausted s!"stopped after {budget} instructions", d)
  | left + 1 =>
    -- the first step skips a breakpoint, so that `continue` makes progress
    let hit := if 0 < executed ∨ !d.started then d.breakpointAt d.machine.cpu.pc else none
    match hit with
    | some hit => d.stopAt hit
    | none =>
      let (event, d) := d.singleStep
      if event.reason ≠ .stepComplete then (event, d) else runLoop budget d (executed + 1) left

def run (d : Debugger) (budget : UInt64) : StopEvent × Debugger :=
  if !d.machine.loaded then (notRunning, d) else runLoop budget d 0 budget.toNat

/-- The next instruction is a CALL. -/
def atCall (d : Debugger) : Bool :=
  match d.machine.memory.fetchInstruction d.machine.cpu.pc with
  | .error _ => false
  | .ok word =>
    match decode word with
    | .error _ => false
    | .ok instruction => instruction.opcode = .CALL

/-- Runs until control is back after the call, with the stack no deeper than before. -/
def stepOverLoop (d : Debugger) (resume depth : UInt64) : ℕ → StopEvent × Debugger
  | 0 => (d.exhausted "step over did not return", d)
  | left + 1 =>
    let (event, d) := d.singleStep
    if event.reason ≠ .stepComplete then (event, d)
    else if d.machine.cpu.pc = resume ∧ d.machine.cpu.sp ≥ depth then (event, d)
    else
      match d.breakpointAt d.machine.cpu.pc with
      | some hit =>
        ({ reason := .breakpoint, pc := d.machine.cpu.pc, message := hit.symbol.text }, d)
      | none => stepOverLoop d resume depth left

def stepOver (d : Debugger) (budget : UInt64) : StopEvent × Debugger :=
  if !d.machine.loaded then (notRunning, d)
  else if !d.atCall then d.singleStep
  else
    d.stepOverLoop (d.machine.cpu.pc + UInt64.ofNat kInstructionSize) d.machine.cpu.sp budget.toNat

/-- Runs until the frame is popped. -/
def finishLoop (d : Debugger) (depth : UInt64) : ℕ → StopEvent × Debugger
  | 0 => (d.exhausted "function did not return", d)
  | left + 1 =>
    let (event, d) := d.singleStep
    if event.reason ≠ .stepComplete then (event, d)
    else if d.machine.cpu.sp > depth then (event, d)
    else finishLoop d depth left

def finish (d : Debugger) (budget : UInt64) : StopEvent × Debugger :=
  if !d.machine.loaded then (notRunning, d)
  else d.finishLoop d.machine.cpu.sp budget.toNat

/-! ### Sessions -/

/-- What a user can ask for.  The inspections are `const` in the source; two of them stand for
all. -/
inductive Command
  | addBreakpoint (address : UInt64)
  | addBreakpointBySymbol (name : Str)
  | removeBreakpoint (id : UInt32)
  | setBreakpointEnabled (id : UInt32) (enabled : Bool)
  | addWatchpoint (address : UInt64)
  | removeWatchpoint (id : UInt32)
  | findSymbol (name : Str)
  | describeAddress (address : UInt64)
  | run (budget : UInt64)
  | step
  | stepOver (budget : UInt64)
  | finish (budget : UInt64)
  deriving DecidableEq, Repr

/-- The debugger after a command. -/
def apply (d : Debugger) : Command → Debugger
  | .addBreakpoint address => (d.addBreakpoint address).2
  | .addBreakpointBySymbol name => (d.addBreakpointBySymbol name).2
  | .removeBreakpoint id => (d.removeBreakpoint id).2
  | .setBreakpointEnabled id enabled => (d.setBreakpointEnabled id enabled).2
  | .addWatchpoint address => (d.addWatchpoint address).2
  | .removeWatchpoint id => (d.removeWatchpoint id).2
  | .findSymbol _ | .describeAddress _ => d
  | .run budget => (d.run budget).2
  | .step => d.step.2
  | .stepOver budget => (d.stepOver budget).2
  | .finish budget => (d.finish budget).2

/-- The debugger after a sequence of commands on a machine. -/
def session (machine : VirtualMachine) (executable : Executable) (commands : List Command) :
    Debugger :=
  commands.foldl apply { machine, executable }

/-! ### Transparency -/

/-- An event reports the step the machine is about to take. -/
def Reports (machine : VirtualMachine) (event : StopEvent) : Prop :=
  match machine.step.1 with
  | .error fault => event.reason = .fault ∧ event.pc = fault.pc ∧ event.error = fault.error
  | .ok () => event.reason ≠ .fault

/-- The machine took one step from `start` for each event of the log, and the event reports it. -/
structure Tracks (start : VirtualMachine) (d : Debugger) : Prop where
  machine : d.machine = start.steps d.log.length
  reports : ∀ (k : ℕ) (event : StopEvent), d.log[k]? = some event → Reports (start.steps k) event

theorem reason_of_checkWatchpoints {machine : VirtualMachine} {watchpoints : List Watchpoint}
    {event : StopEvent} {rest : List Watchpoint}
    (h : checkWatchpoints machine watchpoints = some (event, rest)) :
    event.reason = .watchpoint := by
  induction watchpoints generalizing rest with
  | nil => cases h
  | cons watchpoint watchpoints ih =>
    have hlater : ∀ {rest : List Watchpoint}, ((checkWatchpoints machine watchpoints).map
        fun x => (x.1, watchpoint :: x.2)) = some (event, rest) → event.reason = .watchpoint := by
      intro rest h
      obtain ⟨⟨event', rest'⟩, hcheck, heq⟩ := Option.map_eq_some_iff.mp h
      cases heq
      exact ih hcheck
    unfold checkWatchpoints at h
    dsimp only at h
    split_ifs at h
    · exact hlater h
    · split at h
      · exact hlater h
      · split_ifs at h
        · exact hlater h
        · cases h
          rfl

theorem reason_classify (machine : VirtualMachine) (watchpoints : List Watchpoint) :
    (classify machine watchpoints).1.reason ≠ .fault := by
  unfold classify
  split
  · next hcheck =>
    rw [reason_of_checkWatchpoints hcheck]
    decide
  · split_ifs
    · exact StopReason.noConfusion
    · exact StopReason.noConfusion

namespace Tracks

variable {start : VirtualMachine} {d : Debugger}

/-- What leaves the machine and the log alone. -/
theorem congr {d' : Debugger} (h : Tracks start d) (hmachine : d'.machine = d.machine)
    (hlog : d'.log = d.log) : Tracks start d' :=
  ⟨by rw [hmachine, hlog, h.machine], by rw [hlog]; exact h.reports⟩

/-- One more step, and its report. -/
theorem snoc {d' : Debugger} (h : Tracks start d) {event : StopEvent}
    (hmachine : d'.machine = d.machine.step.2) (hlog : d'.log = d.log ++ [event])
    (hreports : Reports d.machine event) : Tracks start d' := by
  refine ⟨?_, fun k event' hk => ?_⟩
  · rw [hmachine, hlog, List.length_append, List.length_singleton, VirtualMachine.steps_succ,
      ← h.machine]
  · rw [hlog] at hk
    rcases Nat.lt_or_ge k d.log.length with hlt | hge
    · rw [List.getElem?_append_left hlt] at hk
      exact h.reports k event' hk
    · rw [List.getElem?_append_right hge] at hk
      have hzero : k - d.log.length = 0 := by
        have := (List.getElem?_eq_some_iff.mp hk).1
        simp only [List.length_singleton] at this
        omega
      rw [hzero] at hk
      cases hk
      rw [show k = d.log.length by omega, ← h.machine]
      exact hreports

theorem singleStep (h : Tracks start d) : Tracks start d.singleStep.2 := by
  unfold Debugger.singleStep
  split_ifs
  · exact h
  · split
    · next fault machine hstep =>
      refine h.snoc (by rw [hstep]) rfl ?_
      unfold Reports
      rw [hstep]
      exact ⟨rfl, rfl, rfl⟩
    · next machine hstep =>
      refine h.snoc (by rw [hstep]) rfl ?_
      unfold Reports
      rw [hstep]
      exact reason_classify machine d.watchpoints

theorem step (h : Tracks start d) : Tracks start d.step.2 := by
  unfold Debugger.step
  split_ifs
  · exact h
  · exact h.singleStep

theorem runLoop {budget : UInt64} {left : ℕ} : ∀ {d : Debugger} {executed : ℕ}, Tracks start d →
    Tracks start (Debugger.runLoop budget d executed left).2 := by
  induction left with
  | zero => exact fun h => h
  | succ left ih =>
    intro d executed h
    unfold Debugger.runLoop
    dsimp only
    split
    · exact h.congr rfl rfl
    · split_ifs
      · exact h.singleStep
      · exact ih h.singleStep

theorem run (h : Tracks start d) (budget : UInt64) : Tracks start (d.run budget).2 := by
  unfold Debugger.run
  split_ifs
  · exact h
  · exact h.runLoop

theorem stepOverLoop {resume depth : UInt64} {left : ℕ} : ∀ {d : Debugger}, Tracks start d →
    Tracks start (d.stepOverLoop resume depth left).2 := by
  induction left with
  | zero => exact fun h => h
  | succ left ih =>
    intro d h
    unfold Debugger.stepOverLoop
    dsimp only
    split_ifs
    · exact h.singleStep
    · exact h.singleStep
    · split
      · exact h.singleStep
      · exact ih h.singleStep

theorem stepOver (h : Tracks start d) (budget : UInt64) : Tracks start (d.stepOver budget).2 := by
  unfold Debugger.stepOver
  split_ifs
  · exact h
  · exact h.singleStep
  · exact h.stepOverLoop

theorem finishLoop {depth : UInt64} {left : ℕ} : ∀ {d : Debugger}, Tracks start d →
    Tracks start (d.finishLoop depth left).2 := by
  induction left with
  | zero => exact fun h => h
  | succ left ih =>
    intro d h
    unfold Debugger.finishLoop
    dsimp only
    split_ifs
    · exact h.singleStep
    · exact h.singleStep
    · exact ih h.singleStep

theorem finish (h : Tracks start d) (budget : UInt64) : Tracks start (d.finish budget).2 := by
  unfold Debugger.finish
  split_ifs
  · exact h
  · exact h.finishLoop

/-- Every command steps the machine, or leaves it alone. -/
theorem apply (h : Tracks start d) (command : Command) : Tracks start (d.apply command) := by
  cases command with
  | addBreakpoint address => exact h.congr rfl rfl
  | addBreakpointBySymbol name =>
    show Tracks start (d.addBreakpointBySymbol name).2
    unfold addBreakpointBySymbol
    split
    · exact h
    · exact h.congr rfl rfl
  | removeBreakpoint id =>
    show Tracks start (d.removeBreakpoint id).2
    unfold removeBreakpoint
    split_ifs
    · exact h.congr rfl rfl
    · exact h
  | setBreakpointEnabled id enabled =>
    show Tracks start (d.setBreakpointEnabled id enabled).2
    unfold setBreakpointEnabled
    split
    · exact h
    · exact h.congr rfl rfl
  | addWatchpoint address =>
    show Tracks start (d.addWatchpoint address).2
    unfold addWatchpoint
    split
    · exact h
    · exact h.congr rfl rfl
  | removeWatchpoint id =>
    show Tracks start (d.removeWatchpoint id).2
    unfold removeWatchpoint
    split_ifs
    · exact h.congr rfl rfl
    · exact h
  | findSymbol name => exact h
  | describeAddress address => exact h
  | run budget => exact h.run budget
  | step => exact h.step
  | stepOver budget => exact h.stepOver budget
  | finish budget => exact h.finish budget

/-- Any sequence of commands. -/
theorem session (start : VirtualMachine) (executable : Executable) (commands : List Command) :
    Tracks start (Debugger.session start executable commands) := by
  have hfold : ∀ (commands : List Command) (d : Debugger), Tracks start d →
      Tracks start (commands.foldl Debugger.apply d) := by
    intro commands
    induction commands with
    | nil => exact fun d h => h
    | cons command commands ih => exact fun d h => ih _ (h.apply command)
  exact hfold commands _ ⟨rfl, by simp⟩

end Tracks

/-- After any sequence of commands the machine is the loaded one after as many steps as the commands
performed; and after the first step that halts or faults it is where a run with a sufficient budget
ends, with the fault the debugger reported. -/
theorem debugger_transparent {vm start : VirtualMachine} {executable : Executable}
    (hload : vm.load executable = (.ok (), start)) (commands : List Command) :
    (session start executable commands).machine =
        start.steps (session start executable commands).log.length ∧
      ∀ (k : ℕ) (event : StopEvent), (session start executable commands).log[k]? = some event →
        (∀ j < k, ¬(start.steps j).Stops) → (start.steps k).Stops →
          ∀ budget : UInt64, k < budget.toNat →
            (start.run budget).2 = start.steps (k + 1) ∧
              (event.reason = .fault → (start.run budget).1.error = event.error ∧
                (start.run budget).1.pc = event.pc) ∧
              (event.reason ≠ .fault → (start.run budget).1.error = .none) := by
  have htracks := Tracks.session start executable commands
  refine ⟨htracks.machine, fun k event hk hbefore hstops budget hbudget => ?_⟩
  obtain ⟨hloaded, hhalted⟩ : start.loaded = true ∧ start.cpu.halted = false := by
    obtain ⟨-, _, _, _, -, -, -, rfl⟩ := VirtualMachine.load_eq_ok hload
    exact ⟨rfl, rfl⟩
  have hrun : start.run budget = ((start.steps k).stopResult, start.steps (k + 1)) := by
    unfold VirtualMachine.run
    rw [hloaded]
    exact VirtualMachine.runLoop_of_stops hhalted hbefore hstops hbudget
  rw [hrun]
  refine ⟨rfl, ?_⟩
  have hreports := htracks.reports k event hk
  unfold Reports at hreports
  unfold VirtualMachine.stopResult
  cases hstep : (start.steps k).step with
  | mk outcome machine =>
    rw [hstep] at hreports
    cases outcome with
    | error fault =>
      obtain ⟨hreason, hpc, herror⟩ := hreports
      exact ⟨fun _ => ⟨herror.symm, hpc.symm⟩, fun hne => absurd hreason hne⟩
    | ok _ => exact ⟨fun hfault => absurd hfault hreports, fun _ => rfl⟩

/-- A breakpoint on the PUSH of `underflow`, a run into it, a step, and a run into the fault: the
program run alone ends in the same fault. -/
theorem debugger_transparent_underflow :
    let d := session VirtualMachine.loadedUnderflow VirtualMachine.underflow
      [.addBreakpoint 0x10008, .run 5, .step, .run 5]
    d.log.length = 4 ∧ d.machine = VirtualMachine.loadedUnderflow.steps 4 ∧
      (VirtualMachine.loadedUnderflow.run 10).2 = VirtualMachine.loadedUnderflow.steps 4 ∧
      ∃ event, d.log[3]? = some event ∧ event.reason = .fault ∧
        (VirtualMachine.loadedUnderflow.run 10).1.error = event.error ∧
        (VirtualMachine.loadedUnderflow.run 10).1.pc = event.pc := by
  intro d
  have hlength : d.log.length = 4 := by decide
  obtain ⟨hmachine, hreports⟩ := debugger_transparent VirtualMachine.load_underflow
    [.addBreakpoint 0x10008, .run 5, .step, .run 5]
  obtain ⟨event, hevent, hreason⟩ : ∃ event, d.log[3]? = some event ∧ event.reason = .fault :=
    ⟨_, rfl, rfl⟩
  have hbefore : ∀ j < 3, ¬(VirtualMachine.loadedUnderflow.steps j).Stops := by decide
  obtain ⟨hrun, hfault, -⟩ := hreports 3 event hevent hbefore (Or.inl ⟨_, rfl⟩) 10 (by decide)
  refine ⟨hlength, ?_, hrun, event, hevent, hreason, hfault hreason⟩
  rw [← hlength]
  exact hmachine

end Debugger
end MiniTool
