import MiniToolchain.Assembler.Places
import MiniToolchain.Diagnostics.Rendering
import MiniToolchain.Disassembler.Listing
import MiniToolchain.Linker.Load
import MiniToolchain.Linker.Safety
import MiniToolchain.Playground.Http
import MiniToolchain.Playground.Session

/-!
# A request of the playground

The source is assembled, linked, loaded and run, and the report says how far that went.

## Main definitions

* `RunRequest`, `Stage`, `RunReport`, `runSource`.
* `CappedMachine.run` — a run with the provider of the playground.
* `Ran` — a report of what a machine does on the input of a request.

## Main results

* `run_eq` — it is the run of the machine with the provider that has no cap.
* `ran_runLoaded` — what a report says of a run.
* `runSource_reports` — what a request is answered with.
-/

namespace MiniTool
namespace Playground

open Vm Isa

/-! ### The source -/

/-- Longest accepted source text. -/
abbrev kMaxSourceBytes : ℕ := 262144

abbrev kDefaultPlaygroundBudget : UInt64 := 5000000

/-- The largest budget a caller may ask for. -/
abbrev kMaxPlaygroundBudget : UInt64 := 50000000

/-- The name of the buffer being edited. -/
def kSourceName : Str := str "playground.asm"

structure RunRequest where
  source : Str := []
  /-- Supplied to the `read` system call. -/
  input : Str := []
  optLevel : Optimizer.OptLevel := .O0
  budget : UInt64 := kDefaultPlaygroundBudget
  wantDisassembly : Bool := true

/-- Where a job stopped. -/
inductive Stage
  | assemble
  | link
  | load
  | execute
  | finished
  deriving DecidableEq, Repr

def stageName : Stage → String
  | .assemble => "assemble"
  | .link => "link"
  | .load => "load"
  | .execute => "execute"
  | .finished => "finished"

structure RunReport where
  ok : Bool := false
  stage : Stage := .finished
  diagnostics : Str := []
  /-- A reason that has no place in the source. -/
  error : Str := []
  output : Str := []
  outputTruncated : Bool := false
  disassembly : Str := []
  exitCode : UInt64 := 0
  instructions : UInt64 := 0
  stats : Optimizer.OptStats := {}
  registers : Registers := fun _ => 0
  pc : UInt64 := 0
  sp : UInt64 := 0
  flags : UInt64 := 0

/-- Records the headline, unless the diagnostics say it already. -/
def setError (report : RunReport) (message : Str) : RunReport :=
  if message ≠ [] ∧ find message report.diagnostics ≠ none then report
  else { report with error := message }

def recordState (report : RunReport) (machine : VirtualMachine) : RunReport :=
  { report with
    registers := machine.cpu.registers
    pc := machine.cpu.pc
    sp := machine.cpu.sp
    flags := machine.cpu.flags }

namespace CappedMachine

/-- The loop of `run`, with the budget that is left. -/
def runLoop (m : CappedMachine) (executed : ℕ) : ℕ → RunResult × CappedMachine
  | 0 =>
    if m.machine.cpu.halted then
      ({ exitCode := m.machine.cpu.exitCode, instructions := m.machine.cpu.instructionCount,
         pc := m.machine.cpu.pc }, m)
    else
      ({ error := .budgetExhausted,
         message := s!"stopped after {executed} instructions; the program may not terminate",
         pc := m.machine.cpu.pc, instructions := m.machine.cpu.instructionCount }, m)
  | budget + 1 =>
    if m.machine.cpu.halted then
      ({ exitCode := m.machine.cpu.exitCode, instructions := m.machine.cpu.instructionCount,
         pc := m.machine.cpu.pc }, m)
    else
      match m.step with
      | (.error fault, m) =>
        ({ error := fault.error, message := fault.message, pc := fault.pc,
           instructions := m.machine.cpu.instructionCount }, m)
      | (.ok (), m) => runLoop m (executed + 1) budget

def run (m : CappedMachine) (budget : UInt64) : RunResult × CappedMachine :=
  if !m.machine.loaded then ({ error := .notLoaded, message := "no program is loaded" }, m)
  else runLoop m 0 budget.toNat

end CappedMachine

/-- `std::clamp(budget, 1, kMaxPlaygroundBudget)`. -/
def clampBudget (budget : UInt64) : UInt64 :=
  if budget < 1 then 1 else if kMaxPlaygroundBudget < budget then kMaxPlaygroundBudget else budget

/-- Runs a loaded machine. -/
def runLoaded (report : RunReport) (request : RunRequest) (machine : VirtualMachine) : RunReport :=
  let (result, m) := (cappedStart machine request.input).run (clampBudget request.budget)
  let report := recordState
    { report with
      output := m.syscalls.output
      outputTruncated := m.syscalls.truncated
      exitCode := result.exitCode
      instructions := result.instructions } m.machine
  if result.error ≠ .none then
    setError { report with stage := .execute } (Str.ofText result.message)
  else { report with ok := true, stage := .finished }

/-- Loads and runs an image. -/
def runLinked (report : RunReport) (request : RunRequest) (linked : Executable) : RunReport :=
  let report :=
    if request.wantDisassembly then
      { report with disassembly := Disassembler.disassembleExecutable {} linked }
    else report
  match VirtualMachine.load {} linked with
  | (.error message, _) => setError { report with stage := .load } (Str.ofText message)
  | (.ok (), machine) => runLoaded report request machine

/-- What leaves `runSource` as an exception. -/
inductive Exception
  | outOfRange
  | lengthError
  | badAlloc
  deriving DecidableEq, Repr

/-- Links an object and runs the image.  The linker reports what it returns. -/
def runAssembled (request : RunRequest) (sources : SourceManager)
    (diagnostics : Diag.DiagnosticEngine) (assembled : AssembleResult) :
    Except Exception RunReport :=
  let report : RunReport :=
    { diagnostics := diagnostics.renderAll sources, stats := assembled.stats }
  match Linker.link [assembled.object] {} with
  | .error .outOfRange => .error .outOfRange
  | .error (.failed diagnostic) =>
    .ok (setError
      { report with
        stage := .link
        diagnostics := (diagnostics.report diagnostic).renderAll sources }
      (Str.ofText diagnostic.message))
  | .ok linked => .ok (runLinked report request linked)

/-- The buffer being edited, as a file. -/
def sourcesOf (request : RunRequest) : SourceManager :=
  [{ name := kSourceName, text := request.source }]

/-- Assembles, links, loads and runs a request; `none` if the parser runs out of fuel. -/
def runSource (oob : ℕ → Bool) (memory : ℕ) (request : RunRequest) :
    Option (Except Exception RunReport) :=
  if request.source.length > kMaxSourceBytes then
    let message := s!"source is {request.source.length} bytes; the limit is {kMaxSourceBytes}"
    some (.ok { stage := .assemble, error := str message })
  else
    match assembleSource oob memory (sourcesOf request) 0 {} { optLevel := request.optLevel } with
    | none => none
    | some (.error .outOfRange, _) => some (.error .outOfRange)
    | some (.error .lengthError, _) => some (.error .lengthError)
    | some (.error .badAlloc, _) => some (.error .badAlloc)
    | some (.error (.message message), diagnostics) =>
      some (.ok (setError
        { stage := .assemble, diagnostics := diagnostics.renderAll (sourcesOf request) }
        (Str.ofText message)))
    | some (.ok assembled, diagnostics) =>
      some (runAssembled request (sourcesOf request) diagnostics assembled)

/-! ### The run -/

theorem runLoop_eq (m : CappedMachine) {provider : DefaultSyscallProvider}
    (h : Shadows m.syscalls provider) (executed budget : ℕ) : ∃ provider',
      Shadows (m.runLoop executed budget).2.syscalls provider' ∧
      (setSyscallProvider m.machine provider).runLoop executed budget =
        ((m.runLoop executed budget).1,
          setSyscallProvider (m.runLoop executed budget).2.machine provider') := by
  induction budget generalizing m provider executed with
  | zero =>
    refine ⟨provider, ?_⟩
    unfold CappedMachine.runLoop VirtualMachine.runLoop
    rw [cpu_setSyscallProvider]
    split_ifs
    · exact ⟨h, rfl⟩
    · exact ⟨h, rfl⟩
  | succ budget ih =>
    unfold CappedMachine.runLoop VirtualMachine.runLoop
    rw [cpu_setSyscallProvider]
    split_ifs
    · exact ⟨provider, h, rfl⟩
    · obtain ⟨provider', hshadows, hstep, -, -⟩ := shadows_step m h
      rw [hstep]
      cases hresult : m.step with
      | mk result next =>
        rw [hresult] at hshadows
        cases result with
        | error fault => exact ⟨provider', hshadows, rfl⟩
        | ok u => exact ih next hshadows (executed + 1)

/-- **A run of the playground** is the run of the machine whose provider has no cap, and of that run
it holds the beginning of the output. -/
theorem run_eq (machine : VirtualMachine) (input : Str) (budget : UInt64) : ∃ provider,
    Shadows ((cappedStart machine input).run budget).2.syscalls provider ∧
      (uncappedStart machine input).run budget =
        (((cappedStart machine input).run budget).1,
          setSyscallProvider ((cappedStart machine input).run budget).2.machine provider) := by
  have hstart : Shadows (cappedStart machine input).syscalls { capture := true, input } :=
    ⟨rfl, rfl, rfl⟩
  unfold CappedMachine.run VirtualMachine.run
  have hloaded : (uncappedStart machine input).loaded =
    (cappedStart machine input).machine.loaded := rfl
  rw [hloaded]
  split_ifs
  · exact ⟨_, hstart, rfl⟩
  · exact runLoop_eq (cappedStart machine input) hstart 0 budget.toNat

/-! ### The report -/

/-- The report is that of a run of the machine within the budget, with the beginning of its
output. -/
structure Ran (request : RunRequest) (machine : VirtualMachine) (report : RunReport) : Prop where
  output : report.output = ((uncappedStart machine request.input).run
    (clampBudget request.budget)).2.syscalls.output.take kMaxOutputBytes
  outputTruncated : report.outputTruncated = true ↔ kMaxOutputBytes <
    ((uncappedStart machine request.input).run
      (clampBudget request.budget)).2.syscalls.output.length
  cpu : report.registers = ((uncappedStart machine request.input).run
      (clampBudget request.budget)).2.cpu.registers ∧
    report.pc = ((uncappedStart machine request.input).run (clampBudget request.budget)).2.cpu.pc ∧
    report.sp = ((uncappedStart machine request.input).run (clampBudget request.budget)).2.cpu.sp ∧
    report.flags =
      ((uncappedStart machine request.input).run (clampBudget request.budget)).2.cpu.flags
  exitCode : report.exitCode =
    ((uncappedStart machine request.input).run (clampBudget request.budget)).1.exitCode
  instructions : report.instructions =
    ((uncappedStart machine request.input).run (clampBudget request.budget)).1.instructions
  ok : report.ok = true ↔
    ((uncappedStart machine request.input).run (clampBudget request.budget)).1.error = .none

/-- The flag and the stage of a report agree, and its headline is not in its diagnostics. -/
structure Consistent (report : RunReport) : Prop where
  ok : report.ok = true ↔ report.stage = .finished
  headline : report.error ≠ [] → find report.error report.diagnostics = none

section

variable {report : RunReport} {request : RunRequest}

/-- A headline is only set where it says something new. -/
theorem consistent_setError (hok : report.ok = true ↔ report.stage = .finished)
    (hnone : report.error = []) (message : Str) : Consistent (setError report message) := by
  unfold setError
  split_ifs with hsaid
  · exact ⟨hok, fun herror => absurd hnone herror⟩
  · refine ⟨hok, fun herror => ?_⟩
    by_contra hfound
    exact hsaid ⟨herror, hfound⟩

theorem stage_setError (report : RunReport) (message : Str) :
    (setError report message).stage = report.stage := by
  unfold setError
  split_ifs
  · rfl
  · rfl

/-- The headline says nothing of the run. -/
theorem Ran.setError {machine : VirtualMachine} (h : Ran request machine report) (message : Str) :
    Ran request machine (setError report message) := by
  unfold Playground.setError
  split_ifs
  · exact h
  · exact ⟨h.output, h.outputTruncated, h.cpu, h.exitCode, h.instructions, h.ok⟩

/-- A report with the state of the capped machine is that of the run without the cap. -/
theorem ran_of_run {machine : VirtualMachine} {result : RunResult} {m : CappedMachine}
    {provider : DefaultSyscallProvider} (hshadows : Shadows m.syscalls provider)
    (heq : (uncappedStart machine request.input).run (clampBudget request.budget) =
      (result, setSyscallProvider m.machine provider))
    (houtput : report.output = m.syscalls.output)
    (htruncated : report.outputTruncated = m.syscalls.truncated)
    (hcpu : report.registers = m.machine.cpu.registers ∧ report.pc = m.machine.cpu.pc ∧
      report.sp = m.machine.cpu.sp ∧ report.flags = m.machine.cpu.flags)
    (hexit : report.exitCode = result.exitCode) (hcount : report.instructions = result.instructions)
    (hok : report.ok = true ↔ result.error = .none) : Ran request machine report := by
  have hinner : m.syscalls.output = provider.output.take kMaxOutputBytes :=
    congrArg DefaultSyscallProvider.output hshadows.inner
  refine ⟨?_, ?_, ?_, ?_, ?_, ?_⟩
  · rw [heq, houtput]
    exact hinner
  · rw [heq, htruncated, hshadows.truncated]
    exact decide_eq_true_iff
  · rw [heq]
    exact hcpu
  · rw [heq]
    exact hexit
  · rw [heq]
    exact hcount
  · rw [heq]
    exact hok

/-- **What a report says of a run.** -/
theorem ran_runLoaded (hnone : report.error = []) (hok : report.ok = false)
    (machine : VirtualMachine) :
    Ran request machine (runLoaded report request machine) ∧
      Consistent (runLoaded report request machine) ∧
      (runLoaded report request machine).stage ≠ .load := by
  obtain ⟨provider, hshadows, heq⟩ := run_eq machine request.input (clampBudget request.budget)
  unfold runLoaded
  generalize (cappedStart machine request.input).run (clampBudget request.budget) = outcome
    at hshadows heq ⊢
  obtain ⟨result, m⟩ := outcome
  dsimp only at hshadows heq ⊢
  by_cases herror : result.error ≠ .none
  · rw [if_pos herror]
    have hfalse : ¬report.ok = true := by simp [hok]
    refine ⟨Ran.setError ?_ _, consistent_setError ?_ ?_ _, ?_⟩
    · exact ran_of_run hshadows heq rfl rfl ⟨rfl, rfl, rfl, rfl⟩
        rfl rfl (iff_of_false hfalse herror)
    · exact iff_of_false hfalse (by simp)
    · exact hnone
    · rw [stage_setError]
      simp
  · rw [if_neg herror]
    refine ⟨?_, ⟨iff_of_true rfl rfl, fun h => absurd hnone h⟩, by simp⟩
    exact ran_of_run hshadows heq rfl rfl ⟨rfl, rfl, rfl, rfl⟩ rfl rfl
      (iff_of_true rfl (not_not.mp herror))

/-- A linked image is loaded and run. -/
theorem exists_runLinked (hnone : report.error = []) (hok : report.ok = false)
    {object : Object.ObjectFile} {linked : Executable}
    (hlink : Linker.link [object] {} = .ok linked) :
    ∃ machine, VirtualMachine.load {} linked = (.ok (), machine) ∧
      Ran request machine (runLinked report request linked) ∧
      Consistent (runLinked report request linked) ∧
      (runLinked report request linked).stage ≠ .load := by
  have hbases : Linker.LinkOptions.DefaultBases {} := ⟨rfl, rfl, rfl, rfl⟩
  obtain ⟨hplace, -⟩ := Linker.inPlace_of_link hbases hlink
  obtain ⟨machine, hload⟩ := VirtualMachine.exists_load {} (Linker.validate_of_link hlink)
    (fun s hs => (hplace s hs).stack) fun s hs => (hplace s hs).heap
  refine ⟨machine, hload, ?_⟩
  unfold runLinked
  rw [hload]
  dsimp only
  split_ifs
  · refine ran_runLoaded ?_ ?_ machine
    · exact hnone
    · exact hok
  · exact ran_runLoaded hnone hok machine

end

/-- What a request that is not too long is answered with. -/
def Answers (oob : ℕ → Bool) (memory : ℕ) (request : RunRequest) (report : RunReport) : Prop :=
  report.stage = .execute ∨ report.stage = .finished → ∃ assembled engine linked machine,
    assembleSource oob memory (sourcesOf request) 0 {} { optLevel := request.optLevel } =
        some (.ok assembled, engine) ∧
      Linker.link [assembled.object] {} = .ok linked ∧
      VirtualMachine.load {} linked = (.ok (), machine) ∧ Ran request machine report

/-- The source is short enough, and it is lowered to a module with a section of more than `most`
bytes. -/
def Overfills (oob : ℕ → Bool) (request : RunRequest) (most : ℕ) : Prop :=
  request.source.length ≤ kMaxSourceBytes ∧
    ∃ m, Lowers oob (sourcesOf request) 0 { optLevel := request.optLevel } m ∧
      ∃ source ∈ Assembler.AssemblyContext.orderedSections m, most < Assembler.endOf source.items

theorem Overfills.mono {oob : ℕ → Bool} {request : RunRequest} {most least : ℕ}
    (h : Overfills oob request most) (hle : least ≤ most) : Overfills oob request least := by
  obtain ⟨hshort, m, hlowers, source, hsource, hlong⟩ := h
  exact ⟨hshort, m, hlowers, source, hsource, hle.trans_lt hlong⟩

/-- What comes of a request: a report, or an exception for a section that is too long. -/
structure Outcome (oob : ℕ → Bool) (memory : ℕ) (request : RunRequest)
    (outcome : Except Exception RunReport) : Prop where
  report : ∀ report, outcome = .ok report →
    report.stage ≠ .load ∧ Consistent report ∧ Answers oob memory request report
  throws : (∃ e, outcome = .error e) ↔ Overfills oob request (Assembler.capacity memory)
  exception : ∀ e, outcome = .error e →
    (e = .lengthError ∧ Overfills oob request Assembler.kMaxSize) ∨
      (e = .badAlloc ∧ Overfills oob request memory)

/-- A report for a request that does not overfill the memory. -/
theorem Outcome.of_report {oob : ℕ → Bool} {memory : ℕ} {request : RunRequest} {report : RunReport}
    (hstage : report.stage ≠ .load) (hconsistent : Consistent report)
    (hanswers : Answers oob memory request report)
    (hfits : ¬Overfills oob request (Assembler.capacity memory)) :
    Outcome oob memory request (.ok report) where
  report := by
    rintro _ ⟨⟩
    exact ⟨hstage, hconsistent, hanswers⟩
  throws := iff_of_false (fun ⟨_, he⟩ => nomatch he) hfits
  exception := nofun

/-- What comes of a request. -/
theorem exists_outcome (oob : ℕ → Bool) (memory : ℕ) (request : RunRequest) :
    ∃ outcome, runSource oob memory request = some outcome ∧
      Outcome oob memory request outcome := by
  unfold runSource
  split_ifs with hlong
  · refine ⟨_, rfl, .of_report (by simp) ⟨by simp, fun _ => rfl⟩ ?_ ?_⟩
    · rintro (hstage | hstage)
      · cases hstage
      · cases hstage
    · exact fun h => absurd h.1 (Nat.not_le.mpr hlong)
  · have hsource : (sourcesOf request)[(0 : FileId).toNat]? =
        some { name := kSourceName, text := request.source } := rfl
    obtain ⟨result, engine, hassemble, hrange, -⟩ :=
      exists_assembleSource oob memory hsource { optLevel := request.optLevel }
    -- the assembler throws when it is to hold too much
    have hthrows : Overfills oob request (Assembler.capacity memory) →
        result = .error .lengthError ∨ result = .error .badAlloc := by
      rintro ⟨-, m, hlowers, hsection⟩
      obtain ⟨e, engine', hthrows, he⟩ := exists_throws hlowers hsection
      rw [hassemble] at hthrows
      cases hthrows
      exact he.imp (congrArg Except.error) (congrArg Except.error)
    rw [hassemble]
    cases result with
    | error e =>
      obtain ⟨hlength, hbad⟩ := assembleSource_throws hassemble
      cases e with
      | outOfRange => exact absurd rfl hrange
      | lengthError =>
        have hover : Overfills oob request Assembler.kMaxSize :=
          ⟨Nat.le_of_not_lt hlong, hlength rfl⟩
        refine ⟨_, rfl, nofun, iff_of_true ⟨_, rfl⟩ (hover.mono (min_le_left _ _)), ?_⟩
        rintro _ ⟨⟩
        exact .inl ⟨rfl, hover⟩
      | badAlloc =>
        have hover : Overfills oob request memory := ⟨Nat.le_of_not_lt hlong, hbad rfl⟩
        refine ⟨_, rfl, nofun, iff_of_true ⟨_, rfl⟩ (hover.mono (min_le_right _ _)), ?_⟩
        rintro _ ⟨⟩
        exact .inr ⟨rfl, hover⟩
      | message message =>
        refine ⟨_, rfl, .of_report ?_ (consistent_setError (by simp) rfl _) ?_ ?_⟩
        · rw [stage_setError]
          simp
        · unfold Answers
          rw [stage_setError]
          simp
        · exact fun h => (hthrows h).elim nofun nofun
    | ok assembled =>
      have hfits : ¬Overfills oob request (Assembler.capacity memory) :=
        fun h => (hthrows h).elim nofun nofun
      dsimp only
      unfold runAssembled
      cases hlink : Linker.link [assembled.object] {} with
      | error e =>
        cases e with
        | outOfRange => exact absurd hlink (Linker.link_ne_outOfRange _ _)
        | failed diagnostic =>
          refine ⟨_, rfl, .of_report ?_ (consistent_setError (by simp) rfl _) ?_ hfits⟩
          · rw [stage_setError]
            simp
          · unfold Answers
            rw [stage_setError]
            simp
      | ok linked =>
        obtain ⟨machine, hload, hran, hconsistent, hstage⟩ := @exists_runLinked
          { diagnostics := engine.renderAll (sourcesOf request), stats := assembled.stats } request
          rfl rfl _ _ hlink
        exact ⟨_, rfl, .of_report hstage hconsistent
          (fun _ => ⟨assembled, engine, linked, machine, hassemble, hlink, hload, hran⟩) hfits⟩

end Playground
end MiniTool
