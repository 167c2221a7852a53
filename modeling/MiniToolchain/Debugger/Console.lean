import MiniToolchain.Debugger.Debugger
import MiniToolchain.Diagnostics.Rendering
import MiniToolchain.Disassembler.Listing
import MiniToolchain.Linker.Lines

/-!
# The console of the debugger

A line of text is a command on the debugger, or asks for one of its reports.

## Main definitions

* `parseAddress`, `splitWords` — the words of a line.
* `formatRegisters`, `formatMemory`, `formatStack`, `formatDisassembly`, `formatBacktrace` — the
  reports.
* `executeCommand`, `interactiveLoop` — the console.
* `lineCommands`, `typedCommands` — the commands of the debugger that lines ask for.

## Main results

* `executeCommand_spec` — a line does what it asks for.
* `interactiveLoop_transparent` — whatever is typed, the machine is on the run of the program.
-/

namespace MiniTool
namespace Debugger

open Vm Isa
open Disassembler (paddedHex)

/-! ### Words and numbers -/

/-- `isspace` in the C locale. -/
def isSpace (c : UInt8) : Bool := c = 0x20 || (0x09 ≤ c && c ≤ 0x0D)

def splitWords (line : Str) : List Str := (line.splitOnP isSpace).filter (· ≠ [])

/-- `from_chars` for an unsigned type: the value, and what is behind the digits. -/
def readNumber (bits base : ℕ) (text : Str) : Option (ℕ × Str) :=
  let digits := text.takeWhile (Lexer.isDigitOfBase base)
  let value := Lexer.digitsValue base digits
  if digits = [] ∨ 2 ^ bits ≤ value then none else some (value, text.drop digits.length)

/-- A number, in hexadecimal behind `0x`, or the name of a symbol. -/
def parseAddress (text : Str) (executable : Executable) : Option UInt64 :=
  if text = [] then none
  else
    let isHex := (str "0x").isPrefixOf text || (str "0X").isPrefixOf text
    let digits := if isHex then text.drop 2 else text
    match readNumber 64 (if isHex then 16 else 10) digits with
    | some (value, []) => some (UInt64.ofNat value)
    | _ => (executable.findSymbol text).map (·.address)

/-- `{:<width}`. -/
def alignedLeft (width : ℕ) (text : Str) : Str := text ++ List.replicate (width - text.length) 0x20

/-- `{:>width}`. -/
def alignedRight (width : ℕ) (text : Str) : Str := List.replicate (width - text.length) 0x20 ++ text

/-! ### Reports -/

def vmErrorName : VMError → String
  | .none => "none"
  | .invalidMemoryAccess => "invalid memory access"
  | .permissionViolation => "permission violation"
  | .illegalInstruction => "illegal instruction"
  | .divisionByZero => "division by zero"
  | .stackOverflow => "stack overflow"
  | .stackUnderflow => "stack underflow"
  | .syscallError => "syscall error"
  | .budgetExhausted => "instruction budget exhausted"
  | .notLoaded => "no program loaded"

def describeStop (event : StopEvent) : Str :=
  let message := Str.ofText event.message
  match event.reason with
  | .breakpoint =>
    str "stopped at breakpoint, PC = 0x" ++ paddedHex event.pc ++
      if message = [] then [] else str " (" ++ message ++ str ")"
  | .watchpoint => str "watchpoint triggered: " ++ message
  | .stepComplete => str "PC = 0x" ++ paddedHex event.pc
  | .halted =>
    str "program halted at 0x" ++ paddedHex event.pc ++
      if message = [] then [] else str ", " ++ message
  | .fault =>
    str "runtime error: " ++ str (vmErrorName event.error) ++ str " at 0x" ++ paddedHex event.pc ++
      str "\n  " ++ message
  | .notRunning => str "the program is not running"

def formatRegisters (d : Debugger) : Str :=
  let cpu := d.machine.cpu
  let registers := (List.finRange 16).flatMap fun i : Fin 16 =>
    alignedLeft 4 (str (registerName (Reg.ofNat i.val))) ++ str " 0x" ++
      paddedHex (cpu.registers i) ++ str " " ++
        alignedRight 21 (signedDecimal (cpu.registers i).toInt64) ++
      if i.val % 2 = 1 then str "\n" else str "   "
  let flag (mask : UInt64) (letter : String) :=
    if cpu.flags &&& mask ≠ 0 then str letter else str "-"
  registers ++ str "PC   0x" ++ paddedHex cpu.pc ++ str "   SP   0x" ++ paddedHex cpu.sp ++
    str "\nFLAGS 0x" ++ hexadecimal cpu.flags.toNat ++ str " [" ++ flag kZeroFlag "Z" ++
    flag kSignFlag "S" ++ flag kCarryFlag "C" ++ flag kOverflowFlag "O" ++
    str "]  instructions: " ++
    decimal cpu.instructionCount.toNat ++ str "\n"

/-- One line of a dump, of at most sixteen bytes. -/
def memoryLine (d : Debugger) (address : UInt64) (count : ℕ) : Str :=
  let bytes := (List.range count).map fun i => d.machine.memory.readByte (address + UInt64.ofNat i)
  let hex := bytes.flatMap fun
    | .ok byte => str (Binary.hexText 2 byte.toNat) ++ str " "
    | .error _ => str "?? "
  let ascii := bytes.map fun
    | .ok byte => if 0x20 ≤ byte && byte < 0x7F then byte else 0x2E
    | .error _ => 0x20
  paddedHex address ++ str "  " ++ alignedLeft 48 hex ++ str " |" ++ ascii ++ str "|\n"

def formatMemory (d : Debugger) (address : UInt64) (length : ℕ) : Str :=
  (List.range ((length + 15) / 16)).flatMap fun line =>
    d.memoryLine (address + UInt64.ofNat (16 * line)) (min 16 (length - 16 * line))

/-- The words of the stack from the `i`-th on, until one is above the top or cannot be read. -/
def stackLines (d : Debugger) (i : ℕ) : ℕ → Str
  | 0 => []
  | left + 1 =>
    let address := d.machine.cpu.sp + UInt64.ofNat (i * 8)
    if address ≥ d.machine.stackTop then []
    else
      match d.machine.memory.readU64 address with
      | .error _ => []
      | .ok value =>
        str "  [SP+" ++ alignedLeft 3 (decimal (i * 8)) ++ str "] 0x" ++
          paddedHex address ++ str "  0x" ++ paddedHex value ++
            ((d.describeAddress value).map (str "  ; " ++ ·)).getD [] ++ str "\n" ++
          stackLines d (i + 1) left

def formatStack (d : Debugger) (words : ℕ) : Str :=
  str "stack (SP = 0x" ++ paddedHex d.machine.cpu.sp ++ str ", top = 0x" ++
    paddedHex d.machine.stackTop ++ str ")\n" ++ d.stackLines 0 words

/-- The bytes of the words at an address, until one cannot be read. -/
def readWords (d : Debugger) (address : UInt64) : ℕ → List UInt8
  | 0 => []
  | left + 1 =>
    match d.machine.memory.readU64 address with
    | .error _ => []
    | .ok word =>
      (List.range 8).map (fun i => (word >>> UInt64.ofNat (8 * i)).toUInt8) ++
        readWords d (address + 8) left

/-- Puts a mark before the first place of a text. -/
def insertBefore (mark pattern : Str) : Str → Str
  | [] => []
  | c :: rest =>
    if pattern.isPrefixOf (c :: rest) then mark ++ c :: rest else c ::
      insertBefore mark pattern rest

def formatDisassembly (d : Debugger) (address : UInt64) (count : ℕ) : Str :=
  let code := d.readWords address count
  if code = [] then str "no readable code at 0x" ++ paddedHex address ++ str "\n"
  else
    insertBefore (str "=> ") (paddedHex d.machine.cpu.pc ++ str ":")
      (Disassembler.disassemble { showLabels := false } code address (some d.executable))

/-- A value that looks like a return address: a word of code behind a CALL. -/
def behindCall (d : Debugger) (candidate : UInt64) : Bool :=
  if candidate % 8 ≠ 0 ∨ candidate < 8 then false
  else
    match d.machine.memory.fetchInstruction (candidate - 8) with
    | .error _ => false
    | .ok word =>
      match decode word with
      | .error _ => false
      | .ok instruction => instruction.opcode = .CALL

def frameLine (d : Debugger) (frame : ℕ) (address : UInt64) : Str :=
  str "#" ++ decimal frame ++ str "  0x" ++ paddedHex address ++ str "  " ++
    (d.describeAddress address).getD (str "<unknown>") ++ str "\n"

/-- The frames found in the words of the stack that are left. -/
def frameLines (d : Debugger) (maxFrames : ℕ) (address : UInt64) (frame : ℕ) : ℕ → Str
  | 0 => []
  | left + 1 =>
    if address ≥ d.machine.stackTop ∨ frame ≥ maxFrames then []
    else
      match d.machine.memory.readU64 address with
      | .error _ => []
      | .ok candidate =>
        if d.behindCall candidate then
          d.frameLine frame candidate ++ frameLines d maxFrames (address + 8) (frame + 1) left
        else frameLines d maxFrames (address + 8) frame left

def formatBacktrace (d : Debugger) (maxFrames : ℕ) : Str :=
  let words := (d.machine.stackTop.toNat - d.machine.cpu.sp.toNat + 7) / 8
  d.frameLine 0 d.machine.cpu.pc ++ d.frameLines maxFrames d.machine.cpu.sp 1 words

def formatSourceLocation (d : Debugger) (address : UInt64) : Str :=
  let missing := str "0x" ++ paddedHex address ++ str ": no source information\n"
  match d.executable.debugEntryFor address with
  | none => missing
  | some entry =>
    match d.executable.sourceFiles[entry.file.toNat]? with
    | none => missing
    | some file =>
      file ++ str ":" ++ decimal entry.line.toNat ++ str ":" ++
        decimal entry.column.toNat ++ str "\n"

def formatBreakpoints (d : Debugger) : Str :=
  if d.breakpoints = [] ∧ d.watchpoints = [] then str "no breakpoints\n"
  else
    (d.breakpoints.flatMap fun breakpoint =>
      str "breakpoint " ++ decimal breakpoint.id.toNat ++ str " at 0x" ++
        paddedHex breakpoint.address ++
          (if breakpoint.symbol = [] then [] else str " in " ++ breakpoint.symbol) ++
        (if breakpoint.enabled then [] else str " [disabled]") ++ str " (" ++
        decimal breakpoint.hits.toNat ++ str " hit" ++
          (if breakpoint.hits = 1 then [] else str "s") ++
        str ")\n") ++
    d.watchpoints.flatMap fun watchpoint =>
      str "watchpoint " ++ decimal watchpoint.id.toNat ++ str " on 0x" ++
        paddedHex watchpoint.address ++ str " (last value 0x" ++
          hexadecimal watchpoint.previous.toNat ++ str ")\n"

/-! ### Commands -/

/-- `VirtualMachine::kDefaultBudget`. -/
abbrev kDefaultBudget : UInt64 := 100000000

def helpText : Str :=
  str "commands:\n" ++
  str "  run, continue (r, c)      run until a breakpoint or exit\n" ++
  str "  step (s)                  execute one instruction\n" ++
  str "  next (n)                  step, but run over a CALL\n" ++
  str "  finish                    run until the current function returns\n" ++
  str "  break <addr|symbol> (b)   set a breakpoint\n" ++
  str "  delete <id> (d)           remove a breakpoint or watchpoint\n" ++
  str "  disable <id>              disable a breakpoint\n" ++
  str "  enable <id>               enable a breakpoint\n" ++
  str "  watch <addr>              stop when the 8 bytes there change\n" ++
  str "  info                      list breakpoints and watchpoints\n" ++
  str "  registers (regs)          print the register file\n" ++
  str "  print <register>          print one register\n" ++
  str "  memory <addr> [len] (x)   hex dump memory\n" ++
  str "  stack                     dump the top of the stack\n" ++
  str "  disassemble [addr] [n]    disassemble around the PC\n" ++
  str "  backtrace (bt)            show the call stack\n" ++
  str "  list (l)                  show the current source line\n" ++
  str "  quit (q)                  leave the debugger\n"

/-- What a command prints, and the debugger after it. -/
abbrev Printed := Str × Debugger

/-- Resuming commands print where the program stopped. -/
def resumed (result : StopEvent × Debugger) : Printed :=
  (describeStop result.1 ++ str "\n", result.2)

def cannotResolve (text : Str) : Str := str "cannot resolve '" ++ text ++ str "'\n"

def breakCommand (d : Debugger) (text : Str) : Printed :=
  match parseAddress text d.executable with
  | none => (cannotResolve text, d)
  | some address =>
    let (id, d) := d.addBreakpoint address
    (str "breakpoint " ++ decimal id.toNat ++ str " at 0x" ++ paddedHex address ++ str "\n", d)

def watchCommand (d : Debugger) (text : Str) : Printed :=
  match parseAddress text d.executable with
  | none => (cannotResolve text, d)
  | some address =>
    match d.addWatchpoint address with
    | (none, d) => (str "0x" ++ hexadecimal address.toNat ++ str " is not readable\n", d)
    | (some id, d) =>
      (str "watchpoint " ++ decimal id.toNat ++ str " on 0x" ++ paddedHex address ++ str "\n", d)

def deleteCommand (d : Debugger) (id : UInt32) : Printed :=
  match d.removeBreakpoint id with
  | (true, d) => (str "deleted\n", d)
  | (false, d) =>
    match d.removeWatchpoint id with
    | (true, d) => (str "deleted\n", d)
    | (false, d) => (str "no such breakpoint\n", d)

def enableCommand (d : Debugger) (id : UInt32) (enable : Bool) : Printed :=
  match d.setBreakpointEnabled id enable with
  | (true, d) => (str "done\n", d)
  | (false, d) => (str "no such breakpoint\n", d)

/-- The commands on a breakpoint by its number. -/
def numbered (d : Debugger) (text : Str) (command : UInt32 → Printed) : Printed :=
  match readNumber 32 10 text with
  | none => (str "expected a breakpoint id\n", d)
  | some (id, _) => command (UInt32.ofNat id)

def printCommand (d : Debugger) (text : Str) : Str :=
  match parseRegister text with
  | none => str "'" ++ text ++ str "' is not a register\n"
  | some reg =>
    let value := d.machine.cpu.registers reg.slot
    str (registerName reg) ++ str " = 0x" ++ paddedHex value ++ str " (" ++
      signedDecimal value.toInt64 ++ str ")\n"

/-- A count in the third word, at most `limit`. -/
def countOf (words : List Str) (default limit : ℕ) : ℕ :=
  match words[2]? with
  | none => min default limit
  | some text =>
    match readNumber 64 10 text with
    | none => min default limit
    | some (count, _) => min count limit

def memoryCommand (d : Debugger) (words : List Str) : Str :=
  match parseAddress (words.getD 1 []) d.executable with
  | none => str "expected an address\n"
  | some address => d.formatMemory address (countOf words 64 4096)

def disassembleCommand (d : Debugger) (words : List Str) : Str :=
  let address :=
    match words[1]? with
    | none => some d.machine.cpu.pc
    | some text => parseAddress text d.executable
  d.formatDisassembly (address.getD d.machine.cpu.pc) (countOf words 8 256)

/-- What the first word of a line can be. -/
inductive Verb
  | quit
  | help
  | run
  | step
  | next
  | finish
  | setBreak
  | watch
  | delete
  | disable
  | enable
  | info
  | registers
  | print
  | memory
  | stack
  | disassemble
  | backtrace
  | list
  deriving DecidableEq, Repr

/-- The names of the commands; the source compares with one after the other. -/
def kVerbs : List (String × Verb) := [
  ("quit", .quit), ("q", .quit),
  ("help", .help), ("h", .help),
  ("run", .run), ("r", .run), ("continue", .run), ("c", .run),
  ("step", .step), ("s", .step),
  ("next", .next), ("n", .next),
  ("finish", .finish),
  ("break", .setBreak), ("b", .setBreak),
  ("watch", .watch),
  ("delete", .delete), ("d", .delete),
  ("disable", .disable),
  ("enable", .enable),
  ("info", .info),
  ("registers", .registers), ("regs", .registers),
  ("print", .print), ("p", .print),
  ("memory", .memory), ("x", .memory),
  ("stack", .stack),
  ("disassemble", .disassemble), ("dis", .disassemble),
  ("backtrace", .backtrace), ("bt", .backtrace),
  ("list", .list), ("l", .list)]

def verbOf (command : Str) : Option Verb :=
  (kVerbs.find? fun entry => command = str entry.1).map Prod.snd

/-- What a command prints and does; `none` for the one that ends the session. -/
def perform (d : Debugger) (words : List Str) : Verb → Option Printed
  | .quit => none
  | .help => some (helpText, d)
  | .run => some (resumed (d.run kDefaultBudget))
  | .step =>
    let (event, d) := d.step
    let code := if event.reason = .stepComplete then d.formatDisassembly d.machine.cpu.pc 1 else []
    some (describeStop event ++ str "\n" ++ code, d)
  | .next => some (resumed (d.stepOver kDefaultBudget))
  | .finish => some (resumed (d.finish kDefaultBudget))
  | .setBreak => some (d.breakCommand (words.getD 1 []))
  | .watch => some (d.watchCommand (words.getD 1 []))
  | .delete => some (d.numbered (words.getD 1 []) d.deleteCommand)
  | .disable => some (d.numbered (words.getD 1 []) fun id => d.enableCommand id false)
  | .enable => some (d.numbered (words.getD 1 []) fun id => d.enableCommand id true)
  | .info => some (d.formatBreakpoints, d)
  | .registers => some (d.formatRegisters, d)
  | .print => some (d.printCommand (words.getD 1 []), d)
  | .memory => some (d.memoryCommand words, d)
  | .stack => some (d.formatStack 8, d)
  | .disassemble => some (d.disassembleCommand words, d)
  | .backtrace => some (d.formatBacktrace 32, d)
  | .list => some (d.formatSourceLocation d.machine.cpu.pc, d)

/-- What a line prints and does. -/
def executeCommand (d : Debugger) (line : Str) : Option Printed :=
  match splitWords line with
  | [] => some ([], d)
  | command :: arguments =>
    match verbOf command with
    | none => some (str "unknown command '" ++ command ++ str "'; try 'help'\n", d)
    | some verb => d.perform (command :: arguments) verb

/-- The loop, over the lines that are left to read. -/
def consoleLoop (d : Debugger) : List Str → Printed
  | [] => (str "(minidbg) \n", d)
  | line :: rest =>
    match d.executeCommand line with
    | none => (str "(minidbg) ", d)
    | some (out, d) =>
      let (more, d) := consoleLoop d rest
      (str "(minidbg) " ++ out ++ more, d)

def interactiveLoop (d : Debugger) (lines : List Str) : Printed :=
  let (out, after) := d.consoleLoop lines
  (str "minidbg - type 'help' for commands\n" ++ d.formatSourceLocation d.machine.cpu.pc ++
    d.formatDisassembly d.machine.cpu.pc 1 ++ out, after)

/-! ### What a line asks for -/

/-- The number of a breakpoint, in the second word. -/
def numberOf (words : List Str) : Option UInt32 :=
  (readNumber 32 10 (words.getD 1 [])).map fun number => UInt32.ofNat number.1

/-- The commands of the debugger that a command of the console stands for.  The reports stand for
none. -/
def requested (d : Debugger) (words : List Str) : Verb → List Command
  | .run => [.run kDefaultBudget]
  | .step => [.step]
  | .next => [.stepOver kDefaultBudget]
  | .finish => [.finish kDefaultBudget]
  | .setBreak => (parseAddress (words.getD 1 []) d.executable).toList.map .addBreakpoint
  | .watch => (parseAddress (words.getD 1 []) d.executable).toList.map .addWatchpoint
  | .delete =>
    (numberOf words).toList.map fun id =>
      -- the numbers of breakpoints come first
      if d.breakpoints.any fun breakpoint => breakpoint.id = id then .removeBreakpoint id
      else .removeWatchpoint id
  | .disable => (numberOf words).toList.map fun id => .setBreakpointEnabled id false
  | .enable => (numberOf words).toList.map fun id => .setBreakpointEnabled id true
  | _ => []

/-- What a line asks for. -/
def lineCommands (d : Debugger) (line : Str) : List Command :=
  match splitWords line with
  | [] => []
  | command :: arguments =>
    match verbOf command with
    | none => []
    | some verb => d.requested (command :: arguments) verb

/-- The line ends the session. -/
def endsSession (line : Str) : Bool := (splitWords line).head?.bind verbOf = some .quit

/-- What the lines ask for, up to the one that ends the session. -/
def typedCommands (d : Debugger) : List Str → List Command
  | [] => []
  | line :: rest =>
    if endsSession line then []
    else d.lineCommands line ++ typedCommands ((d.lineCommands line).foldl apply d) rest

/-! ### What a line does -/

theorem breakCommand_spec (d : Debugger) (text : Str) : (d.breakCommand text).2 =
    ((parseAddress text d.executable).toList.map Command.addBreakpoint).foldl apply d := by
  unfold breakCommand
  cases parseAddress text d.executable with
  | none => rfl
  | some address => rfl

theorem watchCommand_spec (d : Debugger) (text : Str) : (d.watchCommand text).2 =
    ((parseAddress text d.executable).toList.map Command.addWatchpoint).foldl apply d := by
  unfold watchCommand
  cases parseAddress text d.executable with
  | none => rfl
  | some address =>
    show _ = (d.addWatchpoint address).2
    dsimp only
    cases d.addWatchpoint address with
    | mk id after =>
      cases id with
      | none => rfl
      | some id => rfl

theorem deleteCommand_spec (d : Debugger) (id : UInt32) : (d.deleteCommand id).2 =
    d.apply (if d.breakpoints.any fun breakpoint => breakpoint.id = id then .removeBreakpoint id
      else .removeWatchpoint id) := by
  unfold deleteCommand
  by_cases hany : (d.breakpoints.any fun breakpoint => breakpoint.id = id) = true
  · have hremove : d.removeBreakpoint id = (true, (d.removeBreakpoint id).2) := by
      unfold removeBreakpoint
      rw [if_pos hany]
    rw [if_pos hany, hremove]
    rfl
  · have hremove : d.removeBreakpoint id = (false, d) := by
      unfold removeBreakpoint
      rw [if_neg hany]
    rw [if_neg hany, hremove]
    show _ = (d.removeWatchpoint id).2
    dsimp only
    cases d.removeWatchpoint id with
    | mk found after =>
      cases found with
      | true => rfl
      | false => rfl

theorem enableCommand_spec (d : Debugger) (id : UInt32) (enable : Bool) :
    (d.enableCommand id enable).2 = d.apply (.setBreakpointEnabled id enable) := by
  unfold enableCommand
  show _ = (d.setBreakpointEnabled id enable).2
  cases d.setBreakpointEnabled id enable with
  | mk found after =>
    cases found with
    | true => rfl
    | false => rfl

/-- A command on a breakpoint by its number. -/
theorem numbered_spec {d : Debugger} {command : UInt32 → Printed} {meaning : UInt32 → Command}
    (h : ∀ id, (command id).2 = d.apply (meaning id)) (words : List Str) :
    (d.numbered (words.getD 1 []) command).2 =
    ((numberOf words).toList.map meaning).foldl apply d := by
  unfold numbered numberOf
  cases readNumber 32 10 (words.getD 1 []) with
  | none => rfl
  | some number => exact h (UInt32.ofNat number.1)

/-- A command of the console does what it stands for. -/
theorem perform_spec (d : Debugger) (words : List Str) {verb : Verb} (hverb : verb ≠ .quit) :
    ∃ out, d.perform words verb = some (out, (d.requested words verb).foldl apply d) := by
  -- what is printed does not matter
  have hof : ∀ printed : Printed, d.perform words verb = some printed →
      printed.2 = (d.requested words verb).foldl apply d →
      ∃ out, d.perform words verb = some (out, (d.requested words verb).foldl apply d) := by
    intro printed hperform hafter
    exact ⟨printed.1, by rw [hperform, ← hafter]⟩
  cases verb with
  | quit => exact absurd rfl hverb
  | run => exact hof _ rfl rfl
  | step => exact hof _ rfl rfl
  | next => exact hof _ rfl rfl
  | finish => exact hof _ rfl rfl
  | setBreak => exact hof _ rfl (breakCommand_spec d _)
  | watch => exact hof _ rfl (watchCommand_spec d _)
  | delete => exact hof _ rfl (numbered_spec (deleteCommand_spec d) words)
  | disable => exact hof _ rfl (numbered_spec (fun id => enableCommand_spec d id false) words)
  | enable => exact hof _ rfl (numbered_spec (fun id => enableCommand_spec d id true) words)
  | help => exact hof _ rfl rfl
  | info => exact hof _ rfl rfl
  | registers => exact hof _ rfl rfl
  | print => exact hof _ rfl rfl
  | memory => exact hof _ rfl rfl
  | stack => exact hof _ rfl rfl
  | disassemble => exact hof _ rfl rfl
  | backtrace => exact hof _ rfl rfl
  | list => exact hof _ rfl rfl

theorem executeCommand_of_ends {line : Str} (h : endsSession line = true) (d : Debugger) :
    d.executeCommand line = none := by
  unfold endsSession at h
  unfold executeCommand
  cases hwords : splitWords line with
  | nil =>
    rw [hwords] at h
    cases h
  | cons command arguments =>
    rw [hwords] at h
    have hverb : verbOf command = some .quit := of_decide_eq_true h
    dsimp only
    rw [hverb]
    rfl

/-- A line that does not end the session does what it asks for. -/
theorem executeCommand_spec {line : Str} (h : endsSession line = false) (d : Debugger) :
    ∃ out, d.executeCommand line = some (out, (d.lineCommands line).foldl apply d) := by
  unfold endsSession at h
  unfold executeCommand lineCommands
  cases hwords : splitWords line with
  | nil => exact ⟨[], rfl⟩
  | cons command arguments =>
    rw [hwords] at h
    have hquit : verbOf command ≠ some .quit := of_decide_eq_false h
    dsimp only
    cases hverb : verbOf command with
    | none => exact ⟨_, rfl⟩
    | some verb =>
      rw [hverb] at hquit
      exact perform_spec d (command :: arguments) fun heq => hquit (congrArg some heq)

theorem consoleLoop_spec (lines : List Str) : ∀ d : Debugger,
    (d.consoleLoop lines).2 = (d.typedCommands lines).foldl apply d := by
  induction lines with
  | nil => exact fun d => rfl
  | cons line lines ih =>
    intro d
    unfold consoleLoop typedCommands
    cases hends : endsSession line with
    | true =>
      rw [executeCommand_of_ends hends d]
      rfl
    | false =>
      obtain ⟨out, hexecute⟩ := executeCommand_spec hends d
      rw [hexecute, if_neg Bool.false_ne_true, List.foldl_append]
      exact ih _

/-- **Whatever is typed**, the session is that of the commands it asks for: the machine is where the
program itself gets in as many steps as they performed, and what they reported are those steps. -/
theorem interactiveLoop_transparent (start : VirtualMachine) (executable : Executable)
    (lines : List Str) :
    let fresh : Debugger := { machine := start, executable }
    let after := (fresh.interactiveLoop lines).2
    after = session start executable (fresh.typedCommands lines) ∧
      after.machine = start.steps after.log.length ∧
      ∀ (k : ℕ) (event : StopEvent), after.log[k]? = some event →
          Reports (start.steps k) event := by
  intro fresh after
  have hsession : after = session start executable (fresh.typedCommands lines) :=
    consoleLoop_spec lines fresh
  have htracks := Tracks.session start executable (fresh.typedCommands lines)
  rw [← hsession] at htracks
  exact ⟨hsession, htracks.machine, htracks.reports⟩

end Debugger
end MiniTool
