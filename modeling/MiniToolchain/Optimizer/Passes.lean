import MiniToolchain.Optimizer.FlagLiveness

/-!
# The optimizer

Five passes over the items of a `.text` section.  They share one bitmap of removed items and, from
constant folding on, one control-flow graph; what is marked is deleted at the end, and the passes
run again until nothing changes, at most eight times.

## Main definitions

* `Slot`, `Work` — an item with its bit of the bitmap; what the passes work on.
* `unreachable`, `peephole`, `jumpToNext`, `foldConstant`, `eliminateIdentity`,
  `eliminateDeadStore`.
* `runPasses`, `optimizeSection`, `run`.
-/

namespace MiniTool
namespace Optimizer

open Ir

/-- Register read by the instruction in its `src` position, if any. -/
def sourceRegister (machine : Isa.Instruction) : Option Isa.Reg :=
  match Isa.findOpcode machine.opcode with
  | none => none
  | some info => if info.format = .reg2 ∨ info.format = .mem then some machine.src else none

def readsRegister (machine : Isa.Instruction) (reg : Isa.Reg) : Bool :=
  match Isa.findOpcode machine.opcode with
  | none => true
  | some info => (info.readsDst && machine.dst = reg) || sourceRegister machine = some reg

def writesRegister (machine : Isa.Instruction) (reg : Isa.Reg) : Bool :=
  match Isa.findOpcode machine.opcode with
  | none => false
  | some info => info.writesDst && machine.dst = reg

inductive OptLevel
  | O0 | O1
  deriving DecidableEq, Repr

structure OptStats where
  constantsFolded : UInt32 := 0
  identitiesEliminated : UInt32 := 0
  deadStoresRemoved : UInt32 := 0
  unreachableRemoved : UInt32 := 0
  peepholesApplied : UInt32 := 0
  instructionsBefore : ℕ := 0
  instructionsAfter : ℕ := 0
  deriving DecidableEq, Repr

/-- An item and its bit of the bitmap of removed items. -/
structure Slot where
  item : Item
  remove : Bool := false
  deriving DecidableEq, Repr

/-- What the passes work on. -/
structure Work where
  slots : List Slot
  stats : OptStats := {}
  changed : Bool := false
  deriving DecidableEq, Repr

/-! ### Unreachable code -/

/-- Marks everything between an unconditional terminator and the next label. -/
def unreachable (reachable : Bool) (stats : OptStats) (changed : Bool) : List Slot → Work
  | [] => { slots := [], stats, changed }
  | slot :: rest =>
    let keep (w : Work) : Work := { w with slots := slot :: w.slots }
    match slot.item with
    | .label _ => keep (unreachable true stats changed rest)
    | .instruction instruction =>
      if !reachable then
        let w := unreachable false
          { stats with unreachableRemoved := stats.unreachableRemoved + 1 } true rest
        { w with slots := { slot with remove := true } :: w.slots }
      else
        let terminates := (Isa.findOpcode instruction.machine.opcode).any (·.isTerminator)
        keep (unreachable (!terminates) stats changed rest)
    | _ => keep (unreachable reachable stats changed rest)

/-! ### Peepholes -/

/-- The instruction of a slot that is not removed. -/
def Slot.live? (slot : Slot) : Option Instruction :=
  if slot.remove then none
  else
    match slot.item with
    | .instruction instruction => some instruction
    | _ => none

/-- PUSH rX / POP rX restores the register and SP; PUSH rX / POP rY is a move. -/
def peephole (stats : OptStats) (changed : Bool) : List Slot → Work
  | [] => { slots := [], stats, changed }
  | [slot] => { slots := [slot], stats, changed }
  | a :: b :: rest =>
    match a.live?, b.live? with
    | some first, some second =>
      if first.machine.opcode = .PUSH ∧ second.machine.opcode = .POP then
        if first.machine.dst = second.machine.dst then
          let w := peephole { stats with peepholesApplied := stats.peepholesApplied + 2 } true rest
          { w with slots := { a with remove := true } :: { b with remove := true } :: w.slots }
        else
          let machine := { first.machine with
            opcode := .MOV, dst := second.machine.dst, src := first.machine.dst }
          let w := peephole { stats with peepholesApplied := stats.peepholesApplied + 1 } true rest
          { w with
            slots := { a with item := .instruction { first with machine } } ::
              { b with remove := true } :: w.slots }
      else
        let w := peephole stats changed (b :: rest)
        { w with slots := a :: w.slots }
    | _, _ =>
      let w := peephole stats changed (b :: rest)
      { w with slots := a :: w.slots }

/-- A label with this name comes before anything else that is not removed. -/
def leadsTo (name : Str) : List Slot → Bool
  | [] => false
  | slot :: rest =>
    if slot.remove then leadsTo name rest
    else
      match slot.item with
      | .label l => l.name = name || leadsTo name rest
      | _ => false

/-- A jump to the label that immediately follows it does nothing. -/
def jumpToNext (stats : OptStats) (changed : Bool) : List Slot → Work
  | [] => { slots := [], stats, changed }
  | slot :: rest =>
    let goesOn := slot.live?.any fun instruction =>
      instruction.machine.opcode = .JMP &&
        instruction.symbol.any fun reference =>
          reference.addend = 0 && leadsTo reference.name rest
    if goesOn then
      let w := jumpToNext { stats with peepholesApplied := stats.peepholesApplied + 1 } true rest
      { w with slots := { slot with remove := true } :: w.slots }
    else
      let w := jumpToNext stats changed rest
      { w with slots := slot :: w.slots }

/-! ### Constant folding -/

/-- Constant values known to be in registers at a point inside a block. -/
abbrev ConstantMap := Fin 16 → Option UInt64

namespace ConstantMap

def set (constants : ConstantMap) (reg : Isa.Reg) (value : UInt64) : ConstantMap :=
  Function.update constants reg.slot (some value)

def clear (constants : ConstantMap) (reg : Isa.Reg) : ConstantMap :=
  Function.update constants reg.slot none

def get (constants : ConstantMap) (reg : Isa.Reg) : Option UInt64 := constants reg.slot

def empty : ConstantMap := fun _ => none

end ConstantMap

/-- The instruction with its value in place of the computation. -/
def toMovi (instruction : Instruction) (value : UInt64) : Instruction :=
  { instruction with
    machine := { instruction.machine with opcode := .MOVI, imm := value.toInt64, src := .R0 } }

/-- One instruction of constant folding: the constants after it, and what it is rewritten to. -/
def foldInstruction (flagsDead : Bool) (constants : ConstantMap) (instruction : Instruction) :
    ConstantMap × Option Instruction :=
  let machine := instruction.machine
  -- a symbolic operand is opaque, but it still clobbers its destination
  if instruction.isSymbolic then (constants.clear machine.dst, none)
  else if machine.opcode = .MOVI ∨ machine.opcode = .LEA then
    (constants.set machine.dst machine.imm.toUInt64, none)
  else if machine.opcode = .MOV then
    match constants.get machine.src with
    | some value =>
      (constants.set machine.dst value,
        if ByteOrder.fitsSigned value.toInt64 Isa.kImmediateBits then
          some (toMovi instruction value)
        else none)
    | none => (constants.clear machine.dst, none)
  else
    let forget : ConstantMap × Option Instruction :=
      (if writesRegister machine machine.dst then constants.clear machine.dst else constants, none)
    let binary := Isa.isBinaryAlu machine.opcode
    let unary := Isa.isUnaryAlu machine.opcode
    if !binary && !unary then forget
    else
      match constants.get machine.dst, (if binary then constants.get machine.src else some 0) with
      | some lhs, some rhs =>
        match (if binary then Isa.evaluateBinary machine.opcode lhs rhs
            else Isa.evaluateUnary machine.opcode lhs) with
        -- a division by zero stays, so that the machine traps where the program asked for it
        | .error _ => (constants.clear machine.dst, none)
        | .ok evaluated =>
          if !evaluated.writesValue then (constants, none)
          else
            (constants.set machine.dst evaluated.value,
              if (!evaluated.writesFlags || flagsDead) &&
                  ByteOrder.fitsSigned evaluated.value.toInt64 Isa.kImmediateBits then
                some (toMovi instruction evaluated.value)
              else none)
      | _, _ => forget

/-- Constant folding of the item at position `i`. -/
def foldConstant (flow : ControlFlow) (blockIndex : ℕ) (state : ConstantMap × Work) (i : ℕ) :
    ConstantMap × Work :=
  let (constants, w) := state
  match (w.slots[i]?).bind Slot.live? with
  | none => (constants, w)
  | some instruction =>
    match foldInstruction (flow.flagsDeadAfter blockIndex i) constants instruction with
    | (constants, none) => (constants, w)
    | (constants, some folded) =>
      (constants,
        { slots := w.slots.modify i fun slot => { slot with item := .instruction folded }
          stats := { w.stats with constantsFolded := w.stats.constantsFolded + 1 }
          changed := true })

/-- The positions of a block, in order. -/
def Block.positions (block : Block) : List ℕ := List.range' block.begin (block.stop - block.begin)

def foldBlock (flow : ControlFlow) (blockIndex : ℕ) (block : Block) (w : Work) : Work :=
  (block.positions.foldl (foldConstant flow blockIndex) (ConstantMap.empty, w)).2

def foldConstants (flow : ControlFlow) (w : Work) : Work :=
  flow.blocks.zipIdx.foldl (fun w (block, blockIndex) => foldBlock flow blockIndex block w) w

/-! ### Identities and dead stores -/

/-- `MOV rX, rX` or NOP. -/
def isIdentity (instruction : Instruction) : Bool :=
  !instruction.isSymbolic &&
    ((instruction.machine.opcode = .MOV && instruction.machine.dst = instruction.machine.src) ||
      instruction.machine.opcode = .NOP)

/-- Marks the item at position `i` as removed. -/
def Work.removeAt (w : Work) (i : ℕ) (stats : OptStats) : Work where
  slots := w.slots.modify i fun slot => { slot with remove := true }
  stats
  changed := true

def eliminateIdentity (w : Work) (i : ℕ) : Work :=
  if ((w.slots[i]?).bind Slot.live?).any isIdentity then
    w.removeAt i { w.stats with identitiesEliminated := w.stats.identitiesEliminated + 1 }
  else w

/-- Only a pure register-defining move can be a dead store. -/
def pureDefine (machine : Isa.Instruction) : Bool :=
  (Isa.findOpcode machine.opcode).any fun info =>
    info.writesDst && !info.readsDst && !info.writesFlags &&
      (machine.opcode = .MOVI || machine.opcode = .MOV || machine.opcode = .LEA)

/-- The register is written before it is read. -/
def overwritten (reg : Isa.Reg) : List Slot → Bool
  | [] => false
  | slot :: rest =>
    match slot.live? with
    | none => overwritten reg rest
    | some later =>
      if readsRegister later.machine reg then false
      else writesRegister later.machine reg || overwritten reg rest

def eliminateDeadStore (block : Block) (w : Work) (i : ℕ) : Work :=
  let rest := (w.slots.take block.stop).drop (i + 1)
  if ((w.slots[i]?).bind Slot.live?).any fun instruction =>
      pureDefine instruction.machine && overwritten instruction.machine.dst rest then
    w.removeAt i { w.stats with deadStoresRemoved := w.stats.deadStoresRemoved + 1 }
  else w

/-- A pass over the positions of every block. -/
def forBlocks (flow : ControlFlow) (step : Block → Work → ℕ → Work) (w : Work) : Work :=
  flow.blocks.foldl (fun w block => block.positions.foldl (step block) w) w

/-! ### All of them -/

/-- A slot as the passes find it. -/
def fresh (item : Item) : Slot := { item }

/-- The passes that need no control-flow graph. -/
def markLocal (items : List Item) (stats : OptStats) : Work :=
  let w := unreachable true stats false (items.map fresh)
  let w := peephole w.stats w.changed w.slots
  jumpToNext w.stats w.changed w.slots

/-- The passes over the blocks of `flow`. -/
def markBlocks (flow : ControlFlow) (w : Work) : Work :=
  let w := foldConstants flow w
  let w := forBlocks flow (fun _ => eliminateIdentity) w
  forBlocks flow eliminateDeadStore w

/-- The items and the bitmap before anything is deleted. -/
def markPasses (oob : Bool) (items : List Item) (stats : OptStats) : Work :=
  let w := markLocal items stats
  markBlocks (controlFlow oob (w.slots.map Slot.item)) w

/-- The items that are not marked. -/
def kept (slots : List Slot) : List Item :=
  (slots.filter fun slot => !slot.remove).map Slot.item

/-- One run of the passes: the items, the counts, and whether anything changed. -/
def runPasses (oob : Bool) (items : List Item) (stats : OptStats) : List Item × OptStats × Bool :=
  let w := markPasses oob items stats
  (if w.changed then kept w.slots else w.slots.map Slot.item, w.stats, w.changed)

abbrev kMaxIterations : ℕ := 8

/-- Runs the passes until nothing changes; `oob n` is the bit read out of bounds by the run that has
`n` more to come. -/
def optimizeItems (oob : ℕ → Bool) : ℕ → List Item → OptStats → List Item × OptStats
  | 0, items, stats => (items, stats)
  | n + 1, items, stats =>
    let (items, stats, changed) := runPasses (oob n) items stats
    if changed then optimizeItems oob n items stats else (items, stats)

def optimizeSection (oob : ℕ → Bool) (s : Section) (stats : OptStats) : Section × OptStats :=
  let (items, stats) := optimizeItems oob kMaxIterations s.items stats
  ({ s with items }, stats)

/-- Every `.text` section of a module. -/
def optimizeSections (oob : ℕ → Bool) (stats : OptStats) : List Section → List Section × OptStats
  | [] => ([], stats)
  | s :: rest =>
    if s.kind = .text then
      let (s, stats) := optimizeSection oob s stats
      let (rest, stats) := optimizeSections oob stats rest
      (s :: rest, stats)
    else
      let (rest, stats) := optimizeSections oob stats rest
      (s :: rest, stats)

def run (oob : ℕ → Bool) (level : OptLevel) (m : Module) : Module × OptStats :=
  let stats : OptStats := { instructionsBefore := m.instructionCount }
  let (m, stats) :=
    if level ≠ .O0 then
      let (sections, stats) := optimizeSections oob stats m.sections
      ({ m with sections }, stats)
    else (m, stats)
  (m, { stats with instructionsAfter := m.instructionCount })

end Optimizer
end MiniTool
