import MiniToolchain.Optimizer.FlagNeeds
import MiniToolchain.Optimizer.Graph

/-!
# Constant folding preserves meaning

What the pass knows of the registers at a position of a block is true whenever control is there,
because control comes into a block only at its beginning.  An instruction that it rewrites does the
same to the registers as the `MOVI` that takes its place; FLAGS may differ after it, but only where
no run needs them.

## Main definitions

* `Agrees` — the registers hold the constants.
* `constantsAt` — what is known after so many slots of a block.
* `foldedSlot` — what the pass makes of a slot.

## Main results

* `agrees_fold`, `execute_folded` — one instruction.
* `foldConstants_spec` — the pass, position by position.
* `refines_foldConstants` — it preserves meaning.
-/

namespace MiniTool
namespace Optimizer

open Ir Vm Vm.VirtualMemory Vm.VirtualMachine

/-- The registers hold the constants. -/
def Agrees (constants : ConstantMap) (registers : Registers) : Prop :=
  ∀ r value, constants r = some value → registers r = value

namespace Agrees

variable {constants : ConstantMap} {registers : Registers}

theorem empty (registers : Registers) : Agrees ConstantMap.empty registers :=
  fun _ _ h => by cases h

theorem clear (h : Agrees constants registers) (reg : Isa.Reg) :
    Agrees (constants.clear reg) registers := by
  intro r value hr
  unfold ConstantMap.clear at hr
  by_cases hreg : r = reg.slot
  · subst hreg
    rw [Function.update_self] at hr
    cases hr
  · rw [Function.update_of_ne hreg] at hr
    exact h r value hr

/-- Nothing is known of a register that is written. -/
theorem clear_set (h : Agrees constants registers) (reg : Isa.Reg) (value : UInt64) :
    Agrees (constants.clear reg) (registers.set reg.slot value) := by
  intro r value' hr
  unfold ConstantMap.clear at hr
  by_cases hreg : r = reg.slot
  · subst hreg
    rw [Function.update_self] at hr
    cases hr
  · rw [Function.update_of_ne hreg] at hr
    exact (if_neg hreg).trans (h r value' hr)

theorem set (h : Agrees constants registers) (reg : Isa.Reg) (value : UInt64) :
    Agrees (constants.set reg value) (registers.set reg.slot value) := by
  intro r value' hr
  unfold ConstantMap.set at hr
  by_cases hreg : r = reg.slot
  · subst hreg
    rw [Function.update_self] at hr
    rw [Registers.set_same]
    exact Option.some.inj hr
  · rw [Function.update_of_ne hreg] at hr
    exact (if_neg hreg).trans (h r value' hr)

theorem get (h : Agrees constants registers) {reg : Isa.Reg} {value : UInt64}
    (hget : constants.get reg = some value) : registers reg.slot = value := h _ _ hget

theorem clear_written (h : Agrees constants registers) (machine : Isa.Instruction)
    (value : UInt64) :
    Agrees (constants.clear machine.dst) (written machine registers value) := by
  unfold written
  split_ifs
  · exact h.clear_set machine.dst value
  · exact h.clear machine.dst

/-- What is forgotten is what is written. -/
theorem forget (h : Agrees constants registers) (machine : Isa.Instruction) (value : UInt64) :
    Agrees (if writesRegister machine machine.dst then constants.clear machine.dst else constants)
      (written machine registers value) := by
  unfold written
  have hsame : writesRegister machine machine.dst =
      (Isa.findOpcode machine.opcode).any (·.writesDst) := by
    unfold writesRegister
    cases Isa.findOpcode machine.opcode with
    | none => rfl
    | some info => simp
  rw [hsame]
  split_ifs
  · exact h.clear_set machine.dst value
  · exact h

end Agrees

/-! ### One instruction -/

/-- What one turn of constant folding does. -/
inductive Folding (flagsDead : Bool) (constants : ConstantMap) (instruction : Instruction) :
    ConstantMap × Option Instruction → Prop
  /-- Nothing is known of the destination any more. -/
  | cleared :
    Folding flagsDead constants instruction (constants.clear instruction.machine.dst, none)
  | forgotten : Folding flagsDead constants instruction
      (if writesRegister instruction.machine instruction.machine.dst then
        constants.clear instruction.machine.dst else constants, none)
  | immediate (hsymbol : instruction.isSymbolic = false)
    (hop : instruction.machine.opcode = .MOVI ∨ instruction.machine.opcode = .LEA) :
    Folding flagsDead constants instruction
      (constants.set instruction.machine.dst instruction.machine.imm.toUInt64, none)
  | moved {value : UInt64} {fits : Bool} (hsymbol : instruction.isSymbolic = false)
    (hop : instruction.machine.opcode = .MOV)
    (hsrc : constants.get instruction.machine.src = some value) :
    Folding flagsDead constants instruction (constants.set instruction.machine.dst value,
      if fits then some (toMovi instruction value) else none)
  /-- A `CMP` or a `TEST` of constants. -/
  | compared {evaluated : Isa.AluResult} (hsymbol : instruction.isSymbolic = false)
    (hvalue : ∀ registers, Agrees constants registers →
      operation instruction.machine registers = .ok evaluated)
    (hno : evaluated.writesValue = false) :
    Folding flagsDead constants instruction (constants, none)
  | computed {evaluated : Isa.AluResult} {fits : Bool} (hsymbol : instruction.isSymbolic = false)
    (hvalue : ∀ registers, Agrees constants registers →
      operation instruction.machine registers = .ok evaluated)
    (hyes : evaluated.writesValue = true) :
    Folding flagsDead constants instruction (constants.set instruction.machine.dst evaluated.value,
      if (!evaluated.writesFlags || flagsDead) && fits then
        some (toMovi instruction evaluated.value) else none)

theorem folding_foldInstruction (flagsDead : Bool) (constants : ConstantMap)
    (instruction : Instruction) : Folding flagsDead constants instruction
      (foldInstruction flagsDead constants instruction) := by
  unfold foldInstruction
  dsimp only
  by_cases hsymbolic : instruction.isSymbolic = true
  · rw [if_pos hsymbolic]
    exact .cleared
  rw [if_neg hsymbolic]
  have hsymbol : instruction.isSymbolic = false := Bool.eq_false_iff.mpr hsymbolic
  by_cases himmediate : instruction.machine.opcode = .MOVI ∨ instruction.machine.opcode = .LEA
  · rw [if_pos himmediate]
    exact .immediate hsymbol himmediate
  rw [if_neg himmediate]
  by_cases hmov : instruction.machine.opcode = .MOV
  · rw [if_pos hmov]
    cases hsrc : constants.get instruction.machine.src with
    | none => exact .cleared
    | some value => exact .moved hsymbol hmov hsrc
  rw [if_neg hmov]
  by_cases hno : (!Isa.isBinaryAlu instruction.machine.opcode &&
      !Isa.isUnaryAlu instruction.machine.opcode) = true
  · rw [if_pos hno]
    exact .forgotten
  rw [if_neg hno]
  cases hlhs : constants.get instruction.machine.dst with
  | none => exact .forgotten
  | some lhs =>
    by_cases hbinary : Isa.isBinaryAlu instruction.machine.opcode = true
    · rw [if_pos hbinary]
      cases hrhs : constants.get instruction.machine.src with
      | none => exact .forgotten
      | some rhs =>
        dsimp only
        rw [if_pos hbinary]
        cases hresult : Isa.evaluateBinary instruction.machine.opcode lhs rhs with
        | error e => exact .cleared
        | ok evaluated =>
          have hvalue : ∀ registers, Agrees constants registers →
              operation instruction.machine registers = .ok evaluated := by
            intro registers hagrees
            unfold operation
            rw [if_pos hbinary, hagrees.get hlhs, hagrees.get hrhs, hresult]
          cases hwrites : evaluated.writesValue with
          | false =>
            dsimp only
            rw [hwrites]
            exact .compared hsymbol hvalue hwrites
          | true =>
            dsimp only
            rw [hwrites]
            exact .computed hsymbol hvalue hwrites
    · rw [if_neg hbinary]
      dsimp only
      rw [if_neg hbinary]
      cases hresult : Isa.evaluateUnary instruction.machine.opcode lhs with
      | error e => exact .cleared
      | ok evaluated =>
        have hvalue : ∀ registers, Agrees constants registers →
            operation instruction.machine registers = .ok evaluated := by
          intro registers hagrees
          unfold operation
          rw [if_neg hbinary, hagrees.get hlhs, hresult]
        cases hwrites : evaluated.writesValue with
        | false =>
          dsimp only
          rw [hwrites]
          exact .compared hsymbol hvalue hwrites
        | true =>
          dsimp only
          rw [hwrites]
          exact .computed hsymbol hvalue hwrites

section

variable {p : Program} {vm vm' : VirtualMachine} {constants : ConstantMap}
  {instruction : Instruction} {flagsDead : Bool}

/-- What is known after an instruction is true. -/
theorem agrees_fold (hagrees : Agrees constants vm.cpu.registers)
    (hbranch : isBranch instruction.machine.opcode = false)
    (hsyscall : instruction.machine.opcode ≠ .SYSCALL)
    (hexecute : vm.execute (p.resolve instruction) 0 = (.ok (), vm')) :
    Agrees (foldInstruction flagsDead constants instruction).1 vm'.cpu.registers := by
  have hbranch' : transfers (p.resolve instruction).opcode = false := by
    rw [p.resolve_opcode]
    exact hbranch
  have hwritten := (execute_registers hbranch' (by rw [p.resolve_opcode]; exact hsyscall) hexecute
    fun _ _ => rfl).2
  have hlike : ∀ value, written (p.resolve instruction) vm.cpu.registers value =
      written instruction.machine vm.cpu.registers value := by
    intro value
    unfold written
    rw [p.resolve_opcode, p.resolve_dst]
  rw [hlike] at hwritten
  have hfolding := folding_foldInstruction flagsDead constants instruction
  generalize foldInstruction flagsDead constants instruction = result at hfolding
  obtain ⟨-, hdoes⟩ := (execute_eq_ok hbranch').mp hexecute
  cases hfolding with
  | cleared =>
    rw [hwritten]
    exact hagrees.clear_written _ _
  | forgotten =>
    rw [hwritten]
    exact hagrees.forget _ _
  | immediate hsymbol hop =>
    rw [p.resolve_of_not_symbolic hsymbol] at hdoes
    obtain rfl := hdoes.of_immediate hop
    exact hagrees.set _ _
  | moved hsymbol hop hsrc =>
    rw [p.resolve_of_not_symbolic hsymbol] at hdoes
    obtain rfl := hdoes.of_move hop
    rw [hagrees.get hsrc]
    exact hagrees.set _ _
  | compared hsymbol hvalue hno =>
    rw [p.resolve_of_not_symbolic hsymbol] at hdoes
    obtain rfl := hdoes.of_alu (hvalue _ hagrees)
    dsimp only
    rw [hno]
    exact hagrees
  | computed hsymbol hvalue hyes =>
    rw [p.resolve_of_not_symbolic hsymbol] at hdoes
    obtain rfl := hdoes.of_alu (hvalue _ hagrees)
    dsimp only
    rw [hyes]
    exact hagrees.set _ _

/-- What an instruction that is rewritten does, and the `MOVI` that takes its place. -/
theorem execute_folded {folded : Instruction} (hagrees : Agrees constants vm.cpu.registers)
    (hfold : (foldInstruction flagsDead constants instruction).2 = some folded)
    (hexecute : vm.execute instruction.machine 0 = (.ok (), vm')) :
    ∃ value, folded = toMovi instruction value ∧
      vm.execute folded.machine 0 = (.ok (), vm.setRegister instruction.machine.dst.slot value) ∧
      vm' = (vm.setRegister instruction.machine.dst.slot value).withFlags vm'.cpu.flags ∧
      (writesFlags instruction.machine.opcode = true → flagsDead = true) ∧
      (writesFlags instruction.machine.opcode = false → vm'.cpu.flags = vm.cpu.flags) := by
  have hsome : foldInstruction flagsDead constants instruction =
      ((foldInstruction flagsDead constants instruction).1, some folded) := Prod.ext rfl hfold
  obtain ⟨hsymbol, hop, -⟩ := foldInstruction_eq_some hsome
  have hbranch := not_isBranch_of_alu hop
  obtain ⟨⟨hdst, -⟩, hdoes⟩ := (execute_eq_ok hbranch).mp hexecute
  have hmovi : ∀ value, vm.execute (toMovi instruction value).machine 0 =
      (.ok (), vm.setRegister instruction.machine.dst.slot value) := by
    intro value
    rw [execute_eq_ok rfl]
    refine ⟨⟨hdst, rfl⟩, ?_⟩
    have himmediate := @Executes.immediate vm (toMovi instruction value).machine (.inl rfl)
    rwa [show (toMovi instruction value).machine.imm.toUInt64 = value from
      UInt64.toUInt64_toInt64 value] at himmediate
  have hfolding := folding_foldInstruction flagsDead constants instruction
  generalize foldInstruction flagsDead constants instruction = result at hfolding hfold
  cases hfolding with
  | cleared => cases hfold
  | forgotten => cases hfold
  | immediate => cases hfold
  | compared => cases hfold
  | @moved value fits hsymbol hmov hsrc =>
    dsimp only at hfold
    split_ifs at hfold
    cases hfold
    obtain rfl := hdoes.of_move hmov
    have hno : writesFlags instruction.machine.opcode = false := by rw [hmov]; rfl
    refine ⟨value, rfl, hmovi value, ?_, fun hyes => ?_, fun _ => rfl⟩
    · rw [hagrees.get hsrc]
      rfl
    · exact absurd (hno.symm.trans hyes) Bool.false_ne_true
  | @computed evaluated fits hsymbol hvalue hyes =>
    dsimp only at hfold
    split_ifs at hfold with hfits
    cases hfold
    have hvalue' := hvalue _ hagrees
    obtain ⟨hflags, -⟩ := writes_of_operation hvalue'
    rw [← writesFlags_eq] at hflags
    obtain rfl := hdoes.of_alu hvalue'
    refine ⟨evaluated.value, rfl, hmovi _, ?_, fun hwrites => ?_, fun hno => ?_⟩
    · rw [hyes]
      rfl
    · rw [← hflags, hwrites] at hfits
      simpa using (Bool.and_eq_true _ _).mp hfits |>.1
    · dsimp only
      rw [← hflags, hno]
      rfl

end

/-! ### The pass -/

/-- What is known does not depend on what is known of FLAGS. -/
theorem foldInstruction_fst (flagsDead flagsDead' : Bool) (constants : ConstantMap)
    (instruction : Instruction) : (foldInstruction flagsDead constants instruction).1 =
      (foldInstruction flagsDead' constants instruction).1 := by
  unfold foldInstruction
  dsimp only
  by_cases hsymbolic : instruction.isSymbolic = true
  · rw [if_pos hsymbolic, if_pos hsymbolic]
  by_cases himmediate : instruction.machine.opcode = .MOVI ∨ instruction.machine.opcode = .LEA
  · rw [if_neg hsymbolic, if_neg hsymbolic, if_pos himmediate, if_pos himmediate]
  rw [if_neg hsymbolic, if_neg hsymbolic, if_neg himmediate, if_neg himmediate]
  by_cases hmov : instruction.machine.opcode = .MOV
  · rw [if_pos hmov, if_pos hmov]
  by_cases hno : (!Isa.isBinaryAlu instruction.machine.opcode &&
      !Isa.isUnaryAlu instruction.machine.opcode) = true
  · rw [if_neg hmov, if_neg hmov, if_pos hno, if_pos hno]
  rw [if_neg hmov, if_neg hmov, if_neg hno, if_neg hno]
  cases constants.get instruction.machine.dst with
  | none => rfl
  | some lhs =>
    cases (if Isa.isBinaryAlu instruction.machine.opcode then
        constants.get instruction.machine.src else some 0) with
    | none => rfl
    | some rhs =>
      dsimp only
      cases (if Isa.isBinaryAlu instruction.machine.opcode then
          Isa.evaluateBinary instruction.machine.opcode lhs rhs
        else Isa.evaluateUnary instruction.machine.opcode lhs) with
      | error e => rfl
      | ok evaluated =>
        dsimp only
        by_cases hwrites : (!evaluated.writesValue) = true
        · rw [if_pos hwrites, if_pos hwrites]
        · rw [if_neg hwrites, if_neg hwrites]

/-- What is known after `n` slots of a block. -/
def constantsAt (slots : List Slot) (begin : ℕ) : ℕ → ConstantMap
  | 0 => ConstantMap.empty
  | n + 1 =>
    match (slots[begin + n]?).bind Slot.live? with
    | none => constantsAt slots begin n
    | some instruction => (foldInstruction false (constantsAt slots begin n) instruction).1

/-- What the pass makes of a slot. -/
def foldedSlot (flagsDead : Bool) (constants : ConstantMap) (slot : Slot) : Slot :=
  match slot.live?.bind fun instruction => (foldInstruction flagsDead constants instruction).2 with
  | none => slot
  | some folded => { slot with item := .instruction folded }

/-- The pass leaves a slot alone, or rewrites its instruction. -/
theorem foldedSlot_cases (flagsDead : Bool) (constants : ConstantMap) (slot : Slot) :
    foldedSlot flagsDead constants slot = slot ∨
      ∃ instruction folded, slot.live? = some instruction ∧
        (foldInstruction flagsDead constants instruction).2 = some folded ∧
        foldedSlot flagsDead constants slot = { slot with item := .instruction folded } := by
  unfold foldedSlot
  cases hfold : slot.live?.bind fun instruction =>
      (foldInstruction flagsDead constants instruction).2 with
  | none => exact .inl rfl
  | some folded =>
    obtain ⟨instruction, hlive, hsome⟩ := Option.bind_eq_some_iff.mp hfold
    exact .inr ⟨instruction, folded, hlive, hsome, rfl⟩

theorem constantsAt_congr {slots slots' : List Slot} {begin n : ℕ}
    (h : ∀ j, begin ≤ j → j < begin + n → slots[j]? = slots'[j]?) :
    constantsAt slots begin n = constantsAt slots' begin n := by
  induction n with
  | zero => rfl
  | succ n ih =>
    unfold constantsAt
    rw [ih fun j hj hjn => h j hj (by omega), h (begin + n) (by omega) (by omega)]

/-- A turn of the loop. -/
theorem foldConstant_spec (flow : ControlFlow) (k i : ℕ) (constants : ConstantMap) (w : Work) :
    (foldConstant flow k (constants, w) i).1 =
        (match (w.slots[i]?).bind Slot.live? with
        | none => constants
        | some instruction => (foldInstruction false constants instruction).1) ∧
      ∀ j, (foldConstant flow k (constants, w) i).2.slots[j]? =
        (w.slots[j]?).map fun slot =>
          if j = i then foldedSlot (flow.flagsDeadAfter k i) constants slot else slot := by
  have hsame : ∀ {slots : List Slot} {f : Slot → Slot} {j : ℕ}, (∀ slot, slots[i]? = some slot →
      f slot = slot) → slots[j]? = (slots[j]?).map fun slot => if j = i then f slot else slot := by
    intro slots f j hf
    cases hslot : slots[j]? with
    | none => rfl
    | some slot =>
      rw [Option.map_some]
      split_ifs with hji
      · rw [hf slot (hji ▸ hslot)]
      · rfl
  unfold foldConstant
  dsimp only
  cases hlive : (w.slots[i]?).bind Slot.live? with
  | none =>
    refine ⟨rfl, fun j => hsame fun slot hslot => ?_⟩
    rw [hslot] at hlive
    unfold foldedSlot
    rw [show slot.live? = none from hlive]
    rfl
  | some instruction =>
    dsimp only
    rw [foldInstruction_fst false (flow.flagsDeadAfter k i)]
    cases hfold : foldInstruction (flow.flagsDeadAfter k i) constants instruction with
    | mk constants' result =>
      cases result with
      | none =>
        refine ⟨rfl, fun j => hsame fun slot hslot => ?_⟩
        rw [hslot] at hlive
        unfold foldedSlot
        rw [show slot.live? = some instruction from hlive]
        show (match (foldInstruction (flow.flagsDeadAfter k i) constants instruction).2 with
          | none => slot
          | some folded => { slot with item := .instruction folded }) = slot
        rw [hfold]
      | some folded =>
        refine ⟨rfl, fun j => ?_⟩
        dsimp only
        rw [List.getElem?_modify]
        cases hslot : w.slots[j]? with
        | none => rfl
        | some slot =>
          show some (if i = j then { slot with item := .instruction folded } else slot) =
            some (if j = i then foldedSlot (flow.flagsDeadAfter k i) constants slot else slot)
          by_cases hji : i = j
          · subst hji
            rw [hslot] at hlive
            rw [if_pos rfl, if_pos rfl]
            unfold foldedSlot
            rw [show slot.live? = some instruction from hlive]
            show some _ =
                some (match (foldInstruction (flow.flagsDeadAfter k i) constants instruction).2 with
              | none => slot
              | some folded => { slot with item := .instruction folded })
            rw [hfold]
          · rw [if_neg hji, if_neg (Ne.symm hji)]

/-- A block. -/
theorem foldBlock_spec (flow : ControlFlow) (k begin n : ℕ) (w : Work) :
    ((List.range' begin n).foldl (foldConstant flow k) (ConstantMap.empty, w)).1 =
        constantsAt w.slots begin n ∧
      ∀ j, ((List.range' begin n).foldl (foldConstant flow k) (ConstantMap.empty, w)).2.slots[j]? =
        (w.slots[j]?).map fun slot =>
          if begin ≤ j ∧ j < begin + n then
            foldedSlot (flow.flagsDeadAfter k j) (constantsAt w.slots begin (j - begin)) slot
          else slot := by
  induction n with
  | zero =>
    refine ⟨rfl, fun j => ?_⟩
    have hno : ¬(begin ≤ j ∧ j < begin + 0) := by omega
    simp only [if_neg hno, Option.map_id']
    rfl
  | succ n ih =>
    obtain ⟨hknown, hslots⟩ := ih
    rw [List.range'_concat, List.foldl_append]
    generalize (List.range' begin n).foldl (foldConstant flow k) (ConstantMap.empty, w) = state
      at hknown hslots
    obtain ⟨constants, before⟩ := state
    dsimp only at hknown hslots
    subst hknown
    rw [List.foldl_cons, List.foldl_nil, Nat.one_mul]
    obtain ⟨hknown', hslots'⟩ :=
      foldConstant_spec flow k (begin + n) (constantsAt w.slots begin n) before
    have hhere : before.slots[begin + n]? = w.slots[begin + n]? := by
      rw [hslots]
      simp
    refine ⟨?_, fun j => ?_⟩
    · rw [hknown', hhere]
      rfl
    · rw [hslots', hslots, Option.map_map]
      congr 1
      funext slot
      dsimp only [Function.comp]
      by_cases hj : j = begin + n
      · subst hj
        rw [if_pos rfl, if_neg (by omega), if_pos (by omega), Nat.add_sub_cancel_left]
      · rw [if_neg hj]
        by_cases hin : begin ≤ j ∧ j < begin + n
        · rw [if_pos hin, if_pos (by omega)]
        · rw [if_neg hin, if_neg (by omega)]

/-- A pass over blocks that do not overlap, which makes of a slot in a block what depends on the
slots of that block alone: each block is as if the pass went over it first. -/
theorem foldl_blocks_spec {α : Type} {block : α → Block} {pass : Work → α → Work}
    {f : α → List Slot → ℕ → Slot → Slot}
    (hcongr : ∀ a slots slots' j, (block a).begin ≤ j → j < (block a).stop →
      (∀ i, (block a).begin ≤ i → i < (block a).stop → slots[i]? = slots'[i]?) →
      f a slots j = f a slots' j) {blocks : List α}
    (hpass : ∀ a ∈ blocks, ∀ w j, (pass w a).slots[j]? = (w.slots[j]?).map fun slot =>
      if (block a).begin ≤ j ∧ j < (block a).stop then f a w.slots j slot else slot)
    (hsorted : blocks.Pairwise fun a b => (block a).stop ≤ (block b).begin) (w : Work) (j : ℕ) :
    (∀ a ∈ blocks, (block a).begin ≤ j → j < (block a).stop →
      (blocks.foldl pass w).slots[j]? = (w.slots[j]?).map (f a w.slots j)) ∧
      ((∀ a ∈ blocks, ¬((block a).begin ≤ j ∧ j < (block a).stop)) →
        (blocks.foldl pass w).slots[j]? = w.slots[j]?) := by
  induction blocks generalizing w with
  | nil => exact ⟨fun a ha => absurd ha List.not_mem_nil, fun _ => rfl⟩
  | cons first rest ih =>
    obtain ⟨hfirst, hrest⟩ := List.pairwise_cons.mp hsorted
    have hih := ih (fun a ha => hpass a (List.mem_cons_of_mem _ ha)) hrest (pass w first)
    have hslots := hpass first List.mem_cons_self w
    have hother : ∀ i, ¬((block first).begin ≤ i ∧ i < (block first).stop) →
        (pass w first).slots[i]? = w.slots[i]? := by
      intro i hi
      rw [hslots]
      simp only [if_neg hi, Option.map_id']
    rw [List.foldl_cons]
    refine ⟨fun a ha hj hjs => ?_, fun hnone => ?_⟩
    · rcases List.mem_cons.mp ha with rfl | ha
      · rw [hih.2 fun b hb hin => ?_, hslots]
        · simp only [if_pos (And.intro hj hjs)]
        · have := hfirst b hb
          omega
      · have hbefore := hfirst a ha
        rw [hih.1 a ha hj hjs, hother j (by omega)]
        congr 1
        exact hcongr a _ _ j hj hjs fun i hi his => hother i (by omega)
    · rw [hih.2 fun a ha => hnone a (List.mem_cons_of_mem _ ha),
        hother j (hnone first List.mem_cons_self)]

/-- Blocks that do not overlap: each is folded on its own. -/
theorem foldBlocks_spec (flow : ControlFlow) {blocks : List (Block × ℕ)}
    (hbegin : ∀ b ∈ blocks, b.1.begin ≤ b.1.stop)
    (hsorted : blocks.Pairwise fun a b => a.1.stop ≤ b.1.begin) (w : Work) (j : ℕ) :
    (∀ b ∈ blocks, b.1.begin ≤ j → j < b.1.stop →
      (blocks.foldl (fun w b => foldBlock flow b.2 b.1 w) w).slots[j]? = (w.slots[j]?).map
        (foldedSlot (flow.flagsDeadAfter b.2 j) (constantsAt w.slots b.1.begin (j - b.1.begin)))) ∧
      ((∀ b ∈ blocks, ¬(b.1.begin ≤ j ∧ j < b.1.stop)) →
        (blocks.foldl (fun w b => foldBlock flow b.2 b.1 w) w).slots[j]? = w.slots[j]?) := by
  refine @foldl_blocks_spec _ Prod.fst (fun w b => foldBlock flow b.2 b.1 w)
    (fun b slots j => foldedSlot (flow.flagsDeadAfter b.2 j)
      (constantsAt slots b.1.begin (j - b.1.begin))) ?_ blocks (fun b hb w j => ?_) hsorted w j
  · intro b slots slots' j hj hjs hsame
    congr 1
    exact constantsAt_congr fun i hi hin => hsame i hi (by omega)
  · have hspec := (foldBlock_spec flow b.2 b.1.begin (b.1.stop - b.1.begin) w).2 j
    rw [Nat.add_sub_cancel' (hbegin b hb)] at hspec
    exact hspec

section

variable {oob : Bool} {items : List Item} {w : Work} {j : ℕ}

theorem foldConstants_eq (flow : ControlFlow) (w : Work) : foldConstants flow w =
    flow.blocks.zipIdx.foldl (fun w b => foldBlock flow b.2 b.1 w) w := rfl

theorem numbered_begin : ∀ b ∈ (controlFlow oob items).blocks.zipIdx, b.1.begin ≤ b.1.stop := by
  intro b hb
  exact controlFlow_partition.begin_le b.1
    (List.mem_of_getElem? (List.mem_zipIdx_iff_getElem?.mp hb))

theorem numbered_sorted :
    (controlFlow oob items).blocks.zipIdx.Pairwise fun a b => a.1.stop ≤ b.1.begin := by
  have hsorted := (@controlFlow_partition oob items).sorted
  rw [← List.zipIdx_map_fst 0 (controlFlow oob items).blocks, List.pairwise_map] at hsorted
  exact hsorted

/-- What constant folding makes of a slot. -/
theorem foldConstants_spec {k : ℕ} {b : Block}
    (hb : (controlFlow oob items).blocks[k]? = some b) (hbegin : b.begin ≤ j) (hstop : j < b.stop) :
    (foldConstants (controlFlow oob items) w).slots[j]? = (w.slots[j]?).map
      (foldedSlot ((controlFlow oob items).flagsDeadAfter k j)
        (constantsAt w.slots b.begin (j - b.begin))) := by
  rw [foldConstants_eq]
  exact (foldBlocks_spec _ numbered_begin numbered_sorted w j).1 (b, k)
    (List.mem_zipIdx_iff_getElem?.mpr hb) hbegin hstop

/-- It leaves alone what is in no block. -/
theorem foldConstants_outside
    (h : ∀ b ∈ (controlFlow oob items).blocks, ¬(b.begin ≤ j ∧ j < b.stop)) :
    (foldConstants (controlFlow oob items) w).slots[j]? = w.slots[j]? := by
  rw [foldConstants_eq]
  exact (foldBlocks_spec _ numbered_begin numbered_sorted w j).2 fun b hb =>
    h b.1 (List.mem_of_getElem? (List.mem_zipIdx_iff_getElem?.mp hb))

end

/-! ### What is known along a run -/

section

variable {symbol : Str → UInt64} {returnAddress : ℕ → UInt64} {oob : Bool} {slots : List Slot}

/-- What is known at the position is true of the registers. -/
def Known (oob : Bool) (slots : List Slot) (s : State) : Prop :=
  ∀ b ∈ (controlFlow oob (slots.map Slot.item)).blocks, b.begin ≤ s.position → s.position < b.stop →
    Agrees (constantsAt slots b.begin (s.position - b.begin)) s.vm.cpu.registers

theorem constantsAt_next {begin i : ℕ} (h : begin ≤ i) :
    constantsAt slots begin (i + 1 - begin) =
      (match (slots[i]?).bind Slot.live? with
      | none => constantsAt slots begin (i - begin)
      | some instruction =>
        (foldInstruction false (constantsAt slots begin (i - begin)) instruction).1) := by
  obtain ⟨n, rfl⟩ := Nat.exists_eq_add_of_le h
  rw [show begin + n + 1 - begin = n + 1 by omega, Nat.add_sub_cancel_left]
  rfl

theorem endsBlock_of_isBranch {opcode : Isa.Opcode} (h : isBranch opcode = true) :
    endsBlock opcode = true := by
  unfold isBranch at h
  unfold endsBlock
  cases hinfo : Isa.findOpcode opcode with
  | none => rfl
  | some info =>
    rw [hinfo] at h
    have hbranch : info.isBranch = true := h
    simp [hbranch]

theorem live_of_skip {i : ℕ} (h : (Program.ofSlots symbol returnAddress slots).place i = .skip) :
    (slots[i]?).bind Slot.live? = none := by
  cases hlive : (slots[i]?).bind Slot.live? with
  | none => rfl
  | some instruction =>
    exact Place.noConfusion (h.symm.trans (place_eq_run.mpr hlive))

theorem known_enter {vm : VirtualMachine} {i : ℕ} (h : IsEntry (slots.map Slot.item) i) :
    Known oob slots (.enter vm i) := by
  intro b hb hbegin hstop
  rcases h with rfl | hl
  · have hzero : b.begin = 0 := Nat.le_zero.mp hbegin
    show Agrees (constantsAt slots b.begin (0 - b.begin)) _
    rw [hzero]
    exact Agrees.empty _
  · exact absurd hl (controlFlow_partition.inside b hb i hbegin hstop)

/-- What is known stays true. -/
theorem known_move {s s' : State} {c : ℕ}
    (hinv : Invariant (.ofSlots symbol returnAddress slots) s) (h : Known oob slots s)
    (hmove : Move (.ofSlots symbol returnAddress slots) s c s') : Known oob slots s' := by
  intro b hb hbegin hstop
  have hpartition := @controlFlow_partition oob (slots.map Slot.item)
  rcases Nat.eq_or_lt_of_le hbegin with hstart | hinside
  · rw [← hstart, Nat.sub_self]
    exact Agrees.empty _
  have hends : ∀ {i : ℕ} {instruction : Instruction},
      (Program.ofSlots symbol returnAddress slots).place i = .run instruction →
      endsBlock instruction.machine.opcode = true → s'.position = i + 1 → False := by
    intro i instruction hplace hend hnext
    exact hpartition.ends b hb i (by omega) (by omega) ⟨instruction, item_of_place hplace, hend⟩
  have hlabel : ∀ {name : Str}, (Program.ofSlots symbol returnAddress slots).target name =
      some s'.position → False :=
    fun htarget => hpartition.inside b hb _ hbegin hstop (isLabelAt_of_labelIndex htarget)
  cases hmove with
  | skip hplace =>
    have hnext : b.begin ≤ s.position := Nat.lt_succ_iff.mp hinside
    have hlive := live_of_skip hplace
    show Agrees (constantsAt slots b.begin (s.position + 1 - b.begin)) _
    rw [constantsAt_next hnext, hlive]
    exact h b hb hnext ((Nat.lt_succ_self _).trans hstop)
  | @plain instruction vm hplace hbranch hsymbol hspecified hexecute =>
    have hnext : b.begin ≤ s.position := Nat.lt_succ_iff.mp hinside
    show Agrees (constantsAt slots b.begin (s.position + 1 - b.begin)) vm.cpu.registers
    rw [constantsAt_next hnext, place_eq_run.mp hplace]
    refine agrees_fold (h b hb hnext ((Nat.lt_succ_self _).trans hstop)) hbranch ?_ hexecute
    intro hsyscall
    exact hends hplace (by rw [hsyscall]; rfl) rfl
  | fall hplace hbranch => exact (hends hplace (endsBlock_of_isBranch hbranch) rfl).elim
  | jump _ _ _ _ _ _ htarget => exact (hlabel htarget).elim
  | call _ _ _ _ htarget => exact (hlabel htarget).elim
  | ret _ _ _ hframes =>
    obtain ⟨call, hcall, hop⟩ := hinv.frames _ (by rw [hframes]; exact List.mem_cons_self)
    exact (hends hcall (by rw [hop]; rfl) rfl).elim

end

/-! ### Both sections -/

section

variable {symbol : Str → UInt64} {returnAddress : ℕ → UInt64} {oob : Bool} {items : List Item}
  {stats : OptStats} {i : ℕ} {instruction : Instruction}

/-- FLAGS that the analysis finds dead are not needed. -/
theorem not_needsFlags_of_dead (hdistinct : DistinctLabels items) {k : ℕ} {b : Block}
    (hb : (controlFlow oob ((markLocal items stats).slots.map Slot.item)).blocks[k]? = some b)
    (hbegin : b.begin ≤ i) (hstop : i < b.stop)
    (hlive : ((markLocal items stats).slots[i]?).bind Slot.live? = some instruction)
    (hgoes : terminates instruction.machine.opcode = false)
    (hdead : (controlFlow oob ((markLocal items stats).slots.map Slot.item)).flagsDeadAfter k i =
      true) :
    ¬NeedsFlags (.ofSlots symbol returnAddress (markLocal items stats).slots) (i + 1) := by
  intro hneeds
  have hneeded : Needed ((markLocal items stats).slots.map Slot.item)
      (drawnLeave oob ((markLocal items stats).slots.map Slot.item)) (i + 1) :=
    needed_of_needsFlags hdistinct hneeds le_rfl ((reached_of_live hlive).2 hgoes)
      fun k hk hki => absurd hki (not_lt.mpr hk)
  have hplace : (Program.ofSlots symbol returnAddress (markLocal items stats).slots).place i =
      .run instruction := place_eq_run.mpr hlive
  have hitem := item_of_place hplace
  refine (flagsDeadAfter_iff hb hbegin hstop).mp hdead ?_
  rcases drawn_next hitem hgoes with hnone | hnext
  · exact .inl hnone
  · exact .inr ⟨i + 1, hnext, hneeded⟩

/-- FLAGS may still be read. -/
def FlagsLive (p : Program) (s : State) : Prop := s.vm.cpu.halted = false ∧ NeedsFlags p s.position

/-- An instruction that is not rewritten. -/
theorem move_unfolded {p q : Program} {s s' t : State} {c : ℕ} (hmapped : Mapped p q id)
    (hinv : Invariant p s) (h : Linked id Set.univ (FlagsLive p s) s t)
    (hrun : s.vm.cpu.halted = false) (hplace : q.place s.position = p.place s.position)
    (hmove : Move p s c s') :
    ∃ d ≤ c, ∃ t', (meaning q).Reaches t d t' ∧ Linked id Set.univ (FlagsLive p s') s' t' := by
  have hrun' : t.vm.cpu.halted = false := h.close.halted.trans hrun
  have hposition : t.position = s.position := h.position
  cases hat : p.place s.position with
  | stop => exact absurd hat hmove.place_ne_stop
  | skip =>
    obtain ⟨rfl, rfl⟩ := hmove.eq_of_skip hat
    have hskip : Move q t 0 (t.goto (t.position + 1)) := .skip (by rw [hposition, hplace, hat])
    refine ⟨0, le_rfl, _, hskip.reaches hrun', ?_⟩
    refine (h.goto (by rw [hposition]; rfl)).mono (fun _ hr => hr) fun hlive => ⟨hrun, ?_⟩
    refine .step (.skip hat) (fun i hi => ?_) hlive.2
    exact Place.noConfusion (hat.symm.trans hi)
  | run instruction =>
    obtain ⟨t', hmove', h'⟩ := move_kept hmapped hinv h hat (hplace.trans hat) rfl
      (fun _ _ => trivial) (fun _ _ => trivial) (fun hreads => ⟨hrun, .use hat (.inl hreads)⟩) hmove
    refine ⟨c, le_rfl, t', hmove'.reaches hrun', h'.mono (fun _ _ => .inl trivial) ?_⟩
    rintro ⟨hrun'', hneeds⟩
    rcases needsFlags_of_move hmove hrun'' hneeds with hneeds | ⟨i, hi, hwrites⟩
    · exact .inl ⟨hrun, hneeds⟩
    · rw [hat] at hi
      cases hi
      exact .inr hwrites

/-- Control goes on after a move or a computation. -/
theorem goes_of_alu {opcode : Isa.Opcode}
    (h : opcode = .MOV ∨ Isa.isBinaryAlu opcode = true ∨ Isa.isUnaryAlu opcode = true) :
    terminates opcode = false := by
  refine terminates_of_not_branch (not_isBranch_of_alu h) fun hhalt => ?_
  rw [hhalt] at h
  simp [Isa.isBinaryAlu, Isa.isUnaryAlu] at h

theorem not_stores {vm : VirtualMachine} {machine : Isa.Instruction}
    (h : (machine.opcode = .NOP ∨ machine.opcode = .MOVI ∨ machine.opcode = .LEA) ∨
      machine.opcode = .MOV ∨ Isa.isBinaryAlu machine.opcode = true ∨
      Isa.isUnaryAlu machine.opcode = true) (x : UInt64) : ¬vm.stores machine x := by
  rintro (⟨hop, -⟩ | ⟨hpush, -⟩ | ⟨hop, -⟩)
  · simp [hop, Isa.isBinaryAlu, Isa.isUnaryAlu] at h
  · unfold pushes at hpush
    rcases Bool.or_eq_true_iff.mp hpush with hop | hop <;>
      simp [of_decide_eq_true hop, Isa.isBinaryAlu, Isa.isUnaryAlu] at h
  · simp [hop, Isa.isBinaryAlu, Isa.isUnaryAlu] at h

/-- An instruction that is rewritten into a `MOVI`. -/
theorem move_folded {p q : Program} {s s' t : State} {c : ℕ} {constants : ConstantMap}
    {folded : Instruction} {flagsDead : Bool} (hmapped : Mapped p q id) (hinv : Invariant p s)
    (h : Linked id Set.univ (FlagsLive p s) s t) (hrun : s.vm.cpu.halted = false)
    (hagrees : Agrees constants s.vm.cpu.registers)
    (hplace : p.place s.position = .run instruction)
    (hfold : (foldInstruction flagsDead constants instruction).2 = some folded)
    (hplace' : q.place s.position = .run folded)
    (hdead : flagsDead = true → ¬NeedsFlags p (s.position + 1)) (hmove : Move p s c s') :
    ∃ d ≤ c, ∃ t', (meaning q).Reaches t d t' ∧ Linked id Set.univ (FlagsLive p s') s' t' := by
  have hsome : foldInstruction flagsDead constants instruction =
      ((foldInstruction flagsDead constants instruction).1, some folded) := Prod.ext rfl hfold
  obtain ⟨hsymbol, hop, -⟩ := foldInstruction_eq_some hsome
  have hbranch := not_isBranch_of_alu hop
  obtain ⟨rfl, -, hspecified, vm, hexecute, rfl⟩ := hmove.eq_of_plain hplace hbranch
  rw [p.resolve_of_not_symbolic hsymbol] at hexecute hspecified
  obtain ⟨value, rfl, hexecute', hflags, hwrites, hkeeps⟩ := execute_folded hagrees hfold hexecute
  obtain ⟨f, rfl⟩ : ∃ f, vm = (s.vm.setRegister instruction.machine.dst.slot value).withFlags f :=
    ⟨_, hflags⟩
  have hsymbol' : (toMovi instruction value).isSymbolic = false := hsymbol
  have hresolve' := p.resolve_of_not_symbolic hsymbol'
  have hspecified' : s.Specified (p.resolve (toMovi instruction value)) := by
    rw [hresolve']
    exact ⟨fun x hx => by simp [loads, toMovi] at hx, fun hpop => by simp [toMovi] at hpop⟩
  obtain ⟨t', hmove', h'⟩ := plain_kept hmapped hinv h hplace' rfl (fun _ _ => trivial)
    (fun _ _ => trivial) rfl (fun hyes => absurd (hsymbol'.symm.trans hyes) Bool.false_ne_true)
    hspecified' (by rw [hresolve']; exact hexecute')
  have hhidden : ∀ machine, (∀ x, ¬s.vm.stores machine x) →
      {x | x ∈ s.hidden ∧ ¬s.vm.stores machine x} = s.hidden := by
    intro machine hno
    ext x
    exact and_iff_left (hno x)
  rw [hresolve', hhidden _ (not_stores (.inl (.inr (.inl rfl))))] at h'
  rw [p.resolve_of_not_symbolic hsymbol, hhidden _ (not_stores (.inr hop))]
  refine ⟨1, le_rfl, t', hmove'.reaches (h.close.halted.trans hrun), h'.position, h'.frames,
    h'.hidden, ?_⟩
  refine (h'.close.mono (fun _ hx => hx) (fun _ _ => .inl trivial) id).withFlags ?_
  rintro ⟨hrun', hneeds⟩
  cases hwrite : writesFlags instruction.machine.opcode with
  | true => exact absurd hneeds (hdead (hwrites hwrite))
  | false =>
    have hgoes := goes_of_alu hop
    have hcall : instruction.machine.opcode ≠ .CALL := by
      intro hcall
      rw [hcall] at hbranch
      cases hbranch
    have hsame := h'.close.flags (.inl ⟨hrun, .step (.next hplace hgoes hcall) (fun i hi => by
      rw [hplace] at hi
      cases hi
      exact hwrite) hneeds⟩)
    exact hsame.trans (hkeeps hwrite).symm

/-- **Constant folding preserves meaning.** -/
theorem refines_foldConstants (hdistinct : DistinctLabels items) :
    Refines (.ofSlots symbol returnAddress (markLocal items stats).slots)
      (.ofSlots symbol returnAddress (foldConstants
        (controlFlow oob ((markLocal items stats).slots.map Slot.item))
      (markLocal items stats)).slots) id
        (IsEntry ((markLocal items stats).slots.map Slot.item)) := by
  have hfollows : FollowsAll (markLocal items stats).slots (foldConstants
      (controlFlow oob ((markLocal items stats).slots.map Slot.item))
      (markLocal items stats)).slots := marking_follows.toEditing.foldConstants _ _
  have hmapped : Mapped (.ofSlots symbol returnAddress (markLocal items stats).slots)
      (.ofSlots symbol returnAddress (foldConstants
        (controlFlow oob ((markLocal items stats).slots.map Slot.item))
        (markLocal items stats)).slots) id := mapped_of_follows hfollows
  refine refines_of_simulates (R := fun s t =>
    (Invariant (.ofSlots symbol returnAddress (markLocal items stats).slots) s ∧
        Known oob (markLocal items stats).slots s) ∧
      Linked id Set.univ (FlagsLive (.ofSlots symbol returnAddress (markLocal items stats).slots) s)
        s t) ?_ ?_ ?_
  · intro vm i hstack hi
    exact ⟨⟨invariant_enter _ hstack i, known_enter hi⟩, linked_enter _ _ _ _ _⟩
  · rintro s t c s' ⟨⟨hinv, hknown⟩, hlinked⟩ hrun hmove
    have hkeep := And.intro (invariant_move hinv hmove) (known_move hinv hknown hmove)
    cases hslot : (markLocal items stats).slots[s.position]? with
    | none =>
      exact absurd (place_of_length_le (List.getElem?_eq_none_iff.mp hslot)) hmove.place_ne_stop
    | some slot =>
      have hplace : (Program.ofSlots symbol returnAddress (markLocal items stats).slots).place
          s.position = slot.place := place_of_getElem? hslot
      have hsame : (foldConstants (controlFlow oob ((markLocal items stats).slots.map Slot.item))
            (markLocal items stats)).slots[s.position]? = some slot →
          ∃ d ≤ c, ∃ t', (meaning (.ofSlots symbol returnAddress (foldConstants
            (controlFlow oob ((markLocal items stats).slots.map Slot.item))
            (markLocal items stats)).slots)).Reaches t d t' ∧ Linked id Set.univ
            (FlagsLive (.ofSlots symbol returnAddress (markLocal items stats).slots) s') s' t' :=
        fun hkept => move_unfolded hmapped hinv hlinked hrun
          ((place_of_getElem? hkept).trans hplace.symm) hmove
      have hmatch : ∃ d ≤ c, ∃ t', (meaning (.ofSlots symbol returnAddress (foldConstants
            (controlFlow oob ((markLocal items stats).slots.map Slot.item))
            (markLocal items stats)).slots)).Reaches t d t' ∧ Linked id Set.univ
            (FlagsLive (.ofSlots symbol returnAddress (markLocal items stats).slots) s') s' t' := by
        by_cases hinside : ∃ b ∈ (controlFlow oob
            ((markLocal items stats).slots.map Slot.item)).blocks,
            b.begin ≤ s.position ∧ s.position < b.stop
        · obtain ⟨b, hmem, hbegin, hstop⟩ := hinside
          obtain ⟨k, hb⟩ := List.mem_iff_getElem?.mp hmem
          have hspec := foldConstants_spec (w := markLocal items stats) hb hbegin hstop
          rw [hslot, Option.map_some] at hspec
          rcases foldedSlot_cases ((controlFlow oob ((markLocal items stats).slots.map
              Slot.item)).flagsDeadAfter k s.position)
            (constantsAt (markLocal items stats).slots b.begin (s.position - b.begin)) slot with
            heq | ⟨instruction, folded, hlive, hfold, heq⟩
          · rw [heq] at hspec
            exact hsame hspec
          · rw [heq] at hspec
            have hat := Slot.place_eq_run.mpr hlive
            obtain ⟨hremove, -⟩ := Slot.live?_eq_some hlive
            obtain ⟨-, hop, -⟩ := foldInstruction_eq_some (Prod.ext rfl hfold)
            refine move_folded hmapped hinv hlinked hrun (hknown b hmem hbegin hstop)
              (hplace.trans hat) hfold ((place_of_getElem? hspec).trans ?_) (fun hdead => ?_) hmove
            · unfold Slot.place
              rw [hremove]
              rfl
            · refine not_needsFlags_of_dead hdistinct hb hbegin hstop
                (by rw [hslot]; exact hlive) (goes_of_alu hop) hdead
        · refine hsame ((foldConstants_outside ?_).trans hslot)
          exact fun b hb hin => hinside ⟨b, hb, hin⟩
      obtain ⟨d, hd, t', hreaches, hlinked'⟩ := hmatch
      exact ⟨d, hd, t', hreaches, hkeep, hlinked'⟩
  · rintro s t ⟨-, hlinked⟩ hhalted
    exact ⟨hlinked.close.halted.trans hhalted, hlinked.sameResult fun _ => trivial⟩

end

end Optimizer
end MiniTool
