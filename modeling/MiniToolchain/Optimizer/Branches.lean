import MiniToolchain.Ir.Lower
import MiniToolchain.Optimizer.PassSpec

/-!
# Branch targets under optimization

A branch names a label plus a byte addend, or carries a byte displacement.  The optimizer deletes
instructions and leaves both numbers alone, so a branch is sure to reach its target exactly when
there are no bytes to count and the target stays: the label itself, or the branch.

## Main definitions

* `branchOffset` — the offset a branch leads to.
* `Unreached` — between a terminator and the next label.
* `TargetKept` — the branch reaches what it reached, or the first survivor after it.
* `BranchOperand` — the operand of a branch.

## Main results

* `targetKept_of_static` — branches that count no bytes keep their targets.
* `branch_targets_iff` — and no other operand is safe in every program.
-/

namespace MiniTool
namespace Optimizer

open Ir Ast

/-! ### Targets -/

/-- The items of the `.text` section. -/
def textItems (m : Module) : List Item :=
  match m.findSection .text with
  | some s => s.items
  | none => []

/-- The offset in its section that the branch at position `q` leads to; `none` when the section does
not define the name. -/
def branchOffset (items : List Item) (q : ℕ) : Option ℤ :=
  match items[q]? with
  | some (.instruction instruction) =>
    match instruction.symbol with
    | some reference =>
      (labelIndex items reference.name).map fun p => offsetOf items p + reference.addend.toInt
    | none => some (offsetOf items q + Isa.kInstructionSize + instruction.machine.imm.toInt)
  | _ => none

/-- Control does not go on after the item. -/
def Item.Terminates (item : Item) : Prop :=
  ∃ instruction, item = .instruction instruction ∧
    (Isa.findOpcode instruction.machine.opcode).any (·.isTerminator) = true

/-- The item at `q` stands between a terminator and the next label. -/
def Unreached (items : List Item) (q : ℕ) : Prop :=
  ∃ t < q, (∃ item, items[t]? = some item ∧ Item.Terminates item) ∧
    ∀ k, t < k → k < q → ¬IsLabelAt items k

/-- The item at `t` is still there, or it has been deleted as having no effect, not as unreachable,
and something comes after it. -/
def Stands (items : List Item) (slots : List Slot) (t : ℕ) : Prop :=
  (∃ slot, slots[t]? = some slot ∧ slot.remove = false) ∨
    (¬Unreached items t ∧ newPosition slots t < (kept slots).length)

/-- If an item starts where the branch at `q` leads, then after optimization the branch leads to
that item, or to the first survivor after it if it had no effect.  (Empty items start at one offset
with the next one.) -/
def TargetKept (items : List Item) (slots : List Slot) (q : ℕ) : Prop :=
  ∀ target, branchOffset items q = some target →
    (∃ t < items.length, (offsetOf items t : ℤ) = target) →
    ∃ t < items.length, (offsetOf items t : ℤ) = target ∧ Stands items slots t ∧
      branchOffset (kept slots) (newPosition slots q) =
        some (offsetOf (kept slots) (newPosition slots t) : ℤ)

/-- The operand of a branch. -/
inductive BranchOperand
  | symbol (addend : Int64)
  | literal (displacement : Int64)
  deriving DecidableEq, Repr

def branchOperand (instruction : Instruction) : BranchOperand :=
  match instruction.symbol with
  | some reference => .symbol reference.addend
  | none => .literal instruction.machine.imm

/-- What analysis accepts as the operand of a branch. -/
def BranchOperand.Accepted : BranchOperand → Prop
  | .symbol _ => True
  | .literal displacement =>
    ByteOrder.fitsSigned displacement Isa.kImmediateBits = true ∧
      displacement.toInt % Isa.kInstructionSize = 0

instance (operand : BranchOperand) : Decidable operand.Accepted :=
  match operand with
  | .symbol _ => inferInstanceAs (Decidable True)
  | .literal _ => inferInstanceAs (Decidable (_ ∧ _))

/-- A label itself, or the branch. -/
def BranchOperand.Static (operand : BranchOperand) : Prop :=
  operand = .symbol 0 ∨ operand = .literal (-8)

/-! ### Branches that count no bytes -/

/-- What becomes of an item. -/
theorem exists_slot {items : List Item} {slots : List Slot}
    (hfollows : FollowsAll (items.map fresh) slots) {t : ℕ} {item : Item}
    (h : items[t]? = some item) :
    ∃ slot, slots[t]? = some slot ∧ Follows (fresh item) slot := by
  obtain ⟨ht, rfl⟩ := List.getElem?_eq_some_iff.mp h
  obtain ⟨hlength, hget⟩ := List.forall₂_iff_get.mp hfollows
  have hfresh : t < (items.map fresh).length := by rwa [List.length_map]
  have ht' : t < slots.length := hlength ▸ hfresh
  refine ⟨slots[t], List.getElem?_eq_getElem ht', ?_⟩
  simpa using hget t hfresh ht'

/-- A branch to a label or to itself keeps its target. -/
theorem targetKept_of_static {items : List Item} {slots : List Slot}
    (hfollows : FollowsAll (items.map fresh) slots) {q : ℕ}
    {instruction : Instruction} {slot : Slot} (hitem : items[q]? = some (.instruction instruction))
    (hbranch : isBranch instruction.machine.opcode = true) (hslot : slots[q]? = some slot)
    (hkeep : slot.remove = false) (hstatic : (branchOperand instruction).Static) :
    TargetKept items slots q := by
  have hq : q < items.length := (List.getElem?_eq_some_iff.mp hitem).1
  have hsame : slot.item = .instruction instruction := by
    obtain ⟨slot', hslot', hf⟩ := exists_slot hfollows hitem
    obtain rfl : slot' = slot := Option.some.inj (hslot'.symm.trans hslot)
    exact hf.branch (Or.inl ⟨instruction, rfl, hbranch⟩)
  have hkept : (kept slots)[newPosition slots q]? = some (.instruction instruction) := by
    rw [getElem?_kept hslot hkeep, hsame]
  intro target htarget _
  unfold branchOffset at htarget ⊢
  rw [hitem] at htarget
  rw [hkept]
  dsimp only at htarget ⊢
  unfold branchOperand at hstatic
  cases hsymbol : instruction.symbol with
  | some reference =>
    rw [hsymbol] at htarget hstatic
    have haddend : reference.addend = 0 := by
      rcases hstatic with h | h
      · exact BranchOperand.symbol.inj h
      · cases h
    obtain ⟨p, hp, rfl⟩ := Option.map_eq_some_iff.mp htarget
    obtain ⟨hlen, l, hl, -⟩ := labelIndex_eq_some hp
    have hat : items[p]? = some (.label l) :=
      (List.getElem?_eq_getElem hlen).trans (congrArg some hl)
    -- labels stay
    obtain ⟨slot', hslot', hf⟩ := exists_slot hfollows hat
    have hremains : slot'.remove = false := by rw [hf.other rfl]; rfl
    refine ⟨p, hlen, by simp [haddend], .inl ⟨slot', hslot', hremains⟩, ?_⟩
    simp [labelIndex_kept hfollows, hp, haddend]
  | none =>
    rw [hsymbol] at htarget hstatic
    cases htarget
    rcases hstatic with h | h
    · cases h
    · -- the branch itself
      have hminus : instruction.machine.imm = -8 := BranchOperand.literal.inj h
      have hint : ((-8 : Int64)).toInt = -8 := by decide
      refine ⟨q, hq, ?_, .inl ⟨slot, hslot, hkeep⟩, ?_⟩
      · simp [hminus, hint]
      · simp [hminus, hint]

/-! ### Sections in which only `NOP` is deleted -/

/-- Data, labels, `NOP`, `CMP` and `JE`. -/
def IsPlain (item : Item) : Prop :=
  ∀ instruction, item = .instruction instruction →
    (instruction.isSymbolic = false ∧
      (instruction.machine.opcode = .NOP ∨ instruction.machine.opcode = .CMP)) ∨
    instruction.machine.opcode = .JE

def isNop : Item → Bool
  | .instruction instruction => instruction.machine.opcode = .NOP
  | _ => false

section Plain

variable {items : List Item} (h : ∀ item ∈ items, IsPlain item)
include h

theorem plain_unreachable (stats : OptStats) :
    unreachable true stats false (items.map fresh) = { slots := items.map fresh, stats } := by
  induction items with
  | nil => rfl
  | cons item rest ih =>
    have hrest := ih fun other hother => h other (List.mem_cons_of_mem item hother)
    have hitem := h item List.mem_cons_self
    rw [List.map_cons, unreachable]
    cases item with
    | instruction instruction =>
      have hterm : (Isa.findOpcode instruction.machine.opcode).any (·.isTerminator) = false := by
        rcases hitem instruction rfl with ⟨-, hop | hop⟩ | hop <;> rw [hop] <;> rfl
      simp only [fresh, Bool.not_true, Bool.false_eq_true, if_false, hterm, Bool.not_false]
      rw [hrest]
    | _ =>
      simp only [fresh]
      rw [hrest]

theorem plain_peephole (stats : OptStats) :
    peephole stats false (items.map fresh) = { slots := items.map fresh, stats } := by
  induction items with
  | nil => rfl
  | cons a rest ih =>
    cases rest with
    | nil => rfl
    | cons b rest =>
      have hrest := ih fun other hother => h other (List.mem_cons_of_mem a hother)
      rw [List.map_cons, List.map_cons, peephole]
      rw [List.map_cons] at hrest
      split
      · next first second hfirst hsecond =>
        have hnot : first.machine.opcode ≠ .PUSH := by
          have hitem : a = .instruction first := (Slot.live?_eq_some hfirst).2
          intro hpush
          rcases h a List.mem_cons_self first hitem with ⟨-, hop | hop⟩ | hop <;>
            rw [hop] at hpush <;> cases hpush
        rw [if_neg (fun hand => hnot hand.1), hrest]
      · rw [hrest]

theorem plain_jumpToNext (stats : OptStats) :
    jumpToNext stats false (items.map fresh) = { slots := items.map fresh, stats } := by
  apply jumpToNext_eq_self
  intro slot hslot instruction hlive hjmp
  obtain ⟨item, hitem, rfl⟩ := List.mem_map.mp hslot
  rcases h item hitem instruction (Slot.live?_eq_some hlive).2 with ⟨-, hop | hop⟩ | hop <;>
    rw [hop] at hjmp <;> cases hjmp

theorem plain_foldConstants (flow : ControlFlow) (w : Work) (hw : w.slots = items.map fresh) :
    foldConstants flow w = w := by
  apply foldConstants_eq_self
  intro slot hslot instruction hlive
  rw [hw] at hslot
  obtain ⟨item, hitem, rfl⟩ := List.mem_map.mp hslot
  have hclear : ConstantMap.empty.clear instruction.machine.dst = ConstantMap.empty :=
    Function.update_eq_self _ _
  rw [not_not]
  intro flagsDead
  unfold foldInstruction
  by_cases hsymbolic : instruction.isSymbolic = true
  · simp only [hsymbolic, if_true, hclear]
  · rcases h item hitem instruction (Slot.live?_eq_some hlive).2 with ⟨-, hop | hop⟩ | hop <;>
      simp [hsymbolic, hop, Isa.isBinaryAlu, Isa.isUnaryAlu, ConstantMap.get,
        ConstantMap.empty, writesRegister, Isa.findOpcode, Isa.kOpcodes]

omit h in
/-- Nothing in a plain section is a dead store. -/
theorem plain_deadStores (flow : ControlFlow) (w : Work)
    (hw : ∀ slot ∈ w.slots, IsPlain slot.item) : forBlocks flow eliminateDeadStore w = w := by
  apply deadStores_eq_self
  intro slot hslot instruction hlive hpure
  rcases hw slot hslot instruction (Slot.live?_eq_some hlive).2 with ⟨-, hop | hop⟩ | hop <;>
    simp [pureDefine, hop] at hpure

omit h in
/-- The first run deletes every `NOP`, and nothing else. -/
theorem plain_markPasses {items : List Item} (h : ∀ item ∈ items, IsPlain item) (oob : Bool)
    (stats : OptStats) :
    (markPasses oob items stats).slots =
        items.map (fun item => { item, remove := isNop item : Slot }) ∧
      ((markPasses oob items stats).changed = true ↔ ∃ item ∈ items, isNop item = true) := by
  have hlocal : markLocal items stats = { slots := items.map fresh, stats } := by
    unfold markLocal
    rw [plain_unreachable h]
    dsimp only
    rw [plain_peephole h]
    exact plain_jumpToNext h stats
  have hid : ∀ item ∈ items, (fresh item).isIdentity = isNop item := by
    intro item hitem
    cases item with
    | instruction instruction =>
      rcases h _ hitem instruction rfl with ⟨hsymbolic, hop | hop⟩ | hop <;>
        simp [Slot.isIdentity, Slot.live?, fresh, isIdentity, isNop, hop]
      exact hsymbolic
    | _ => rfl
  have hcover : ∀ i : ℕ, ((items.map fresh)[i]?).map (fun slot : Slot => slot.item.isLabel) =
      (((items.map fresh).map Slot.item)[i]?).map Item.isLabel := by
    intro i
    rw [List.getElem?_map (f := Slot.item), Option.map_map]
    rfl
  unfold markPasses
  rw [hlocal]
  dsimp only
  unfold markBlocks
  dsimp only
  rw [plain_foldConstants h _ _ rfl]
  obtain ⟨hslots, hchanged⟩ :=
    @slots_eliminateIdentities oob { slots := items.map fresh, stats } _ hcover
  have hmarked : (items.map fresh).map (fun slot =>
      if slot.isIdentity = true then { slot with remove := true } else slot) =
      items.map fun item => { item, remove := isNop item : Slot } := by
    rw [List.map_map]
    apply List.map_congr_left
    intro item hitem
    rw [Function.comp, hid item hitem]
    cases hnop : isNop item <;> rfl
  rw [plain_deadStores]
  · constructor
    · rw [hslots, hmarked]
    · rw [hchanged]
      constructor
      · rintro (hfalse | ⟨slot, hslot, hmark⟩)
        · cases hfalse
        · obtain ⟨item, hitem, rfl⟩ := List.mem_map.mp hslot
          exact ⟨item, hitem, (hid item hitem) ▸ hmark⟩
      · rintro ⟨item, hitem, hnop⟩
        exact Or.inr ⟨fresh item, List.mem_map_of_mem hitem, (hid item hitem).trans hnop⟩
  · rw [hslots, hmarked]
    intro slot hslot
    obtain ⟨item, hitem, rfl⟩ := List.mem_map.mp hslot
    exact h item hitem

omit h in
/-- Over all runs, exactly the `NOP`s are deleted. -/
theorem plain_trace {items : List Item} (h : ∀ item ∈ items, IsPlain item) (oob : ℕ → Bool) (n : ℕ)
    (stats : OptStats) :
    trace oob (n + 2) items stats = items.map fun item => { item, remove := isNop item } := by
  have hquiet : ∀ (items : List Item) (n : ℕ) (stats : OptStats), (∀ item ∈ items, IsPlain item) →
      (∀ item ∈ items, isNop item = false) → trace oob (n + 1) items stats = items.map fresh := by
    intro items n stats h hnone
    obtain ⟨hslots, hchanged⟩ := plain_markPasses h (oob n) stats
    unfold trace
    dsimp only
    rw [if_neg, hslots, List.map_map, List.map_map]
    · rfl
    · rw [hchanged]
      rintro ⟨item, hitem, hnop⟩
      rw [hnone item hitem] at hnop
      cases hnop
  obtain ⟨hslots, hchanged⟩ := plain_markPasses h (oob (n + 1)) stats
  by_cases hany : ∃ item ∈ items, isNop item = true
  · have hkept : kept (markPasses (oob (n + 1)) items stats).slots =
        items.filter fun item => !isNop item := by
      rw [hslots, kept, List.filter_map, List.map_map]
      exact List.map_id _
    unfold trace
    dsimp only
    rw [if_pos (hchanged.mpr hany), hquiet _ n _ (fun item hitem =>
      h item (List.mem_of_mem_filter (hkept ▸ hitem))) (fun item hitem => by
        have := (List.mem_filter.mp (hkept ▸ hitem)).2
        simpa using this), hkept, hslots]
    clear hslots hchanged hany hkept h
    induction items with
    | nil => rfl
    | cons item rest ih =>
      rw [List.map_cons]
      unfold compose
      cases hnop : isNop item with
      | true =>
        rw [List.filter_cons_of_neg (by simp [hnop]), if_pos rfl, ih]
      | false =>
        rw [List.filter_cons_of_pos (by simp [hnop]), List.map_cons, if_neg (by simp)]
        dsimp only
        rw [ih]
        rfl
  · rw [hquiet items (n + 1) stats h (fun item hitem => by
      by_contra hnop
      exact hany ⟨item, hitem, by simpa using hnop⟩)]
    apply List.map_congr_left
    intro item hitem
    have : isNop item = false := by
      by_contra hnop
      exact hany ⟨item, hitem, by simpa using hnop⟩
    rw [this]
    rfl

end Plain

/-! ### Programs that lower to a given section -/

/-- The statement is accepted, and lowering it in `.text` emits the item. -/
structure Emits (statement : Statement) (item : Item) : Prop where
  check : Sema.checkStatement statement = []
  lowers : ∀ l : Lowerer, l.currentKind = .text →
    lowerStatement l statement = some (l.emit item)

/-- Statements that emit items lower to a module with these items. -/
theorem frontEnd_of_emits {statements : List Statement} {items : List Item}
    (h : List.Forall₂ Emits statements items) (hnodup : (Sema.labelNames statements).Nodup) :
    ∃ m, FrontEnd m ∧ textItems m = items := by
  have haccepts : Sema.Accepts { statements } := by
    apply Sema.accepts_of_checks _ hnodup
    intro statement hstatement
    obtain ⟨k, hk, rfl⟩ := List.mem_iff_getElem.mp hstatement
    exact ((List.forall₂_iff_get.mp h).2 k hk
      (by rw [← List.Forall₂.length_eq h]; exact hk)).check
  have hrun : ∀ (l : Lowerer) (before : List Item), l.currentKind = .text → l.failed = false →
      l.module.sections = [{ kind := .text, name := sectionName .text, items := before }] →
      ∃ l', statements.foldlM lowerStatement l = some l' ∧ l'.failed = false ∧
        l'.module.sections =
          [{ kind := .text, name := sectionName .text, items := before ++ items }] := by
    clear haccepts hnodup
    induction h with
    | nil =>
      intro l before _ hfailed hsections
      exact ⟨l, rfl, hfailed, by rw [List.append_nil]; exact hsections⟩
    | @cons statement item statements items hemits _ ih =>
      intro l before hkind hfailed hsections
      obtain ⟨l', hfold, hok, hresult⟩ := ih (l.emit item) (before ++ [item]) hkind hfailed (by
        simp [Lowerer.emit, Module.push, Module.sectionFor, Module.findSection, hsections, hkind,
          List.findIdx_cons])
      refine ⟨l', ?_, hok, by rw [hresult, List.append_assoc]; rfl⟩
      rw [List.foldlM_cons, hemits.lowers l hkind]
      exact hfold
  obtain ⟨l, hfold, hok, hsections⟩ := hrun (startLowerer [] {}) [] rfl rfl rfl
  refine ⟨l.module, ⟨{ statements }, [], {}, l.diagnostics, haccepts, ?_⟩, ?_⟩
  · unfold lower
    rw [hfold]
    simp [hok]
  · unfold textItems Module.findSection
    rw [hsections]
    rfl

def nop : Item := .instruction { machine := { opcode := .NOP } }

def cmp : Item := .instruction { machine := { opcode := .CMP } }

def here : Item := .label { name := [76] }

def alignTo16 : Item := .align { alignment := 16 }

/-- `n` bytes. -/
def spaceOf (n : ℕ) : Item := .space { size := UInt64.ofNat n }

/-- `JE` with an operand; a symbol is the label `L`. -/
def je : BranchOperand → Item
  | .symbol addend =>
    .instruction { machine := { opcode := .JE }, symbol := some { name := [76], addend } }
  | .literal displacement => .instruction { machine := { opcode := .JE, imm := displacement } }

/-- The operand as it is written. -/
def BranchOperand.written : BranchOperand → Operand
  | .symbol addend => { type := .symbol, symbol := [76], immediate := addend }
  | .literal displacement => { immediate := displacement }

theorem emits_nop : Emits (.instruction { mnemonic := str "NOP" }) nop where
  check := by decide
  lowers l hl := by
    have hfind : Isa.findMnemonic (str "NOP") =
        some ⟨.NOP, "NOP", .none, false, false, false, false, false⟩ := by decide
    simp [lowerStatement, lowerInstructionNode, hfind, hl, lowerInstruction, nop]

theorem emits_cmp : Emits
    (.instruction
      { mnemonic := str "CMP", operands := [{ type := .register }, { type := .register }] })
    cmp where
  check := by decide
  lowers l hl := by
    have hfind : Isa.findMnemonic (str "CMP") =
        some ⟨.CMP, "CMP", .reg2, false, true, true, false, false⟩ := by decide
    simp [lowerStatement, lowerInstructionNode, hfind, hl, lowerInstruction, cmp]

theorem emits_here : Emits (.label { name := [76] }) here where
  check := rfl
  lowers _ _ := rfl

theorem emits_alignTo16 : Emits (.directive { type := .align, operands := [{ immediate := 16 }] })
    alignTo16 where
  check := by decide
  lowers _ _ := rfl

theorem emits_spaceOf {n : ℕ} (hn : n < 2 ^ 63) :
    Emits (.directive { type := .space, operands := [{ immediate := Int64.ofNat n }] })
      (spaceOf n) where
  check := by
    have hnonneg : ¬Int64.ofNat n < 0 := by
      rw [Int64.lt_iff_toInt_lt, Int64.toInt_ofNat_of_lt hn]
      simp
    simp [Sema.checkStatement, Sema.checkDirective, Sema.requireOperandCount, hnonneg]
  lowers l _ := by
    simp [lowerStatement, lowerDirective, spaceOf]

theorem emits_je {operand : BranchOperand} (h : operand.Accepted) :
    Emits (.instruction { mnemonic := str "JE", operands := [operand.written] }) (je operand) where
  check := by
    have hfind : Isa.findMnemonic (str "JE") =
        some ⟨.JE, "JE", .jump, false, false, false, false, true⟩ := by decide
    cases operand with
    | symbol addend =>
      simp [Sema.checkStatement, Sema.checkInstruction, hfind, Isa.operandCount,
        Sema.checkOperands, Sema.isValueOperand, Sema.checkSignedRange, BranchOperand.written]
    | literal displacement =>
      simpa [Sema.checkStatement, Sema.checkInstruction, hfind, Isa.operandCount,
        Sema.checkOperands, Sema.isValueOperand, Sema.checkSignedRange, BranchOperand.written, h.1]
        using h.2
  lowers l hl := by
    have hfind : Isa.findMnemonic (str "JE") =
        some ⟨.JE, "JE", .jump, false, false, false, false, true⟩ := by decide
    cases operand <;>
      simp [lowerStatement, lowerInstructionNode, hfind, hl, lowerInstruction, je, setValue,
        BranchOperand.written]

/-! ### The optimized module -/

/-- What becomes of each item of the `.text` section of a module. -/
def survivors (oob : ℕ → Bool) (m : Module) : List Slot :=
  trace oob kMaxIterations (textItems m) { instructionsBefore := m.instructionCount }

theorem survivors_follows (oob : ℕ → Bool) (m : Module) :
    FollowsAll ((textItems m).map fresh) (survivors oob m) := trace_follows oob _ _ _

/-- What the optimizer makes of a section. -/
theorem findSection_run (oob : ℕ → Bool) (m : Module) (kind : SectionKind) :
    (run oob .O1 m).1.findSection kind = (m.findSection kind).map fun s =>
      if kind = .text then { s with items := kept (survivors oob m) } else s := by
  have hsections : ∀ (sections : List Section) (stats : OptStats),
      (optimizeSections oob stats sections).1.find? (fun s => s.kind = kind) =
        (sections.find? fun s => s.kind = kind).map fun s =>
          if kind = .text then { s with items := kept (trace oob kMaxIterations s.items stats) }
              else s := by
    intro sections
    induction sections with
    | nil => exact fun _ => rfl
    | cons s rest ih =>
      intro stats
      unfold optimizeSections
      by_cases htext : s.kind = .text
      · by_cases hkind : kind = .text
        · simp [htext, hkind, optimizeSection, kept_trace]
        · -- the section that is looked for comes later
          have hne : ¬SectionKind.text = kind := fun h => hkind h.symm
          have hrest := ih (optimizeItems oob kMaxIterations s.items stats).2
          simp only [hkind, if_false] at hrest ⊢
          simp [htext, hne, optimizeSection, hrest]
      · by_cases hkind : s.kind = kind
        · have hne : ¬kind = .text := fun h => htext (hkind.trans h)
          simp [hkind, hne]
        · simp [htext, hkind, ih]
  have hrun : (run oob .O1 m).1.sections =
      (optimizeSections oob { instructionsBefore := m.instructionCount } m.sections).1 := rfl
  unfold Module.findSection
  rw [hrun, hsections]
  refine Option.map_congr fun s hs => ?_
  split_ifs with hkind
  · have htext : textItems m = s.items := by
      unfold textItems Module.findSection
      rw [← hkind, hs]
    rw [survivors, htext]
  · rfl

/-- The optimized module keeps the survivors. -/
theorem textItems_run (oob : ℕ → Bool) (m : Module) :
    textItems (run oob .O1 m).1 = kept (survivors oob m) := by
  have hfind := findSection_run oob m .text
  unfold textItems
  rw [hfind]
  cases hsection : m.findSection .text with
  | none =>
    unfold survivors textItems
    rw [hsection]
    exact (kept_trace oob kMaxIterations [] _).symm ▸ by rfl
  | some s => rfl

/-- JMP, a conditional jump or CALL. -/
def isJump (opcode : Isa.Opcode) : Bool := (Isa.findOpcode opcode).any (·.format = .jump)

theorem isBranch_of_isJump {opcode : Isa.Opcode} (h : isJump opcode = true) :
    isBranch opcode = true := by
  unfold isJump at h
  obtain ⟨info, hinfo, hformat⟩ := (Option.any_eq_true _ _).mp h
  have hall : ∀ info ∈ Isa.kOpcodes, info.format = .jump → info.isBranch = true := by decide
  unfold isBranch
  rw [hinfo]
  exact hall info (Isa.mem_of_findOpcode hinfo) (by simpa using hformat)

/-- Every branch with this operand keeps its target, in every module of the front end. -/
def Safe (oob : ℕ → Bool) (operand : BranchOperand) : Prop :=
  ∀ m, FrontEnd m → ∀ q instruction slot,
    (textItems m)[q]? = some (.instruction instruction) → isJump instruction.machine.opcode = true →
    branchOperand instruction = operand → (survivors oob m)[q]? = some slot → slot.remove = false →
    TargetKept (textItems m) (survivors oob m) q

theorem safe_of_static {oob : ℕ → Bool} {operand : BranchOperand} (h : operand.Static) :
    Safe oob operand := by
  intro m _ q instruction slot hitem hjump hoperand hslot hkeep
  exact targetKept_of_static (trace_follows oob _ _ _) hitem (isBranch_of_isJump hjump) hslot hkeep
    (hoperand ▸ h)

/-! ### Operands that count bytes -/

@[simp] theorem isPlain_je (operand : BranchOperand) : IsPlain (je operand) := by
  intro instruction h
  right
  cases operand <;> cases h <;> rfl

@[simp] theorem isPlain_nop : IsPlain nop := by
  intro instruction h
  cases h
  exact Or.inl ⟨rfl, Or.inl rfl⟩

@[simp] theorem isPlain_cmp : IsPlain cmp := by
  intro instruction h
  cases h
  exact Or.inl ⟨rfl, Or.inr rfl⟩

theorem isPlain_other {item : Item} (h : item.isInstruction = false) : IsPlain item := by
  rintro instruction rfl
  cases h

@[simp] theorem isPlain_here : IsPlain here := isPlain_other rfl

@[simp] theorem isPlain_alignTo16 : IsPlain alignTo16 := isPlain_other rfl

@[simp] theorem isPlain_spaceOf (n : ℕ) : IsPlain (spaceOf n) := isPlain_other rfl

theorem branchOperand_je (operand : BranchOperand) :
    ∃ instruction, je operand = .instruction instruction ∧
      instruction.machine.opcode = .JE ∧ branchOperand instruction = operand := by
  cases operand <;> exact ⟨_, rfl, rfl, rfl⟩

/-- The slots of a plain section after all runs. -/
def withoutNops (items : List Item) : List Slot :=
  items.map fun item => { item, remove := isNop item }

/-- A plain program in which `JE` misses its target. -/
theorem not_safe_of_items {oob : ℕ → Bool} {operand : BranchOperand} {statements : List Statement}
    {items : List Item} (hemits : List.Forall₂ Emits statements items)
    (hnodup : (Sema.labelNames statements).Nodup) (hplain : ∀ item ∈ items, IsPlain item) {q : ℕ}
    (hq : items[q]? = some (je operand)) (h : ¬TargetKept items (withoutNops items) q) :
    ¬Safe oob operand := by
  intro hsafe
  obtain ⟨m, hfront, htext⟩ := frontEnd_of_emits hemits hnodup
  obtain ⟨instruction, hje, hop, hoperand⟩ := branchOperand_je operand
  have hslots : survivors oob m = withoutNops items := by
    unfold survivors
    rw [htext]
    exact plain_trace hplain oob 6 _
  have hnop : isNop (je operand) = false := by
    rw [hje, isNop, hop]
    rfl
  have htarget := hsafe m hfront q instruction { item := je operand, remove := isNop (je operand) }
    (by rw [htext, hq, hje]) (by rw [hop]; rfl) hoperand
    (by rw [hslots, withoutNops, List.getElem?_map, hq]; rfl) hnop
  rw [htext, hslots] at htarget
  exact h htarget

theorem toNat_size {x : ℕ} (h : x < 2 ^ 63) : (UInt64.ofNat x).toNat = x :=
  UInt64.toNat_ofNat_of_lt' (by simp only [UInt64.size]; omega)

theorem alignUp_sixteen {value : ℕ} (hpos : 0 < value) (hle : value ≤ 16) :
    Ir.alignUp value 16 = 16 := by
  simp only [Ir.alignUp]
  split_ifs <;> omega

/-- `L + a`, with at least an instruction to delete between the two. -/
theorem miss_symbol_forward {a : Int64} {x : ℕ} (hx : a.toInt = x + 8) :
    ¬TargetKept [je (.symbol a), here, nop, spaceOf x, cmp]
      (withoutNops [je (.symbol a), here, nop, spaceOf x, cmp]) 0 := by
  have hlt := a.toInt_lt
  have hxn : (UInt64.ofNat x).toNat = x := toNat_size (by omega)
  intro h
  obtain ⟨t, ht, hoffset, -, hnew⟩ := h (8 + a.toInt)
    (by simp [branchOffset, je, labelIndex, here, List.findIdx?_cons, offsetOf, layoutFrom,
      Item.advance])
    ⟨4, by simp, by
      simp [offsetOf, layoutFrom, Item.advance, je, here, nop, spaceOf, hxn]
      omega⟩
  simp only [List.length_cons, List.length_nil] at ht
  have hcases : t = 0 ∨ t = 1 ∨ t = 2 ∨ t = 3 ∨ t = 4 := by omega
  rcases hcases with rfl | rfl | rfl | rfl | rfl <;>
    simp [offsetOf, layoutFrom, Item.advance, je, here, nop, spaceOf, cmp, hxn, kept, withoutNops,
      newPosition, isNop, branchOffset, labelIndex, List.findIdx?_cons] at hoffset hnew <;>
    omega

/-- `L + a`, with only padding between the two, which changes when something before `L` is
deleted. -/
theorem miss_symbol_padding {a : Int64} {x : ℕ} (hx : a.toInt = 8 - x) (hpos : 0 < x)
    (hlt : x < 8) :
    ¬TargetKept [nop, spaceOf x, here, alignTo16, cmp, je (.symbol a)]
      (withoutNops [nop, spaceOf x, here, alignTo16, cmp, je (.symbol a)]) 5 := by
  have hxn : (UInt64.ofNat x).toNat = x := toNat_size (by omega)
  have hpad : Ir.alignUp (8 + x) 16 = 16 := alignUp_sixteen (by omega) (by omega)
  have hpad' : Ir.alignUp x 16 = 16 := alignUp_sixteen (by omega) (by omega)
  intro h
  obtain ⟨t, ht, hoffset, -, hnew⟩ := h 16
    (by
      simp [branchOffset, je, labelIndex, here, nop, spaceOf, alignTo16, cmp, List.findIdx?_cons,
        offsetOf, layoutFrom, Item.advance, hxn]
      omega)
    ⟨4, by simp, by
      simp [offsetOf, layoutFrom, Item.advance, je, here, nop, spaceOf, alignTo16, hxn, hpad]⟩
  simp only [List.length_cons, List.length_nil] at ht
  have hcases : t = 0 ∨ t = 1 ∨ t = 2 ∨ t = 3 ∨ t = 4 ∨ t = 5 := by omega
  rcases hcases with rfl | rfl | rfl | rfl | rfl | rfl <;>
    simp [offsetOf, layoutFrom, Item.advance, je, here, nop, spaceOf, cmp, alignTo16, hxn, hpad,
      hpad', kept, withoutNops, newPosition, isNop, branchOffset, labelIndex,
      List.findIdx?_cons] at hoffset hnew <;>
    omega

/-- `L - n`, with at least an instruction to delete between the two. -/
theorem miss_symbol_backward {a : Int64} {x : ℕ} (hx : a.toInt = -(x + 8 : ℤ)) :
    ¬TargetKept [nop, spaceOf x, here, je (.symbol a)]
      (withoutNops [nop, spaceOf x, here, je (.symbol a)]) 3 := by
  have hlt := a.le_toInt
  have hxn : (UInt64.ofNat x).toNat = x := toNat_size (by omega)
  intro h
  obtain ⟨t, ht, hoffset, -, hnew⟩ := h 0
    (by
      simp [branchOffset, je, labelIndex, here, nop, spaceOf, List.findIdx?_cons, offsetOf,
        layoutFrom, Item.advance, hxn]
      omega)
    ⟨0, by simp, by simp [offsetOf, layoutFrom]⟩
  simp only [List.length_cons, List.length_nil] at ht
  have hcases : t = 0 ∨ t = 1 ∨ t = 2 ∨ t = 3 := by omega
  rcases hcases with rfl | rfl | rfl | rfl <;>
    simp [offsetOf, layoutFrom, Item.advance, je, here, nop, spaceOf, hxn, kept, withoutNops,
      newPosition, isNop, branchOffset, labelIndex, List.findIdx?_cons] at hoffset hnew <;>
    omega

/-- `L - n`, with only padding between the two. -/
theorem miss_symbol_padding_backward {a : Int64} {x : ℕ} (hx : a.toInt = x - 8) (hpos : 0 < x)
    (hlt : x < 8) :
    ¬TargetKept [nop, spaceOf x, alignTo16, here, je (.symbol a)]
      (withoutNops [nop, spaceOf x, alignTo16, here, je (.symbol a)]) 4 := by
  have hxn : (UInt64.ofNat x).toNat = x := toNat_size (by omega)
  have hpad : Ir.alignUp (8 + x) 16 = 16 := alignUp_sixteen (by omega) (by omega)
  have hpad' : Ir.alignUp x 16 = 16 := alignUp_sixteen (by omega) (by omega)
  intro h
  obtain ⟨t, ht, hoffset, -, hnew⟩ := h (8 + x)
    (by
      simp [branchOffset, je, labelIndex, here, nop, spaceOf, alignTo16, List.findIdx?_cons,
        offsetOf, layoutFrom, Item.advance, hxn, hpad]
      omega)
    ⟨2, by simp, by
      simp [offsetOf, layoutFrom, Item.advance, je, here, nop, spaceOf, alignTo16, hxn]⟩
  simp only [List.length_cons, List.length_nil] at ht
  have hcases : t = 0 ∨ t = 1 ∨ t = 2 ∨ t = 3 ∨ t = 4 := by omega
  rcases hcases with rfl | rfl | rfl | rfl | rfl <;>
    simp [offsetOf, layoutFrom, Item.advance, je, here, nop, spaceOf, alignTo16, hxn, hpad,
      hpad', kept, withoutNops, newPosition, isNop, branchOffset, labelIndex,
      List.findIdx?_cons] at hoffset hnew <;>
    omega

/-- A displacement over at least one instruction. -/
theorem miss_literal_forward {d : Int64} {x : ℕ} (hx : d.toInt = x + 8) :
    ¬TargetKept [je (.literal d), nop, spaceOf x, cmp]
      (withoutNops [je (.literal d), nop, spaceOf x, cmp]) 0 := by
  have hlt := d.toInt_lt
  have hxn : (UInt64.ofNat x).toNat = x := toNat_size (by omega)
  intro h
  obtain ⟨t, ht, hoffset, -, hnew⟩ := h (8 + d.toInt)
    (by simp [branchOffset, je, offsetOf, layoutFrom])
    ⟨3, by simp, by
      simp [offsetOf, layoutFrom, Item.advance, je, nop, spaceOf, hxn]
      omega⟩
  simp only [List.length_cons, List.length_nil] at ht
  have hcases : t = 0 ∨ t = 1 ∨ t = 2 ∨ t = 3 := by omega
  rcases hcases with rfl | rfl | rfl | rfl <;>
    simp [offsetOf, layoutFrom, Item.advance, je, nop, spaceOf, cmp, hxn, kept, withoutNops,
      newPosition, isNop, branchOffset] at hoffset hnew <;>
    omega

/-- A displacement back over an instruction before the branch. -/
theorem miss_literal_backward {d : Int64} {x : ℕ} (hx : d.toInt = -(x + 16 : ℤ)) :
    ¬TargetKept [nop, spaceOf x, je (.literal d)]
      (withoutNops [nop, spaceOf x, je (.literal d)]) 2 := by
  have hlt := d.le_toInt
  have hxn : (UInt64.ofNat x).toNat = x := toNat_size (by omega)
  intro h
  obtain ⟨t, ht, hoffset, -, hnew⟩ := h 0
    (by
      simp [branchOffset, je, nop, spaceOf, offsetOf, layoutFrom, Item.advance, hxn]
      omega)
    ⟨0, by simp, by simp [offsetOf, layoutFrom]⟩
  simp only [List.length_cons, List.length_nil] at ht
  have hcases : t = 0 ∨ t = 1 ∨ t = 2 := by omega
  rcases hcases with rfl | rfl | rfl <;>
    simp [offsetOf, layoutFrom, Item.advance, je, nop, spaceOf, hxn, kept, withoutNops,
      newPosition, isNop, branchOffset] at hoffset hnew <;>
    omega

/-- `JMP 0`: what follows it is unreachable. -/
def jmp : Item := .instruction { machine := { opcode := .JMP } }

theorem emits_jmp : Emits
    (.instruction { mnemonic := str "JMP", operands := [{ immediate := 0 }] }) jmp where
  check := by decide
  lowers l hl := by
    have hfind : Isa.findMnemonic (str "JMP") =
        some ⟨.JMP, "JMP", .jump, false, false, false, true, true⟩ := by decide
    simp [lowerStatement, lowerInstructionNode, hfind, hl, lowerInstruction, jmp, setValue]

/-- The passes over blocks leave a jump alone. -/
theorem markBlocks_jmp (flow : ControlFlow) {w : Work}
    (h : ∀ slot ∈ w.slots, slot = fresh jmp ∨ slot.remove = true) : markBlocks flow w = w := by
  have hnone : ∀ p : Instruction → Prop, ¬p { machine := { opcode := .JMP } } →
      NoneLive p w.slots := by
    intro p hp slot hslot instruction hlive
    rcases h slot hslot with rfl | hremoved
    · obtain rfl : { machine := { opcode := .JMP } } = instruction := Option.some.inj hlive
      exact hp
    · rw [(Slot.live?_eq_some hlive).1] at hremoved
      cases hremoved
  refine markBlocks_eq_self flow (hnone _ ?_) (hnone _ (by decide)) (hnone _ (by decide))
  exact not_not.mpr fun flagsDead => rfl

theorem trace_jmp (oob : ℕ → Bool) (stats : OptStats) :
    trace oob kMaxIterations [jmp, cmp] stats = [fresh jmp, { item := cmp, remove := true }] := by
  have hsecond : ∀ b stats, markPasses b [jmp] stats = ⟨[fresh jmp], stats, false⟩ := by
    intro b stats
    have hlocal : markLocal [jmp] stats = ⟨[fresh jmp], stats, false⟩ := rfl
    unfold markPasses
    rw [hlocal]
    exact markBlocks_jmp _ (by simp)
  have hfirst : ∀ b stats, ∃ stats', markPasses b [jmp, cmp] stats =
      ⟨[fresh jmp, { item := cmp, remove := true }], stats', true⟩ := by
    intro b stats
    have hlocal : markLocal [jmp, cmp] stats = ⟨[fresh jmp, { item := cmp, remove := true }],
        { stats with unreachableRemoved := stats.unreachableRemoved + 1 }, true⟩ := rfl
    refine ⟨{ stats with unreachableRemoved := stats.unreachableRemoved + 1 }, ?_⟩
    unfold markPasses
    rw [hlocal]
    exact markBlocks_jmp _ (by simp)
  have hkept : kept [fresh jmp, { item := cmp, remove := true }] = [jmp] := rfl
  obtain ⟨stats', hmark⟩ := hfirst (oob 7) stats
  unfold kMaxIterations trace
  dsimp only
  rw [hmark]
  dsimp only
  rw [if_pos rfl, hkept]
  unfold trace
  dsimp only
  rw [hsecond]
  rfl

/-- The instruction after a jump is deleted as unreachable. -/
theorem not_safe_zero (oob : ℕ → Bool) : ¬Safe oob (.literal 0) := by
  intro hsafe
  obtain ⟨m, hfront, htext⟩ := frontEnd_of_emits (.cons emits_jmp (.cons emits_cmp .nil))
    (by simp [Sema.labelNames])
  have hslots : survivors oob m = [fresh jmp, { item := cmp, remove := true }] := by
    unfold survivors
    rw [htext]
    exact trace_jmp oob _
  have hkept := hsafe m hfront 0 { machine := { opcode := .JMP } } (fresh jmp) (by rw [htext]; rfl)
    (by decide) rfl (by rw [hslots]; rfl) rfl
  rw [htext, hslots] at hkept
  obtain ⟨t, ht, hoffset, hstands, -⟩ := hkept 8 rfl ⟨1, by decide, rfl⟩
  obtain rfl : t = 1 := by
    have hlt : t < 2 := ht
    obtain rfl | rfl : t = 0 ∨ t = 1 := by omega
    · cases hoffset
    · rfl
  rcases hstands with ⟨slot, hslot, hkeep⟩ | ⟨hreached, -⟩
  · cases hslot
    cases hkeep
  · exact hreached ⟨0, by decide, ⟨jmp, rfl, _, rfl, by decide⟩, fun k hk hk' => by omega⟩

/-- Every operand that counts bytes misses its target in some program. -/
theorem not_safe_of_not_static {oob : ℕ → Bool} {operand : BranchOperand} (h : operand.Accepted)
    (hnot : ¬operand.Static) : ¬Safe oob operand := by
  have hje := emits_je h
  cases operand with
  | symbol a =>
    have hzero : a.toInt ≠ 0 := by
      intro hzero
      refine hnot (Or.inl ?_)
      rw [Int64.toInt_inj.mp (show a.toInt = (0 : Int64).toInt from hzero)]
    have hlt := a.toInt_lt
    have hle := a.le_toInt
    rcases Int.lt_or_gt_of_ne hzero with hneg | hpos
    · by_cases hfar : a.toInt ≤ -8
      · obtain ⟨x, hx⟩ : ∃ x : ℕ, a.toInt = -(x + 8 : ℤ) := ⟨(-a.toInt - 8).toNat, by omega⟩
        exact not_safe_of_items
          (.cons emits_nop (.cons (emits_spaceOf (by omega)) (.cons emits_here (.cons hje .nil))))
          (by simp [Sema.labelNames])
          (by simp) rfl
          (miss_symbol_backward hx)
      · obtain ⟨x, hx⟩ : ∃ x : ℕ, a.toInt = x - 8 := ⟨(a.toInt + 8).toNat, by omega⟩
        exact not_safe_of_items
          (.cons emits_nop (.cons (emits_spaceOf (by omega)) (.cons emits_alignTo16
            (.cons emits_here (.cons hje .nil)))))
          (by simp [Sema.labelNames])
          (by simp) rfl
          (miss_symbol_padding_backward hx (by omega) (by omega))
    · by_cases hfar : 8 ≤ a.toInt
      · obtain ⟨x, hx⟩ : ∃ x : ℕ, a.toInt = x + 8 := ⟨(a.toInt - 8).toNat, by omega⟩
        exact not_safe_of_items
          (.cons hje (.cons emits_here (.cons emits_nop (.cons (emits_spaceOf (by omega))
            (.cons emits_cmp .nil)))))
          (by simp [Sema.labelNames])
          (by simp) rfl
          (miss_symbol_forward hx)
      · obtain ⟨x, hx⟩ : ∃ x : ℕ, a.toInt = 8 - x := ⟨(8 - a.toInt).toNat, by omega⟩
        exact not_safe_of_items
          (.cons emits_nop (.cons (emits_spaceOf (by omega)) (.cons emits_here
            (.cons emits_alignTo16 (.cons emits_cmp (.cons hje .nil))))))
          (by simp [Sema.labelNames])
          (by simp) rfl
          (miss_symbol_padding hx (by omega) (by omega))
  | literal d =>
    have hmultiple : d.toInt % 8 = 0 := h.2
    by_cases hzero : d.toInt = 0
    · rw [Int64.toInt_inj.mp (show d.toInt = (0 : Int64).toInt from hzero)]
      exact not_safe_zero oob
    have hminus : d.toInt ≠ -8 := by
      intro hminus
      refine hnot (Or.inr ?_)
      rw [Int64.toInt_inj.mp (show d.toInt = (-8 : Int64).toInt from hminus)]
    have hlt := d.toInt_lt
    have hle := d.le_toInt
    by_cases hforward : 8 ≤ d.toInt
    · obtain ⟨x, hx⟩ : ∃ x : ℕ, d.toInt = x + 8 := ⟨(d.toInt - 8).toNat, by omega⟩
      exact not_safe_of_items
        (.cons hje (.cons emits_nop (.cons (emits_spaceOf (by omega)) (.cons emits_cmp .nil))))
        (by simp [Sema.labelNames])
        (by simp) rfl
        (miss_literal_forward hx)
    · obtain ⟨x, hx⟩ : ∃ x : ℕ, d.toInt = -(x + 16 : ℤ) := ⟨(-d.toInt - 16).toNat, by omega⟩
      exact not_safe_of_items
        (.cons emits_nop (.cons (emits_spaceOf (by omega)) (.cons hje .nil)))
        (by simp [Sema.labelNames])
        (by simp) rfl
        (miss_literal_backward hx)

/-- `JE 8` over a `NOP`. -/
def overNop : List Item := [je (.literal 8), nop, spaceOf 0, cmp]

end Optimizer
end MiniTool
