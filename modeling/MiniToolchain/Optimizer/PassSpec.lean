import MiniToolchain.Optimizer.Survivors

/-!
# The passes over blocks, position by position

The blocks of a section cover each of its items but the labels, so a pass over the positions of
every block visits every instruction.

## Main results

* `mem_positions` — which positions a pass over the blocks visits.
* `slots_eliminateIdentities` — an identity is marked, and nothing else.
* `markBlocks_eq_self` — the passes over the blocks leave alone what none of them looks for.
-/

namespace MiniTool
namespace Optimizer

open Ir

/-! ### The blocks of the graph -/

theorem controlFlow_blocks (oob : Bool) (items : List Item) :
    (controlFlow oob items).blocks.map (fun b => (b.begin, b.stop)) =
      (splitBlocks items).blocks.map fun b => (b.begin, b.stop) := by
  unfold controlFlow computeFlagLiveness linkSuccessors
  apply List.ext_getElem (by simp)
  intro k hk _
  simp only [List.getElem_map, List.getElem_mapIdx]
  exact Prod.ext (linkBlock_begin_stop ..).1 (linkBlock_begin_stop ..).2

/-- Every position a pass over the blocks visits. -/
def ControlFlow.positions (flow : ControlFlow) : List ℕ := flow.blocks.flatMap Block.positions

theorem Block.mem_positions {b : Block} (h : b.begin ≤ b.stop) {i : ℕ} :
    i ∈ b.positions ↔ b.begin ≤ i ∧ i < b.stop := by
  unfold Block.positions
  rw [List.mem_range'_1]
  omega

/-- A pass over the blocks visits each item that is not a label. -/
theorem mem_positions {oob : Bool} {items : List Item} {i : ℕ} (hi : i < items.length)
    (hl : ¬IsLabelAt items i) : i ∈ (controlFlow oob items).positions := by
  obtain ⟨k, b, hb, hbegin, hstop⟩ := (splitBlocks_partition items).exists_block hi hl
  have hpair : (b.begin, b.stop) ∈
      (controlFlow oob items).blocks.map fun b => (b.begin, b.stop) := by
    rw [controlFlow_blocks]
    exact List.mem_map_of_mem (f := fun b : Block => (b.begin, b.stop)) (List.mem_of_getElem? hb)
  obtain ⟨b', hb', heq⟩ := List.mem_map.mp hpair
  rw [Prod.mk.injEq] at heq
  refine List.mem_flatMap.mpr ⟨b', hb', (Block.mem_positions (by omega)).mpr ?_⟩
  omega

theorem forBlocks_eq (flow : ControlFlow) (step : Work → ℕ → Work) (w : Work) :
    forBlocks flow (fun _ => step) w = flow.positions.foldl step w := by
  unfold forBlocks ControlFlow.positions
  rw [List.foldl_flatMap]

/-! ### Identities -/

/-- The slot holds an identity that is not yet removed. -/
def Slot.isIdentity (slot : Slot) : Bool := slot.live?.any Optimizer.isIdentity

theorem eliminateIdentity_eq (w : Work) (i : ℕ) : eliminateIdentity w i =
    if (w.slots[i]?).any Slot.isIdentity then
      w.removeAt i { w.stats with identitiesEliminated := w.stats.identitiesEliminated + 1 }
    else w := by
  unfold eliminateIdentity Slot.isIdentity
  cases w.slots[i]? <;> rfl

theorem foldl_eliminateIdentity (positions : List ℕ) (w : Work) :
    (positions.foldl eliminateIdentity w).slots = (w.slots.mapIdx fun i slot =>
        if i ∈ positions ∧ slot.isIdentity = true then { slot with remove := true } else slot) ∧
      ((positions.foldl eliminateIdentity w).changed = true ↔ w.changed = true ∨
        ∃ i ∈ positions, (w.slots[i]?).any Slot.isIdentity = true) := by
  induction positions generalizing w with
  | nil =>
    refine ⟨List.ext_getElem? fun i => ?_, by simp⟩
    simp [List.getElem?_mapIdx]
  | cons j positions ih =>
    rw [List.foldl_cons, eliminateIdentity_eq]
    by_cases hj : (w.slots[j]?).any Slot.isIdentity = true
    · rw [if_pos hj]
      obtain ⟨hslots, hchanged⟩ := ih (w.removeAt j
        { w.stats with identitiesEliminated := w.stats.identitiesEliminated + 1 })
      constructor
      · rw [hslots]
        apply List.ext_getElem?
        intro i
        simp only [Work.removeAt, List.getElem?_mapIdx, List.getElem?_modify]
        cases hslot : w.slots[i]? with
        | none => rfl
        | some slot =>
          by_cases hij : j = i
          · subst hij
            rw [hslot] at hj
            simp only [Option.any_some] at hj
            have hgone : Slot.isIdentity { slot with remove := true } = false := rfl
            simp [hj, hgone]
          · have hij' : ¬i = j := fun h => hij h.symm
            simp [hij, hij']
      · exact ⟨fun _ => Or.inr ⟨j, List.mem_cons_self, hj⟩, fun _ => hchanged.mpr (Or.inl rfl)⟩
    · rw [if_neg hj]
      obtain ⟨hslots, hchanged⟩ := ih w
      constructor
      · rw [hslots]
        apply List.ext_getElem?
        intro i
        simp only [List.getElem?_mapIdx]
        cases hslot : w.slots[i]? with
        | none => rfl
        | some slot =>
          by_cases hij : i = j
          · subst hij
            rw [hslot] at hj
            simp only [Option.any_some, Bool.not_eq_true] at hj
            simp [hj]
          · simp [hij]
      · rw [hchanged]
        simp [hj]

/-- A label is not an identity. -/
theorem not_isIdentity_of_label {slot : Slot} (h : slot.item.isInstruction = false) :
    slot.isIdentity = false := by
  unfold Slot.isIdentity Slot.live?
  split_ifs
  · rfl
  · cases hitem : slot.item with
    | instruction i =>
      rw [hitem] at h
      cases h
    | _ => rfl

/-- The pass marks each identity, and nothing else. -/
theorem slots_eliminateIdentities {oob : Bool} {w : Work} {items : List Item}
    (hitems : ∀ i : ℕ, (w.slots[i]?).map (fun slot : Slot => slot.item.isLabel) =
      (items[i]?).map Item.isLabel) :
    (forBlocks (controlFlow oob items) (fun _ => eliminateIdentity) w).slots =
      (w.slots.map fun slot =>
        if slot.isIdentity = true then { slot with remove := true } else slot) ∧
    ((forBlocks (controlFlow oob items) (fun _ => eliminateIdentity) w).changed = true ↔
      w.changed = true ∨ ∃ slot ∈ w.slots, slot.isIdentity = true) := by
  have hvisited : ∀ i slot, w.slots[i]? = some slot → slot.isIdentity = true →
      i ∈ (controlFlow oob items).positions := by
    intro i slot hslot hid
    have hi := hitems i
    rw [hslot] at hi
    cases hitem : items[i]? with
    | none =>
      rw [hitem] at hi
      cases hi
    | some item =>
      rw [hitem, Option.map_some, Option.map_some, Option.some.injEq] at hi
      apply mem_positions (List.getElem?_eq_some_iff.mp hitem).1
      rintro ⟨l, hl⟩
      rw [hitem, Option.some.injEq] at hl
      rw [hl] at hi
      have hnot : slot.item.isInstruction = false := by
        cases hslotItem : slot.item with
        | instruction j =>
          rw [hslotItem] at hi
          cases hi
        | _ => rfl
      rw [not_isIdentity_of_label hnot] at hid
      cases hid
  rw [forBlocks_eq]
  obtain ⟨hslots, hchanged⟩ := foldl_eliminateIdentity (controlFlow oob items).positions w
  constructor
  · rw [hslots]
    apply List.ext_getElem?
    intro i
    rw [List.getElem?_mapIdx, List.getElem?_map]
    cases hslot : w.slots[i]? with
    | none => rfl
    | some slot =>
      by_cases hid : slot.isIdentity = true
      · simp [hid, hvisited i slot hslot hid]
      · simp [hid]
  · rw [hchanged]
    constructor
    · rintro (h | ⟨i, hi, hany⟩)
      · exact Or.inl h
      · obtain ⟨slot, hslot, hid⟩ := (Option.any_eq_true _ _).mp hany
        exact Or.inr ⟨slot, List.mem_of_getElem? hslot, hid⟩
    · rintro (h | ⟨slot, hslot, hid⟩)
      · exact Or.inl h
      · obtain ⟨i, hi, rfl⟩ := List.mem_iff_getElem.mp hslot
        have hget := List.getElem?_eq_getElem hi
        exact Or.inr ⟨i, hvisited i _ hget hid, by rw [hget]; exact hid⟩

/-! ### What the passes do not look for -/

/-- No live instruction of the slots is one of these. -/
def NoneLive (p : Instruction → Prop) (slots : List Slot) : Prop :=
  ∀ slot ∈ slots, ∀ instruction, slot.live? = some instruction → ¬p instruction

theorem NoneLive.tail {p : Instruction → Prop} {slot : Slot} {rest : List Slot}
    (h : NoneLive p (slot :: rest)) : NoneLive p rest := by
  intro other hother
  exact h other (List.mem_cons_of_mem slot hother)

/-- The live instruction at a position. -/
theorem NoneLive.at {p : Instruction → Prop} {slots : List Slot} (h : NoneLive p slots) {i : ℕ}
    {instruction : Instruction} (hi : slots[i]?.bind Slot.live? = some instruction) :
    ¬p instruction := by
  obtain ⟨slot, hslot, hlive⟩ := Option.bind_eq_some_iff.mp hi
  exact h slot (List.mem_of_getElem? hslot) instruction hlive

/-- A section without jumps keeps them. -/
theorem jumpToNext_eq_self {slots : List Slot}
    (h : NoneLive (fun instruction => instruction.machine.opcode = .JMP) slots) (stats : OptStats)
    (changed : Bool) : jumpToNext stats changed slots = { slots, stats, changed } := by
  induction slots with
  | nil => rfl
  | cons slot rest ih =>
    have hnot : (slot.live?.any fun instruction =>
        instruction.machine.opcode = .JMP &&
          instruction.symbol.any fun reference =>
            reference.addend = 0 && leadsTo reference.name rest) = false := by
      cases hlive : slot.live? with
      | none => rfl
      | some instruction =>
        have hop := h slot List.mem_cons_self instruction hlive
        simp [hop]
    rw [jumpToNext, hnot, ih h.tail]
    rfl

/-- Starting from nothing known, constant folding learns nothing from the instruction. -/
def Unfoldable (instruction : Instruction) : Prop :=
  ∀ flagsDead, foldInstruction flagsDead ConstantMap.empty instruction = (ConstantMap.empty, none)

theorem foldConstants_eq_self (flow : ControlFlow) {w : Work}
    (h : NoneLive (fun instruction => ¬Unfoldable instruction) w.slots) :
    foldConstants flow w = w := by
  have hstep : ∀ k i : ℕ, foldConstant flow k (ConstantMap.empty, w) i =
      (ConstantMap.empty, w) := by
    intro k i
    unfold foldConstant
    dsimp only
    cases hslot : w.slots[i]?.bind Slot.live? with
    | none => rfl
    | some instruction =>
      have hfold := not_not.mp (h.at hslot) (flow.flagsDeadAfter k i)
      dsimp only
      rw [hfold]
  have hblock : ∀ k block, foldBlock flow k block w = w := by
    intro k block
    have hall : ∀ positions : List ℕ,
        positions.foldl (foldConstant flow k) (ConstantMap.empty, w) = (ConstantMap.empty, w) := by
      intro positions
      induction positions with
      | nil => rfl
      | cons i positions ih => rw [List.foldl_cons, hstep, ih]
    unfold foldBlock
    rw [hall]
  unfold foldConstants
  induction flow.blocks.zipIdx with
  | nil => rfl
  | cons block blocks ih =>
    obtain ⟨block, k⟩ := block
    rw [List.foldl_cons]
    dsimp only
    rw [hblock, ih]

/-- A pass over the blocks that does nothing at any position does nothing. -/
theorem forBlocks_eq_self {flow : ControlFlow} {step : Block → Work → ℕ → Work} {w : Work}
    (h : ∀ block i, step block w i = w) : forBlocks flow step w = w := by
  have hblock : ∀ block (positions : List ℕ), positions.foldl (step block) w = w := by
    intro block positions
    induction positions with
    | nil => rfl
    | cons i positions ih => rw [List.foldl_cons, h, ih]
  unfold forBlocks
  induction flow.blocks with
  | nil => rfl
  | cons block blocks ih => rw [List.foldl_cons, hblock, ih]

theorem deadStores_eq_self (flow : ControlFlow) {w : Work}
    (h : NoneLive (fun instruction => pureDefine instruction.machine = true) w.slots) :
    forBlocks flow eliminateDeadStore w = w := by
  refine forBlocks_eq_self fun block i => ?_
  unfold eliminateDeadStore
  dsimp only
  rw [if_neg]
  intro hany
  obtain ⟨instruction, hslot, hdead⟩ := (Option.any_eq_true _ _).mp hany
  exact h.at hslot ((Bool.and_eq_true _ _).mp hdead).1

theorem identities_eq_self (flow : ControlFlow) {w : Work}
    (h : NoneLive (fun instruction => isIdentity instruction = true) w.slots) :
    forBlocks flow (fun _ => eliminateIdentity) w = w := by
  refine forBlocks_eq_self fun _ i => ?_
  unfold eliminateIdentity
  rw [if_neg]
  intro hany
  obtain ⟨instruction, hslot, hid⟩ := (Option.any_eq_true _ _).mp hany
  exact h.at hslot hid

/-- The passes over the blocks leave alone what none of them looks for. -/
theorem markBlocks_eq_self (flow : ControlFlow) {w : Work}
    (hfold : NoneLive (fun instruction => ¬Unfoldable instruction) w.slots)
    (hid : NoneLive (fun instruction => isIdentity instruction = true) w.slots)
    (hdead : NoneLive (fun instruction => pureDefine instruction.machine = true) w.slots) :
    markBlocks flow w = w := by
  unfold markBlocks
  dsimp only
  rw [foldConstants_eq_self flow hfold, identities_eq_self flow hid, deadStores_eq_self flow hdead]

end Optimizer
end MiniTool
