import MiniToolchain.Optimizer.Passes

/-!
# What the passes do to a slot

The passes differ in what they look for and agree in what they do: they mark an instruction, or
rewrite one that is not a branch into a move.  A relation that allows this relates each slot to what
a pass makes of it.

## Main definitions

* `Editing` — the relation allows what the passes do to instructions that are not branches.
* `Marking` — it allows marking any instruction, too.

## Main results

* `Editing.peephole`, `Editing.markBlocks` — the passes that never mark a branch.
* `Marking.markPasses` — all of them.
-/

namespace MiniTool
namespace Optimizer

open Ir

/-- The instruction transfers control. -/
def isBranch (opcode : Isa.Opcode) : Bool := (Isa.findOpcode opcode).any (·.isBranch)

/-- The relation allows marking an instruction that is not a branch, and making a move of it. -/
structure Editing (r : Slot → Slot → Prop) : Prop where
  refl : ∀ a, r a a
  trans : ∀ {a b c}, r a b → r b c → r a c
  remove : ∀ {a i}, a.live? = some i → isBranch i.machine.opcode = false →
    r a { a with remove := true }
  rewrite : ∀ {a i j}, a.live? = some i → isBranch i.machine.opcode = false →
    (j.machine.opcode = .MOV ∨ j.machine.opcode = .MOVI) → j.location = i.location →
    r a { a with item := .instruction j }

/-- The relation allows marking branches, too. -/
structure Marking (r : Slot → Slot → Prop) : Prop extends Editing r where
  mark : ∀ {a i}, a.item = .instruction i → r a { a with remove := true }

theorem exists_related {r : Slot → Slot → Prop} {as bs : List Slot}
    (h : List.Forall₂ r as bs) {k : ℕ} {a : Slot} (ha : as[k]? = some a) :
    ∃ b, bs[k]? = some b ∧ r a b := by
  obtain ⟨hk, rfl⟩ := List.getElem?_eq_some_iff.mp ha
  have hlength := h.length_eq
  exact ⟨bs[k], List.getElem?_eq_getElem (by omega), h.get hk (by omega)⟩

/-! ### Instructions -/

theorem Slot.live?_eq_some {slot : Slot} {instruction : Instruction}
    (h : slot.live? = some instruction) :
    slot.remove = false ∧ slot.item = .instruction instruction := by
  unfold Slot.live? at h
  split_ifs at h with hremove
  refine ⟨by simpa using hremove, ?_⟩
  split at h
  · next i hi =>
    cases h
    exact hi
  · cases h

theorem isInstruction_of_live? {slot : Slot} {instruction : Instruction}
    (h : slot.live? = some instruction) : slot.item.isInstruction = true := by
  rw [(Slot.live?_eq_some h).2]
  rfl

/-- Only a move or an arithmetic instruction is folded, into a `MOVI`. -/
theorem foldInstruction_eq_some {flagsDead : Bool} {constants constants' : ConstantMap}
    {instruction folded : Instruction}
    (h : foldInstruction flagsDead constants instruction = (constants', some folded)) :
    instruction.isSymbolic = false ∧
      (instruction.machine.opcode = .MOV ∨ Isa.isBinaryAlu instruction.machine.opcode = true ∨
        Isa.isUnaryAlu instruction.machine.opcode = true) ∧
      ∃ value, folded = toMovi instruction value ∧
        ByteOrder.fitsSigned value.toInt64 Isa.kImmediateBits = true := by
  unfold foldInstruction at h
  dsimp only at h
  by_cases hsymbolic : instruction.isSymbolic = true
  · simp [hsymbolic] at h
  by_cases hmovi : instruction.machine.opcode = .MOVI ∨ instruction.machine.opcode = .LEA
  · simp [hsymbolic, hmovi] at h
  refine ⟨by simpa using hsymbolic, ?_⟩
  by_cases hmov : instruction.machine.opcode = .MOV
  · refine ⟨Or.inl hmov, ?_⟩
    rw [if_neg hsymbolic, if_neg hmovi, if_pos hmov] at h
    split at h
    · next value _ =>
      have hsnd := congrArg Prod.snd h
      dsimp only at hsnd
      split_ifs at hsnd with hfits
      exact ⟨value, (Option.some.inj hsnd).symm, hfits⟩
    · cases h
  · rw [if_neg hsymbolic, if_neg hmovi, if_neg hmov] at h
    by_cases halu : (!Isa.isBinaryAlu instruction.machine.opcode &&
        !Isa.isUnaryAlu instruction.machine.opcode) = true
    · rw [if_pos halu] at h
      cases h
    · rw [if_neg halu] at h
      refine ⟨Or.inr (by simpa [or_iff_not_imp_left] using halu), ?_⟩
      split at h
      · split at h
        · cases h
        · next evaluated _ =>
          have hsnd := congrArg Prod.snd h
          split_ifs at hsnd with hwrites hfits
          exact ⟨evaluated.value, (Option.some.inj hsnd).symm, ((Bool.and_eq_true _ _).mp hfits).2⟩
      · cases h

theorem not_isBranch_of_alu {opcode : Isa.Opcode}
    (h : opcode = .MOV ∨ Isa.isBinaryAlu opcode = true ∨ Isa.isUnaryAlu opcode = true) :
    isBranch opcode = false := by
  cases opcode <;>
    first
    | rfl
    | simp [Isa.isBinaryAlu, Isa.isUnaryAlu] at h

theorem not_isBranch_of_isIdentity {instruction : Instruction} (h : isIdentity instruction = true) :
    isBranch instruction.machine.opcode = false := by
  have hopcode : instruction.machine.opcode = .MOV ∨ instruction.machine.opcode = .NOP := by
    unfold isIdentity at h
    simp only [Bool.and_eq_true, Bool.or_eq_true, decide_eq_true_eq] at h
    exact h.2.imp And.left id
  rcases hopcode with hopcode | hopcode
  · rw [hopcode]
    rfl
  · rw [hopcode]
    rfl

theorem not_isBranch_of_pureDefine {machine : Isa.Instruction} (h : pureDefine machine = true) :
    isBranch machine.opcode = false := by
  obtain ⟨info, -, hpure⟩ := (Option.any_eq_true _ _).mp h
  simp only [Bool.and_eq_true, Bool.or_eq_true, decide_eq_true_eq] at hpure
  rcases hpure.2 with (hopcode | hopcode) | hopcode
  · rw [hopcode]
    rfl
  · rw [hopcode]
    rfl
  · rw [hopcode]
    rfl

/-! ### Passes that never mark a branch -/

namespace Editing

variable {r : Slot → Slot → Prop}

theorem all_refl (h : Editing r) (slots : List Slot) : List.Forall₂ r slots slots :=
  List.forall₂_same.mpr fun a _ => h.refl a

theorem all_trans (h : Editing r) {as bs cs : List Slot} (hab : List.Forall₂ r as bs)
    (hbc : List.Forall₂ r bs cs) : List.Forall₂ r as cs := by
  induction hab generalizing cs with
  | nil =>
    cases hbc
    exact .nil
  | cons hone _ ih =>
    cases hbc with
    | cons hnext hrest => exact .cons (h.trans hone hnext) (ih hrest)

/-- Changing one slot. -/
theorem modify (h : Editing r) {slots : List Slot} {i : ℕ} {f : Slot → Slot}
    (hone : ∀ slot, slots[i]? = some slot → r slot (f slot)) :
    List.Forall₂ r slots (slots.modify i f) := by
  induction slots generalizing i with
  | nil =>
    rw [List.modify_nil]
    exact .nil
  | cons slot rest ih =>
    cases i with
    | zero => exact .cons (hone slot rfl) (h.all_refl rest)
    | succ i => exact .cons (h.refl slot) (ih fun s hs => hone s hs)

/-- A loop over positions or blocks. -/
theorem foldl (h : Editing r) {α β : Type} {step : α → β → α} (slots : α → List Slot)
    (hstep : ∀ a b, List.Forall₂ r (slots a) (slots (step a b))) (a : α) (bs : List β) :
    List.Forall₂ r (slots a) (slots (bs.foldl step a)) := by
  induction bs generalizing a with
  | nil => exact h.all_refl _
  | cons b bs ih => exact h.all_trans (hstep a b) (ih _)

theorem peephole (h : Editing r) (stats : OptStats) (changed : Bool) (slots : List Slot) :
    List.Forall₂ r slots (Optimizer.peephole stats changed slots).slots := by
  induction stats, changed, slots using Optimizer.peephole.induct with
  | case1 stats changed => exact .nil
  | case2 stats changed slot => exact h.all_refl _
  | case3 stats changed a b rest first second hsecond hfirst hop hsame ih =>
    rw [Optimizer.peephole, hfirst, hsecond]
    simp only [hop, hsame, and_self, if_true]
    refine .cons (h.remove hfirst ?_) (.cons (h.remove hsecond ?_) ih)
    · rw [hop.1]
      rfl
    · rw [hop.2]
      rfl
  | case4 stats changed a b rest first second hsecond hfirst hop hdiff ih =>
    rw [Optimizer.peephole, hfirst, hsecond]
    simp only [hop, hdiff, and_self, if_true, if_false]
    refine .cons (h.rewrite hfirst ?_ (Or.inl rfl) rfl) (.cons (h.remove hsecond ?_) ih)
    · rw [hop.1]
      rfl
    · rw [hop.2]
      rfl
  | case5 stats changed a b rest first second hsecond hfirst hop ih =>
    rw [Optimizer.peephole, hfirst, hsecond]
    simp only [hop, if_false]
    exact .cons (h.refl a) ih
  | case6 stats changed a b rest hnot ih =>
    rw [Optimizer.peephole]
    split
    · next first second hfirst hsecond =>
      exact absurd hsecond fun hsecond => hnot first second hfirst hsecond
    · exact .cons (h.refl a) ih

theorem foldConstant (h : Editing r) (flow : ControlFlow) (blockIndex : ℕ)
    (state : ConstantMap × Work) (i : ℕ) :
    List.Forall₂ r state.2.slots (Optimizer.foldConstant flow blockIndex state i).2.slots := by
  unfold Optimizer.foldConstant
  dsimp only
  cases hslot : state.2.slots[i]?.bind Slot.live? with
  | none => exact h.all_refl _
  | some instruction =>
    dsimp only
    split
    · exact h.all_refl _
    · next constants folded hfold =>
      obtain ⟨-, halu, value, rfl, -⟩ := foldInstruction_eq_some hfold
      apply h.modify
      intro slot hget
      rw [hget, Option.bind_some] at hslot
      exact h.rewrite hslot (not_isBranch_of_alu halu) (Or.inr rfl) rfl

theorem foldConstants (h : Editing r) (flow : ControlFlow) (w : Work) :
    List.Forall₂ r w.slots (Optimizer.foldConstants flow w).slots := by
  refine h.foldl Work.slots (fun w block => ?_) w _
  exact h.foldl (fun state : ConstantMap × Work => state.2.slots)
    (fun state i => h.foldConstant flow block.2 state i) (ConstantMap.empty, w) _

theorem forBlocks (h : Editing r) (flow : ControlFlow) {step : Block → Work → ℕ → Work}
    (hstep : ∀ block w i, List.Forall₂ r w.slots (step block w i).slots) (w : Work) :
    List.Forall₂ r w.slots (Optimizer.forBlocks flow step w).slots :=
  h.foldl Work.slots (fun w block =>
    h.foldl Work.slots (fun w i => hstep block w i) w block.positions) w flow.blocks

theorem removeAt (h : Editing r) {w : Work} {i : ℕ} {instruction : Instruction}
    (hlive : (w.slots[i]?).bind Slot.live? = some instruction)
    (hbranch : isBranch instruction.machine.opcode = false) (stats : OptStats) :
    List.Forall₂ r w.slots (w.removeAt i stats).slots := by
  apply h.modify
  intro slot hget
  rw [hget, Option.bind_some] at hlive
  exact h.remove hlive hbranch

theorem eliminateIdentity (h : Editing r) (w : Work) (i : ℕ) :
    List.Forall₂ r w.slots (Optimizer.eliminateIdentity w i).slots := by
  unfold Optimizer.eliminateIdentity
  split_ifs with hany
  · obtain ⟨instruction, hlive, hidentity⟩ := (Option.any_eq_true _ _).mp hany
    exact h.removeAt hlive (not_isBranch_of_isIdentity hidentity) _
  · exact h.all_refl _

theorem eliminateDeadStore (h : Editing r) (block : Block) (w : Work) (i : ℕ) :
    List.Forall₂ r w.slots (Optimizer.eliminateDeadStore block w i).slots := by
  unfold Optimizer.eliminateDeadStore
  dsimp only
  split_ifs with hany
  · obtain ⟨instruction, hlive, hdead⟩ := (Option.any_eq_true _ _).mp hany
    exact h.removeAt hlive (not_isBranch_of_pureDefine ((Bool.and_eq_true _ _).mp hdead).1) _
  · exact h.all_refl _

theorem markBlocks (h : Editing r) (flow : ControlFlow) (w : Work) :
    List.Forall₂ r w.slots (Optimizer.markBlocks flow w).slots := by
  have hidentities := h.forBlocks flow (fun _ => h.eliminateIdentity)
    (Optimizer.foldConstants flow w)
  have hstores := h.forBlocks flow h.eliminateDeadStore
    (Optimizer.forBlocks flow (fun _ => Optimizer.eliminateIdentity)
      (Optimizer.foldConstants flow w))
  exact h.all_trans (h.all_trans (h.foldConstants flow w) hidentities) hstores

end Editing

/-! ### Passes that mark branches -/

namespace Marking

variable {r : Slot → Slot → Prop}

/-- Two relations at once. -/
theorem and {r' : Slot → Slot → Prop} (h : Marking r) (h' : Marking r') :
    Marking fun a b => r a b ∧ r' a b where
  refl a := ⟨h.refl a, h'.refl a⟩
  trans hab hbc := ⟨h.trans hab.1 hbc.1, h'.trans hab.2 hbc.2⟩
  remove hlive hnot := ⟨h.remove hlive hnot, h'.remove hlive hnot⟩
  rewrite hlive hnot hmove hlocation :=
    ⟨h.rewrite hlive hnot hmove hlocation, h'.rewrite hlive hnot hmove hlocation⟩
  mark hitem := ⟨h.mark hitem, h'.mark hitem⟩

theorem unreachable (h : Marking r) (reachable : Bool) (stats : OptStats) (changed : Bool)
    (slots : List Slot) :
    List.Forall₂ r slots (Optimizer.unreachable reachable stats changed slots).slots := by
  induction slots generalizing reachable stats changed with
  | nil => exact .nil
  | cons slot rest ih =>
    unfold Optimizer.unreachable
    dsimp only
    split
    · exact .cons (h.refl slot) (ih _ _ _)
    · next instruction hitem =>
      split_ifs
      · exact .cons (h.mark hitem) (ih _ _ _)
      · exact .cons (h.refl slot) (ih _ _ _)
    · exact .cons (h.refl slot) (ih _ _ _)

theorem jumpToNext (h : Marking r) (stats : OptStats) (changed : Bool) (slots : List Slot) :
    List.Forall₂ r slots (Optimizer.jumpToNext stats changed slots).slots := by
  induction slots generalizing stats changed with
  | nil => exact .nil
  | cons slot rest ih =>
    unfold Optimizer.jumpToNext
    dsimp only
    split_ifs with hgoes
    · obtain ⟨instruction, hlive, -⟩ := (Option.any_eq_true _ _).mp hgoes
      exact .cons (h.mark (Slot.live?_eq_some hlive).2) (ih _ _)
    · exact .cons (h.refl slot) (ih _ _)

theorem markLocal (h : Marking r) (items : List Item) (stats : OptStats) :
    List.Forall₂ r (items.map fresh) (Optimizer.markLocal items stats).slots :=
  h.all_trans (h.all_trans (h.unreachable true stats false _) (h.toEditing.peephole _ _ _))
    (h.jumpToNext _ _ _)

/-- **One run of the passes.** -/
theorem markPasses (h : Marking r) (oob : Bool) (items : List Item) (stats : OptStats) :
    List.Forall₂ r (items.map fresh) (Optimizer.markPasses oob items stats).slots :=
  h.all_trans (h.markLocal items stats) (h.toEditing.markBlocks _ _)

end Marking

end Optimizer
end MiniTool
