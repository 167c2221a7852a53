import MiniToolchain.Optimizer.Edits

/-!
# What optimised code consists of

The passes make two new instructions: a `MOV` of a `PUSH` and a `POP`, and a `MOVI` of what has been
folded. What holds of all instructions and of these two holds of all instructions after any number
of passes.

## Main definitions

* `Closed` — the property holds of what the passes make.

## Main results

* `Closed.instructions_run` — and so of the optimised module.
-/

namespace MiniTool
namespace Optimizer

open Ir

/-- The `MOV` that a `PUSH` and a `POP` become. -/
def toMov (first second : Instruction) : Instruction :=
  { first with
    machine := { first.machine with
      opcode := .MOV, dst := second.machine.dst, src := first.machine.dst } }

/-- The property holds of what the passes make. -/
structure Closed (q : Instruction → Prop) : Prop where
  move : ∀ {i j}, q i → q j → i.machine.opcode = .PUSH → j.machine.opcode = .POP → q (toMov i j)
  value : ∀ {i value}, q i → i.isSymbolic = false →
    ByteOrder.fitsSigned value.toInt64 Isa.kImmediateBits = true → q (toMovi i value)

/-- The property holds of the instructions among the slots, removed or not. -/
def Throughout (q : Instruction → Prop) (slots : List Slot) : Prop :=
  ∀ slot ∈ slots, ∀ i, slot.item = .instruction i → q i

section

variable {q : Instruction → Prop}

theorem Throughout.cons {slot : Slot} {slots : List Slot}
    (hslot : ∀ i, slot.item = .instruction i → q i) (h : Throughout q slots) :
    Throughout q (slot :: slots) := List.forall_mem_cons.mpr ⟨hslot, h⟩

/-- Changing one slot. -/
theorem Throughout.modify {slots : List Slot} (h : Throughout q slots) {k : ℕ} {f : Slot → Slot}
    (hone : ∀ slot, slots[k]? = some slot → ∀ i, (f slot).item = .instruction i → q i) :
    Throughout q (slots.modify k f) := by
  intro slot hslot i hi
  obtain ⟨j, hj⟩ := List.mem_iff_getElem?.mp hslot
  rw [List.getElem?_modify] at hj
  obtain ⟨old, hold, rfl⟩ := Option.map_eq_some_iff.mp hj
  split_ifs at hi with heq
  · subst heq
    exact hone old hold i hi
  · exact h old (List.mem_of_getElem? hold) i hi

/-! ### Passes that only mark -/

theorem Throughout.unreachable {slots : List Slot} (h : Throughout q slots) (reachable : Bool)
    (stats : OptStats) (changed : Bool) :
    Throughout q (Optimizer.unreachable reachable stats changed slots).slots := by
  induction slots generalizing reachable stats changed with
  | nil => exact fun slot hslot => absurd hslot List.not_mem_nil
  | cons slot rest ih =>
    obtain ⟨hslot, hrest⟩ := List.forall_mem_cons.mp h
    unfold Optimizer.unreachable
    dsimp only
    split
    · exact .cons hslot (ih hrest _ _ _)
    · split_ifs
      · exact .cons hslot (ih hrest _ _ _)
      · exact .cons hslot (ih hrest _ _ _)
    · exact .cons hslot (ih hrest _ _ _)

theorem Throughout.jumpToNext {slots : List Slot} (h : Throughout q slots) (stats : OptStats)
    (changed : Bool) : Throughout q (Optimizer.jumpToNext stats changed slots).slots := by
  induction slots generalizing stats changed with
  | nil => exact fun slot hslot => absurd hslot List.not_mem_nil
  | cons slot rest ih =>
    obtain ⟨hslot, hrest⟩ := List.forall_mem_cons.mp h
    unfold Optimizer.jumpToNext
    dsimp only
    split_ifs
    · exact .cons hslot (ih hrest _ _)
    · exact .cons hslot (ih hrest _ _)

theorem Throughout.removeAt {w : Work} (h : Throughout q w.slots) (k : ℕ) (stats : OptStats) :
    Throughout q (w.removeAt k stats).slots :=
  h.modify fun slot hslot => h slot (List.mem_of_getElem? hslot)

theorem Throughout.forBlocks {flow : ControlFlow} {step : Block → Work → ℕ → Work}
    (hstep : ∀ block w k, Throughout q w.slots → Throughout q (step block w k).slots) {w : Work}
    (h : Throughout q w.slots) : Throughout q (Optimizer.forBlocks flow step w).slots := by
  unfold Optimizer.forBlocks
  refine List.foldlRecOn (motive := fun w : Work => Throughout q w.slots) _ _ h ?_
  intro w hw block _
  exact List.foldlRecOn (motive := fun w : Work => Throughout q w.slots) _ _ hw
    fun w hw k _ => hstep block w k hw

/-! ### Passes that rewrite -/

namespace Closed

theorem peephole (h : Closed q) {slots : List Slot} (hslots : Throughout q slots) (stats : OptStats)
    (changed : Bool) : Throughout q (Optimizer.peephole stats changed slots).slots := by
  induction stats, changed, slots using Optimizer.peephole.induct with
  | case1 stats changed => exact hslots
  | case2 stats changed slot => exact hslots
  | case3 stats changed a b rest first second hsecond hfirst hop hsame ih =>
    obtain ⟨ha, hrest⟩ := List.forall_mem_cons.mp hslots
    obtain ⟨hb, hrest⟩ := List.forall_mem_cons.mp hrest
    rw [Optimizer.peephole, hfirst, hsecond]
    simp only [hop, hsame, and_self, if_true]
    exact .cons ha (.cons hb (ih hrest))
  | case4 stats changed a b rest first second hsecond hfirst hop hdiff ih =>
    obtain ⟨ha, hrest⟩ := List.forall_mem_cons.mp hslots
    obtain ⟨hb, hrest⟩ := List.forall_mem_cons.mp hrest
    have hmove : q (toMov first second) :=
      h.move (ha first (Slot.live?_eq_some hfirst).2) (hb second (Slot.live?_eq_some hsecond).2)
        hop.1 hop.2
    rw [Optimizer.peephole, hfirst, hsecond]
    simp only [hop, hdiff, and_self, if_true, if_false]
    refine .cons ?_ (.cons hb (ih hrest))
    intro i hi
    cases hi
    exact hmove
  | case5 stats changed a b rest first second hsecond hfirst hop ih =>
    obtain ⟨ha, hrest⟩ := List.forall_mem_cons.mp hslots
    rw [Optimizer.peephole, hfirst, hsecond]
    simp only [hop, if_false]
    exact .cons ha (ih hrest)
  | case6 stats changed a b rest hnot ih =>
    obtain ⟨ha, hrest⟩ := List.forall_mem_cons.mp hslots
    rw [Optimizer.peephole]
    split
    · next first second hfirst hsecond =>
      exact absurd hsecond fun hsecond => hnot first second hfirst hsecond
    · exact .cons ha (ih hrest)

theorem foldConstant (h : Closed q) (flow : ControlFlow) (blockIndex : ℕ)
    {state : ConstantMap × Work} (hslots : Throughout q state.2.slots) (k : ℕ) :
    Throughout q (Optimizer.foldConstant flow blockIndex state k).2.slots := by
  unfold Optimizer.foldConstant
  dsimp only
  cases hslot : state.2.slots[k]?.bind Slot.live? with
  | none => exact hslots
  | some instruction =>
    dsimp only
    split
    · exact hslots
    · next constants folded hfold =>
      obtain ⟨hsymbolic, -, value, rfl, hfits⟩ := foldInstruction_eq_some hfold
      apply hslots.modify
      intro slot hget i hi
      rw [hget, Option.bind_some] at hslot
      cases hi
      exact h.value (hslots slot (List.mem_of_getElem? hget) _ (Slot.live?_eq_some hslot).2)
        hsymbolic hfits

theorem foldConstants (h : Closed q) (flow : ControlFlow) {w : Work}
    (hslots : Throughout q w.slots) : Throughout q (Optimizer.foldConstants flow w).slots := by
  unfold Optimizer.foldConstants
  refine List.foldlRecOn (motive := fun w : Work => Throughout q w.slots) _ _ hslots ?_
  intro w hw block _
  exact List.foldlRecOn (motive := fun state : ConstantMap × Work => Throughout q state.2.slots) _ _
    hw fun state hstate k _ => h.foldConstant flow block.2 hstate k

/-! ### All passes -/

theorem markPasses (h : Closed q) (oob : Bool) {items : List Item} (stats : OptStats)
    (hitems : ∀ i, .instruction i ∈ items → q i) :
    Throughout q (Optimizer.markPasses oob items stats).slots := by
  have hfresh : Throughout q (items.map fresh) := by
    intro slot hslot i hi
    obtain ⟨item, hitem, rfl⟩ := List.mem_map.mp hslot
    cases hi
    exact hitems i hitem
  have hlocal : Throughout q (Optimizer.markLocal items stats).slots :=
    (h.peephole (hfresh.unreachable true stats false) _ _).jumpToNext _ _
  unfold Optimizer.markPasses Optimizer.markBlocks
  refine Throughout.forBlocks ?_ (Throughout.forBlocks ?_ (h.foldConstants _ hlocal))
  · intro block w k hw
    unfold Optimizer.eliminateDeadStore
    dsimp only
    split_ifs
    · exact hw.removeAt _ _
    · exact hw
  · intro block w k hw
    unfold Optimizer.eliminateIdentity
    split_ifs
    · exact hw.removeAt _ _
    · exact hw

theorem runPasses (h : Closed q) (oob : Bool) {items : List Item} (stats : OptStats)
    (hitems : ∀ i, .instruction i ∈ items → q i) :
    ∀ i, .instruction i ∈ (Optimizer.runPasses oob items stats).1 → q i := by
  have hmarked := h.markPasses oob stats hitems
  unfold Optimizer.runPasses
  dsimp only
  intro i hi
  split_ifs at hi
  · obtain ⟨slot, hslot, hitem⟩ := List.mem_map.mp hi
    exact hmarked slot (List.mem_filter.mp hslot).1 i hitem
  · obtain ⟨slot, hslot, hitem⟩ := List.mem_map.mp hi
    exact hmarked slot hslot i hitem

theorem optimizeItems (h : Closed q) (oob : ℕ → Bool) (n : ℕ) {items : List Item} (stats : OptStats)
    (hitems : ∀ i, .instruction i ∈ items → q i) :
    ∀ i, .instruction i ∈ (Optimizer.optimizeItems oob n items stats).1 → q i := by
  induction n generalizing items stats with
  | zero => exact hitems
  | succ n ih =>
    have hone := h.runPasses (oob n) stats hitems
    unfold Optimizer.optimizeItems
    dsimp only
    split_ifs
    · exact ih _ hone
    · exact hone

theorem optimizeSections (h : Closed q) (oob : ℕ → Bool) {sections : List Section}
    (stats : OptStats) (hsections : ∀ s ∈ sections, ∀ i, .instruction i ∈ s.items → q i) :
    ∀ s ∈ (Optimizer.optimizeSections oob stats sections).1, ∀ i,
      .instruction i ∈ s.items → q i := by
  induction sections generalizing stats with
  | nil => exact hsections
  | cons s sections ih =>
    obtain ⟨hs, hrest⟩ := List.forall_mem_cons.mp hsections
    unfold Optimizer.optimizeSections
    split_ifs
    · exact List.forall_mem_cons.mpr
        ⟨h.optimizeItems oob kMaxIterations stats hs, ih _ hrest⟩
    · exact List.forall_mem_cons.mpr ⟨hs, ih _ hrest⟩

/-- **The instructions of an optimised module.** -/
theorem instructions_run (h : Closed q) (oob : ℕ → Bool) (level : OptLevel) {m : Module}
    (hm : ∀ s ∈ m.sections, ∀ i, .instruction i ∈ s.items → q i) :
    ∀ s ∈ (run oob level m).1.sections, ∀ i, .instruction i ∈ s.items → q i := by
  unfold run
  dsimp only
  split_ifs
  · exact h.optimizeSections oob _ hm
  · exact hm

end Closed

end

end Optimizer
end MiniTool
