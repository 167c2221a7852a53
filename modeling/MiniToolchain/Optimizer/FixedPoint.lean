import MiniToolchain.Lib.Iteration
import MiniToolchain.Optimizer.Accounting
import MiniToolchain.Optimizer.Anchors

/-!
# The optimizer and its fixed point

A run of the passes that changes something leaves less to do, so the passes would end by themselves.
But each run may expose work for the next, and the optimizer gives up after eight: of pushes nested
in pushes, for one, each run removes the innermost only.

## Main definitions

* `next` — one run of the passes, as a step that finds something to change or does not.
* `Idempotent` — the optimizer finds nothing to change in what it has optimized.
* `nested` — pushes in pushes.

## Main results

* `idempotent_iff` — the optimizer is idempotent exactly where eight runs of the passes are enough.
* `idempotent_of_workLeft` — they are enough for eight changes, and of nested pushes for eight only.
* `chain_nested` — nested pushes take as many runs as they are deep.
-/

namespace MiniTool
namespace Optimizer

open Ir Ast Iteration

/-! ### The counts decide nothing -/

/-- The same slots, and the same word on whether anything changed. -/
structure Alike (w w' : Work) : Prop where
  slots : w.slots = w'.slots
  changed : w.changed = w'.changed

theorem Alike.cons {w w' : Work} (h : Alike w w') (slot : Slot) :
    Alike { w with slots := slot :: w.slots } { w' with slots := slot :: w'.slots } :=
  ⟨congrArg (slot :: ·) h.slots, h.changed⟩

theorem unreachable_alike (reachable changed : Bool) (stats stats' : OptStats) (slots : List Slot) :
    Alike (unreachable reachable stats changed slots)
      (unreachable reachable stats' changed slots) := by
  induction slots generalizing reachable stats stats' changed with
  | nil => exact ⟨rfl, rfl⟩
  | cons slot rest ih =>
    unfold unreachable
    dsimp only
    split
    · exact (ih true changed stats stats').cons slot
    · split_ifs
      · exact (ih false true _ _).cons _
      · exact (ih _ changed stats stats').cons slot
    · exact (ih reachable changed stats stats').cons slot

theorem peephole_alike (changed : Bool) (stats stats' : OptStats) (slots : List Slot) :
    Alike (peephole stats changed slots) (peephole stats' changed slots) := by
  induction stats, changed, slots using peephole.induct generalizing stats' with
  | case1 stats changed => exact ⟨rfl, rfl⟩
  | case2 stats changed slot => exact ⟨rfl, rfl⟩
  | case3 stats changed a b rest first second hsecond hfirst hpair hsame ih =>
    rw [peephole, peephole, hfirst, hsecond]
    dsimp only
    rw [if_pos hpair, if_pos hsame, if_pos hpair, if_pos hsame]
    exact ((ih _).cons _).cons _
  | case4 stats changed a b rest first second hsecond hfirst hpair hdifferent ih =>
    rw [peephole, peephole, hfirst, hsecond]
    dsimp only
    rw [if_pos hpair, if_neg hdifferent, if_pos hpair, if_neg hdifferent]
    exact ((ih _).cons _).cons _
  | case5 stats changed a b rest first second hsecond hfirst hpair ih =>
    rw [peephole, peephole, hfirst, hsecond]
    dsimp only
    rw [if_neg hpair, if_neg hpair]
    exact (ih _).cons a
  | case6 stats changed a b rest hnot ih =>
    rw [peephole, peephole]
    split
    · next first second hfirst hsecond => exact (hnot first second hfirst hsecond).elim
    · exact (ih _).cons a

theorem jumpToNext_alike (changed : Bool) (stats stats' : OptStats) (slots : List Slot) :
    Alike (jumpToNext stats changed slots) (jumpToNext stats' changed slots) := by
  induction slots generalizing stats stats' changed with
  | nil => exact ⟨rfl, rfl⟩
  | cons slot rest ih =>
    unfold jumpToNext
    dsimp only
    split_ifs
    · exact (ih true _ _).cons _
    · exact (ih changed stats stats').cons slot

theorem removeAt_alike {w w' : Work} (h : Alike w w') (i : ℕ) (stats stats' : OptStats) :
    Alike (w.removeAt i stats) (w'.removeAt i stats') := by
  refine ⟨?_, rfl⟩
  show w.slots.modify i _ = w'.slots.modify i _
  rw [h.slots]

theorem eliminateIdentity_alike {w w' : Work} (h : Alike w w') (i : ℕ) :
    Alike (eliminateIdentity w i) (eliminateIdentity w' i) := by
  unfold eliminateIdentity
  rw [h.slots]
  split_ifs
  · exact removeAt_alike h i _ _
  · exact h

theorem eliminateDeadStore_alike (block : Block) {w w' : Work} (h : Alike w w') (i : ℕ) :
    Alike (eliminateDeadStore block w i) (eliminateDeadStore block w' i) := by
  unfold eliminateDeadStore
  rw [h.slots]
  dsimp only
  split_ifs
  · exact removeAt_alike h i _ _
  · exact h

theorem foldConstant_alike (flow : ControlFlow) (blockIndex i : ℕ) (constants : ConstantMap)
    {w w' : Work} (h : Alike w w') :
    (foldConstant flow blockIndex (constants, w) i).1 =
        (foldConstant flow blockIndex (constants, w') i).1 ∧
      Alike (foldConstant flow blockIndex (constants, w) i).2
        (foldConstant flow blockIndex (constants, w') i).2 := by
  unfold foldConstant
  dsimp only
  rw [h.slots]
  split
  · exact ⟨rfl, h⟩
  · split
    · exact ⟨rfl, h⟩
    · exact ⟨rfl, rfl, rfl⟩

theorem markBlocks_alike (flow : ControlFlow) {w w' : Work} (h : Alike w w') :
    Alike (markBlocks flow w) (markBlocks flow w') := by
  have hfold : Alike (foldConstants flow w) (foldConstants flow w') := by
    refine List.foldl_rel h fun block _ w w' h => ?_
    have hblock := List.foldl_rel (l := block.1.positions)
      (r := fun s s' : ConstantMap × Work => s.1 = s'.1 ∧ Alike s.2 s'.2)
      (f := foldConstant flow block.2) (g := foldConstant flow block.2)
      (a := (ConstantMap.empty, w)) (b := (ConstantMap.empty, w')) ⟨rfl, h⟩ (by
        rintro i - ⟨constants, w⟩ ⟨-, w'⟩ ⟨rfl, h⟩
        exact foldConstant_alike flow block.2 i constants h)
    exact hblock.2
  have hblocks : ∀ step : Block → Work → ℕ → Work,
      (∀ block i w w', Alike w w' → Alike (step block w i) (step block w' i)) →
      ∀ w w', Alike w w' → Alike (forBlocks flow step w) (forBlocks flow step w') := by
    intro step hstep w w' h
    refine List.foldl_rel h fun block _ w w' h => ?_
    exact List.foldl_rel h fun i _ w w' h => hstep block i w w' h
  exact hblocks _ (fun block i _ _ h => eliminateDeadStore_alike block h i) _ _
    (hblocks _ (fun _ i _ _ h => eliminateIdentity_alike h i) _ _ hfold)

/-- What a run of the passes does to the items does not depend on the counts. -/
theorem runPasses_alike (oob : Bool) (items : List Item) (stats stats' : OptStats) :
    (runPasses oob items stats).1 = (runPasses oob items stats').1 ∧
      (runPasses oob items stats).2.2 = (runPasses oob items stats').2.2 := by
  have hlocal : Alike (markLocal items stats) (markLocal items stats') := by
    have hunreachable := unreachable_alike true false stats stats' (items.map fresh)
    have hpeephole := peephole_alike (unreachable true stats false (items.map fresh)).changed
      (unreachable true stats false (items.map fresh)).stats
      (unreachable true stats' false (items.map fresh)).stats
      (unreachable true stats false (items.map fresh)).slots
    unfold markLocal
    dsimp only
    rw [← hunreachable.slots, ← hunreachable.changed, ← hpeephole.slots, ← hpeephole.changed]
    exact jumpToNext_alike _ _ _ _
  have hall : Alike (markPasses oob items stats) (markPasses oob items stats') := by
    unfold markPasses
    dsimp only
    rw [hlocal.slots]
    exact markBlocks_alike _ hlocal
  unfold runPasses
  dsimp only
  rw [hall.slots, hall.changed]
  exact ⟨rfl, rfl⟩

/-! ### The runs of the passes as steps -/

/-- One run of the passes: what it makes of the items, if it changes anything.  It reads `oob` past
the end of the vector of live blocks, if it reads there. -/
def next (oob : Bool) (items : List Item) : Option (List Item) :=
  let (items, _, changed) := runPasses oob items {}
  if changed then some items else none

theorem workLeft_next (oob : Bool) (items items' : List Item) (h : next oob items = some items') :
    workLeft items' < workLeft items := by
  unfold next at h
  rcases runPasses_cases oob items {} with hsame | ⟨hchanged, hlt⟩
  · rw [hsame] at h
    cases h
  · generalize runPasses oob items {} = result at h hchanged hlt
    obtain ⟨items'', stats, changed⟩ := result
    dsimp only at h hchanged hlt
    rw [if_pos hchanged] at h
    cases h
    exact hlt

/-- A run of the passes, by what it finds. -/
theorem runPasses_of_next (oob : Bool) (items : List Item) (stats : OptStats) :
    (next oob items = none ∧ runPasses oob items stats = (items, stats, false)) ∨
      ∃ items' stats', next oob items = some items' ∧
        runPasses oob items stats = (items', stats', true) := by
  obtain ⟨hitems, hchanged⟩ := runPasses_alike oob items stats {}
  unfold next
  generalize runPasses oob items {} = result at hitems hchanged ⊢
  obtain ⟨items', stats', changed⟩ := result
  dsimp only at hitems hchanged ⊢
  rcases runPasses_cases oob items stats with hsame | ⟨htrue, -⟩
  · left
    rw [hsame] at hchanged
    rw [← hchanged]
    exact ⟨if_neg Bool.false_ne_true, hsame⟩
  · right
    refine ⟨items', (runPasses oob items stats).2.1, ?_, ?_⟩
    · rw [← hchanged, htrue]
      rfl
    · rw [← hitems, ← htrue]

/-- The optimizer repeats the passes. -/
theorem optimizeItems_eq_seek (oob : ℕ → Bool) (n : ℕ) (items : List Item) (stats : OptStats) :
    (optimizeItems oob n items stats).1 = seek next oob n items := by
  induction n generalizing items stats with
  | zero => rfl
  | succ n ih =>
    unfold optimizeItems seek
    rcases runPasses_of_next (oob n) items stats with ⟨hnext, hrun⟩ | ⟨items', stats', hnext, hrun⟩
    · rw [hnext, hrun]
      rfl
    · rw [hnext, hrun]
      exact ih items' stats'

/-- Where the passes find nothing, nothing is changed and nothing counted. -/
theorem optimizeItems_of_next {oob : ℕ → Bool} {n : ℕ} {items : List Item}
    (h : next (oob n) items = none) (stats : OptStats) :
    optimizeItems oob (n + 1) items stats = (items, stats) := by
  rcases runPasses_of_next (oob n) items stats with ⟨-, hrun⟩ | ⟨items', stats', hnext, -⟩
  · unfold optimizeItems
    rw [hrun]
    rfl
  · rw [h] at hnext
    cases hnext

/-! ### Modules -/

/-- A section on which the passes have been repeated. -/
def settle (oob : ℕ → Bool) (s : Section) : Section :=
  if s.kind = .text then { s with items := seek next oob kMaxIterations s.items } else s

theorem settle_of_text (oob : ℕ → Bool) {s : Section} (h : s.kind = .text) :
    settle oob s = { s with items := seek next oob kMaxIterations s.items } :=
  if_pos h

theorem settle_kind (oob : ℕ → Bool) (s : Section) : (settle oob s).kind = s.kind := by
  unfold settle
  split_ifs <;> rfl

theorem sections_optimizeSections (oob : ℕ → Bool) (stats : OptStats) (sections : List Section) :
    (optimizeSections oob stats sections).1 = sections.map (settle oob) := by
  induction sections generalizing stats with
  | nil => rfl
  | cons s rest ih =>
    rw [List.map_cons]
    unfold optimizeSections settle
    split_ifs
    · unfold optimizeSection
      dsimp only
      rw [ih, optimizeItems_eq_seek]
      rfl
    · dsimp only
      rw [ih]
      rfl

theorem optimizeSections_of_next {oob : ℕ → Bool} {sections : List Section}
    (h : ∀ s ∈ sections, s.kind = .text → next (oob 7) s.items = none) (stats : OptStats) :
    optimizeSections oob stats sections = (sections, stats) := by
  induction sections with
  | nil => rfl
  | cons s rest ih =>
    have hrest := ih fun s' hs' => h s' (List.mem_cons_of_mem s hs')
    unfold optimizeSections
    split_ifs with hkind
    · unfold optimizeSection
      rw [optimizeItems_of_next (h s List.mem_cons_self hkind)]
      dsimp only
      rw [hrest]
    · rw [hrest]

/-- Where the passes find nothing, the optimizer returns the module. -/
theorem run_of_next {oob : ℕ → Bool} {m : Module}
    (h : ∀ s ∈ m.sections, s.kind = .text → next (oob 7) s.items = none) :
    run oob .O1 m = (m, { instructionsBefore := m.instructionCount
                          instructionsAfter := m.instructionCount }) := by
  unfold run
  simp only [ne_eq, reduceCtorEq, not_false_eq_true, if_true, optimizeSections_of_next h]

/-- The optimizer reports no change. -/
structure OptStats.NoChange (stats : OptStats) : Prop where
  folded : stats.constantsFolded = 0
  identities : stats.identitiesEliminated = 0
  deadStores : stats.deadStoresRemoved = 0
  unreachable : stats.unreachableRemoved = 0
  peepholes : stats.peepholesApplied = 0

/-- Whatever is read out of bounds, the optimizer applied to its own output changes no item of any
section and reports no change. -/
def Idempotent (m : Module) : Prop :=
  ∀ oob oob' : ℕ → Bool,
    let (m', _) := run oob .O1 m
    let (m'', stats) := run oob' .O1 m'
    m''.sections = m'.sections ∧ stats.NoChange

/-- The one `.text` section of a module from the front end. -/
theorem items_of_text {m : Module} (h : FrontEnd m) {s : Section} (hs : s ∈ m.sections)
    (hkind : s.kind = .text) : textItems m = s.items := by
  have hfind : ∀ sections : List Section, (sections.map Section.kind).Nodup → s ∈ sections →
      sections.find? (fun s => s.kind = .text) = some s := by
    intro sections hnodup hmem
    induction sections with
    | nil => cases hmem
    | cons t rest ih =>
      rw [List.map_cons, List.nodup_cons] at hnodup
      rcases List.mem_cons.mp hmem with rfl | hmem
      · exact List.find?_cons_of_pos (decide_eq_true hkind)
      · -- the section before it is of another kind
        have hne : ¬t.kind = .text := by
          intro ht
          exact hnodup.1 (ht.trans hkind.symm ▸ List.mem_map_of_mem hmem)
        rw [List.find?_cons_of_neg (by simpa using hne)]
        exact ih hnodup.2 hmem
  unfold textItems Module.findSection
  rw [hfind m.sections h.wellFormed.kinds hs]

/-- **The optimizer finds nothing to change in its own output exactly when no nine runs of the
passes in a row each find something on the section, and none that finds nothing would with another
bit.** -/
theorem idempotent_iff {m : Module} (h : FrontEnd m) :
    Idempotent m ↔ Converges next kMaxIterations (textItems m) := by
  rw [← forall_seek_iff]
  have hsections : ∀ oob : ℕ → Bool, (run oob .O1 m).1.sections = m.sections.map (settle oob) :=
    fun oob => sections_optimizeSections oob _ m.sections
  constructor
  · intro hidempotent choice oob
    cases hfind : m.findSection .text with
    | none =>
      -- without a section there is nothing that could get lighter
      have hempty : textItems m = [] := by
        unfold textItems
        rw [hfind]
      have hle := measure_seek_le workLeft_next choice kMaxIterations ([] : List Item)
      rw [hempty]
      cases hnext : next oob (seek next choice kMaxIterations []) with
      | none => rfl
      | some items =>
        have hlt := workLeft_next oob _ _ hnext
        exact absurd (hlt.trans_le hle) (Nat.not_lt_zero _)
    | some s =>
      have hs : s ∈ m.sections := List.mem_of_find?_eq_some hfind
      have hkind : s.kind = .text := by simpa using List.find?_some hfind
      rw [items_of_text h hs hkind]
      obtain ⟨hsame, -⟩ := hidempotent choice fun _ => oob
      have hagain := sections_optimizeSections (fun _ => oob)
        { instructionsBefore := (run choice .O1 m).1.instructionCount }
        (run choice .O1 m).1.sections
      replace hsame : (optimizeSections (fun _ => oob)
        { instructionsBefore := (run choice .O1 m).1.instructionCount }
        (run choice .O1 m).1.sections).1 = (run choice .O1 m).1.sections := hsame
      rw [hagain, hsections choice, List.map_map] at hsame
      have hsection := List.map_inj_left.mp hsame s hs
      rw [Function.comp, settle_of_text _ (settle_kind choice s ▸ hkind),
        settle_of_text choice hkind] at hsection
      have heq := congrArg Section.items hsection
      dsimp only at heq
      generalize seek next choice kMaxIterations s.items = items at heq ⊢
      exact @quiet_of_seek_eq _ _ next _ workLeft_next (fun _ => oob) 7 items heq
  · intro hquiet oob oob'
    have hnone : ∀ s ∈ (run oob .O1 m).1.sections, s.kind = .text →
        next (oob' 7) s.items = none := by
      intro s hs hkind
      rw [hsections oob] at hs
      obtain ⟨t, ht, rfl⟩ := List.mem_map.mp hs
      rw [settle_kind] at hkind
      rw [settle_of_text oob hkind, ← items_of_text h ht hkind]
      exact hquiet oob (oob' 7)
    have hagain := run_of_next hnone
    dsimp only
    rw [hagain]
    exact ⟨rfl, rfl, rfl, rfl, rfl, rfl⟩

/-! ### Pushes in pushes -/

def push : Item := .instruction { machine := { opcode := .PUSH } }

def pop : Item := .instruction { machine := { opcode := .POP } }

/-- `n` times `PUSH R0`, and `n` times `POP R0`. -/
def nested (n : ℕ) : List Item := List.replicate n push ++ List.replicate n pop

theorem mem_nested {n : ℕ} {item : Item} (h : item ∈ nested n) : item = push ∨ item = pop := by
  rcases List.mem_append.mp h with h | h
  · exact Or.inl (List.eq_of_mem_replicate h)
  · exact Or.inr (List.eq_of_mem_replicate h)

/-- The slots hold pushes and pops only. -/
def OnStack (slots : List Slot) : Prop := ∀ slot ∈ slots, slot.item = push ∨ slot.item = pop

/-- A property that neither a push nor a pop has. -/
theorem OnStack.noneLive {slots : List Slot} (h : OnStack slots) {p : Instruction → Prop}
    (hpush : ¬p { machine := { opcode := .PUSH } }) (hpop : ¬p { machine := { opcode := .POP } }) :
    NoneLive p slots := by
  intro slot hslot instruction hlive
  have hitem := (Slot.live?_eq_some hlive).2
  rcases h slot hslot with hp | hp <;> rw [hp] at hitem <;> cases hitem
  · exact hpush
  · exact hpop

theorem unreachable_onStack {slots : List Slot} (h : OnStack slots) (stats : OptStats)
    (changed : Bool) : unreachable true stats changed slots = { slots, stats, changed } := by
  induction slots with
  | nil => rfl
  | cons slot rest ih =>
    have hrest := ih fun s hs => h s (List.mem_cons_of_mem slot hs)
    unfold unreachable
    rcases h slot List.mem_cons_self with hp | hp <;> rw [hp] <;>
      exact congrArg (fun w : Work => { w with slots := slot :: w.slots }) hrest

theorem peephole_pops (stats : OptStats) (changed : Bool) (n : ℕ) :
    peephole stats changed ((List.replicate n pop).map fresh) =
      { slots := (List.replicate n pop).map fresh, stats, changed } := by
  induction n with
  | zero => rfl
  | succ n ih =>
    cases n with
    | zero => rfl
    | succ n =>
      rw [List.replicate_succ, List.map_cons]
      exact congrArg (fun w : Work => { w with slots := fresh pop :: w.slots }) ih

/-- Of pushes before pops, the last push and the first pop are a pair. -/
theorem peephole_nested (stats : OptStats) (changed : Bool) (n m : ℕ) :
    peephole stats changed
        ((List.replicate (n + 1) push ++ List.replicate (m + 1) pop).map fresh) =
      { slots := (List.replicate n push).map fresh ++ { item := push, remove := true } ::
          { item := pop, remove := true } :: (List.replicate m pop).map fresh
        stats := { stats with peepholesApplied := stats.peepholesApplied + 2 }
        changed := true } := by
  induction n with
  | zero =>
    have hrest := peephole_pops { stats with peepholesApplied := stats.peepholesApplied + 2 } true m
    exact congrArg (fun w : Work => { w with
      slots := { item := push, remove := true } :: { item := pop, remove := true } :: w.slots })
        hrest
  | succ n ih =>
    rw [List.replicate_succ, List.replicate_succ (n := n)] at *
    exact congrArg (fun w : Work => { w with slots := fresh push :: w.slots }) ih

/-- **A run of the passes removes the innermost pair, and nothing else.** -/
theorem next_nested (oob : Bool) (n : ℕ) : next oob (nested (n + 1)) = some (nested n) := by
  have hpeephole := peephole_nested {} false n n
  have hfresh : OnStack ((nested (n + 1)).map fresh) := by
    intro slot hslot
    obtain ⟨item, hitem, rfl⟩ := List.mem_map.mp hslot
    exact mem_nested hitem
  generalize hslots : (List.replicate n push).map fresh ++ { item := push, remove := true } ::
    { item := pop, remove := true } :: (List.replicate n pop).map fresh = slots at hpeephole
  have hstack : OnStack slots := by
    intro slot hslot
    rw [← hslots] at hslot
    simp only [List.mem_append, List.mem_cons, List.map_replicate] at hslot
    rcases hslot with h | rfl | rfl | h
    · exact Or.inl (congrArg Slot.item (List.eq_of_mem_replicate h))
    · exact Or.inl rfl
    · exact Or.inr rfl
    · exact Or.inr (congrArg Slot.item (List.eq_of_mem_replicate h))
  have hkept : kept slots = nested n := by
    rw [← hslots]
    have happend : ∀ items slots, kept (items.map fresh ++ slots) = items ++ kept slots := by
      intro items slots
      unfold kept
      rw [List.filter_append, List.map_append]
      exact congrArg (· ++ _) (kept_fresh items)
    rw [happend, kept_cons, if_pos rfl, kept_cons, if_pos rfl, kept_fresh]
    rfl
  have hlocal : markLocal (nested (n + 1)) {} = ⟨slots, { peepholesApplied := 2 }, true⟩ := by
    unfold markLocal
    rw [unreachable_onStack hfresh]
    dsimp only
    rw [nested, hpeephole]
    exact jumpToNext_eq_self (hstack.noneLive (by decide) (by decide)) _ _
  have hclear : ConstantMap.empty.clear .R0 = ConstantMap.empty := Function.update_eq_self _ _
  have hunfoldable : ∀ opcode, (opcode = .PUSH ∨ opcode = .POP) →
      Unfoldable { machine := { opcode } } := by
    rintro opcode (rfl | rfl) flagsDead
    · rfl
    · exact congrArg (·, none) hclear
  have hblocks : markPasses oob (nested (n + 1)) {} = ⟨slots, { peepholesApplied := 2 }, true⟩ := by
    unfold markPasses
    rw [hlocal]
    refine markBlocks_eq_self _ (hstack.noneLive ?_ ?_) (hstack.noneLive ?_ ?_)
      (hstack.noneLive ?_ ?_)
    · exact not_not.mpr (hunfoldable .PUSH (Or.inl rfl))
    · exact not_not.mpr (hunfoldable .POP (Or.inr rfl))
    all_goals decide
  unfold next runPasses
  rw [hblocks]
  dsimp only
  rw [if_pos rfl, if_pos rfl, hkept]

/-- Nested pushes take as many runs as they are deep. -/
theorem chain_nested (n k : ℕ) : Chain next n (nested (k + n)) (nested k) := by
  induction n with
  | zero => exact .refl _
  | succ n ih => exact .step (c := false) (next_nested false (k + n)) ih

theorem emits_stack {mnemonic : String} {opcode : Isa.Opcode}
    (h : (mnemonic = "PUSH" ∧ opcode = .PUSH) ∨ (mnemonic = "POP" ∧ opcode = .POP)) :
    Emits (.instruction { mnemonic := str mnemonic, operands := [{ type := .register }] })
      (.instruction { machine := { opcode } }) where
  check := by rcases h with ⟨rfl, rfl⟩ | ⟨rfl, rfl⟩ <;> decide
  lowers l hl := by
    have hpush : Isa.findMnemonic (str "PUSH") =
        some ⟨.PUSH, "PUSH", .reg1, false, true, false, false, false⟩ := by decide
    have hpop : Isa.findMnemonic (str "POP") =
        some ⟨.POP, "POP", .reg1, true, false, false, false, false⟩ := by decide
    rcases h with ⟨rfl, rfl⟩ | ⟨rfl, rfl⟩
    · simp [lowerStatement, lowerInstructionNode, hpush, hl, lowerInstruction]
    · simp [lowerStatement, lowerInstructionNode, hpop, hl, lowerInstruction]

theorem frontEnd_nested (n : ℕ) : ∃ m, FrontEnd m ∧ textItems m = nested n := by
  let statement (mnemonic : String) : Statement :=
    .instruction { mnemonic := str mnemonic, operands := [{ type := .register }] }
  have hreplicate : ∀ {statement item} (n : ℕ), Emits statement item →
      List.Forall₂ Emits (List.replicate n statement) (List.replicate n item) := by
    intro statement item n hemits
    induction n with
    | zero => exact .nil
    | succ n ih => exact .cons hemits ih
  have hemits : List.Forall₂ Emits
      (List.replicate n (statement "PUSH") ++ List.replicate n (statement "POP")) (nested n) :=
    List.rel_append (hreplicate n (emits_stack (Or.inl ⟨rfl, rfl⟩)))
      (hreplicate n (emits_stack (Or.inr ⟨rfl, rfl⟩)))
  apply frontEnd_of_emits hemits
  -- there are no labels
  unfold Sema.labelNames
  rw [List.filterMap_append, List.filterMap_replicate_of_none rfl,
    List.filterMap_replicate_of_none rfl]
  exact List.nodup_nil

/-! ### Sections with little to do -/

theorem anchored_next {oob : Bool} {items items' : List Item} (h : Anchored items)
    (hnext : next oob items = some items') : Anchored items' := by
  have hkept := anchored_markPasses h oob {}
  unfold next runPasses at hnext
  dsimp only at hnext
  split_ifs at hnext
  cases hnext
  exact hkept

theorem next_anchored {items : List Item} (h : Anchored items) (oob oob' : Bool) :
    next oob items = next oob' items := by
  unfold next runPasses
  rw [markPasses_anchored h oob oob']

theorem anchored_of_chain {n : ℕ} {items items' : List Item} (h : Anchored items)
    (hchain : Chain next n items items') : Anchored items' := by
  induction hchain with
  | refl items => exact h
  | step hnext _ ih => exact ih (anchored_next h hnext)

/-- As many runs are enough as there are changes left. -/
theorem converges_of_workLeft {n : ℕ} {items : List Item} (h : Anchored items)
    (hleft : workLeft items ≤ n) : Converges next n items where
  within items' hchain := by
    have hle := hchain.le_measure workLeft_next
    omega
  settled k _ items' hchain oob oob' hquiet := by
    rw [next_anchored (anchored_of_chain h hchain) oob' oob]
    exact hquiet

theorem chain_of_nested {n k : ℕ} {items : List Item} (h : Chain next k (nested n) items) :
    k ≤ n ∧ items = nested (n - k) := by
  induction k generalizing n items with
  | zero =>
    cases h
    exact ⟨Nat.zero_le n, rfl⟩
  | succ k ih =>
    obtain - | ⟨hnext, hrest⟩ := h
    cases n with
    | zero =>
      have hlt := workLeft_next _ _ _ hnext
      exact absurd hlt (Nat.not_lt_zero _)
    | succ n =>
      rw [next_nested, Option.some.injEq] at hnext
      subst hnext
      obtain ⟨hle, rfl⟩ := ih hrest
      exact ⟨Nat.succ_le_succ hle, by rw [Nat.succ_sub_succ]⟩

theorem converges_nested (n k : ℕ) : Converges next k (nested n) ↔ n ≤ k := by
  constructor
  · intro h
    by_contra hlt
    obtain ⟨j, rfl⟩ := Nat.exists_eq_add_of_le' (Nat.lt_of_not_le hlt)
    exact h.within _ (chain_nested _ j)
  · intro hn
    constructor
    · intro items hchain
      have hle := (chain_of_nested hchain).1
      omega
    · intro j hj items hchain oob oob' hquiet
      obtain ⟨hle, rfl⟩ := chain_of_nested hchain
      -- the inner pairs are gone, and a run finds the next one whatever the bit
      cases hleft : n - j with
      | zero =>
        cases hnext : next oob' (nested 0) with
        | none => rfl
        | some items => exact absurd (workLeft_next _ _ _ hnext) (Nat.not_lt_zero _)
      | succ i =>
        rw [hleft, next_nested] at hquiet
        cases hquiet

/-- A loop in which a run of the passes deletes the NOP, and the next one the pair around it. -/
def pushLoop : List Item := [here, push, nop, pop, cmp, je (.symbol 0)]

theorem anchored_pushLoop : Anchored pushLoop := by
  intro l rest hsuffix _
  rcases List.suffix_cons_iff.mp hsuffix with hsame | hlater
  · rw [(List.cons.inj hsame).2]
    exact ⟨cmp, by decide, rfl, rfl⟩
  · -- there is no other label
    have hmem := hlater.subset List.mem_cons_self
    revert hmem
    simp [push, nop, pop, cmp, je]

end Optimizer
end MiniTool
