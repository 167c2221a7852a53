import MiniToolchain.Optimizer.Folding
import MiniToolchain.Optimizer.PassSpec
import MiniToolchain.Optimizer.StackPairs

/-!
# Removing identities and dead stores preserves meaning

An identity changes nothing.  A dead store changes a register that the rest of its block writes
before anything reads it, and control leaves a block only at its end: the machines agree on the
registers that are live, and on all of them at every end of a block.

## Main definitions

* `ahead` — what is left of a block.
* `deadStore` — whether the pass marks a slot.
* `RegisterLive` — registers that what is left of the block does not write before it reads them.

## Main results

* `move_removed` — a move of an instruction that is removed.
* `refines_identities`, `refines_deadStores` — both passes preserve meaning.
-/

namespace MiniTool
namespace Optimizer

open Ir Vm Vm.VirtualMemory Vm.VirtualMachine

section

variable {p q : Program} {s s' t : State} {c : ℕ} {live live' : Set (Fin 16)}
  {instruction : Instruction}

/-- An instruction that is removed, and that writes nothing but registers that are not live after
it. -/
theorem move_removed (h : Linked id live True s t) (hrun : s.vm.cpu.halted = false)
    (hplace : p.place s.position = .run instruction) (hplace' : q.place s.position = .skip)
    (hbranch : isBranch instruction.machine.opcode = false)
    (hstores : ∀ x, ¬s.vm.stores (p.resolve instruction) x)
    (hexecute : ∀ vm, s.vm.execute (p.resolve instruction) 0 = (.ok (), vm) →
      ∃ registers, vm = s.vm.withRegisters registers ∧
        ∀ r ∈ live', r ∈ live ∧ registers r = s.vm.cpu.registers r) (hmove : Move p s c s') :
    ∃ d ≤ c, ∃ t', (meaning q).Reaches t d t' ∧ Linked id live' True s' t' := by
  have hposition : t.position = s.position := h.position
  obtain ⟨rfl, -, -, vm, hdone, rfl⟩ := hmove.eq_of_plain hplace hbranch
  obtain ⟨registers, rfl, hregisters⟩ := hexecute vm hdone
  have hskip : Move q t 0 (t.goto (t.position + 1)) := .skip (by rw [hposition, hplace'])
  have hhidden : {x | x ∈ s.hidden ∧ ¬s.vm.stores (p.resolve instruction) x} = s.hidden := by
    ext x
    exact and_iff_left (hstores x)
  rw [hhidden]
  refine ⟨0, Nat.zero_le 1, _, hskip.reaches (h.close.halted.trans hrun), ?_, h.frames, h.hidden,
    h.close.frame, h.close.memory, fun r hr => ?_, h.close.flags⟩
  · show t.position + 1 = s.position + 1
    rw [hposition]
  · obtain ⟨hlive, hsame⟩ := hregisters r hr
    exact (h.close.registers r hlive).trans hsame.symm

end

/-! ### Identities -/

/-- An identity changes nothing. -/
theorem execute_identity {vm vm' : VirtualMachine} {instruction : Instruction}
    (h : isIdentity instruction = true)
    (hexecute : vm.execute instruction.machine 0 = (.ok (), vm')) :
    vm' = vm := by
  obtain ⟨-, hdoes⟩ := (execute_eq_ok (not_isBranch_of_isIdentity h)).mp hexecute
  unfold isIdentity at h
  obtain ⟨-, hop⟩ := (Bool.and_eq_true _ _).mp h
  rcases (Bool.or_eq_true _ _).mp hop with hmov | hnop
  · obtain ⟨hmov, hsame⟩ := (Bool.and_eq_true _ _).mp hmov
    obtain rfl := hdoes.of_move (of_decide_eq_true hmov)
    rw [← of_decide_eq_true hsame]
    exact setRegister_self vm _
  · have hnop := of_decide_eq_true hnop
    cases hdoes with
    | nop => rfl
    | _ hop => simp [hnop, Isa.isBinaryAlu, Isa.isUnaryAlu] at hop

section

variable {symbol : Str → UInt64} {returnAddress : ℕ → UInt64} {w : Work}

/-- The slot of an identity is marked, and every other slot is kept. -/
theorem identities_cases (flow : ControlFlow) {j : ℕ} {slot : Slot}
    (hslot : w.slots[j]? = some slot) :
    (forBlocks flow (fun _ => eliminateIdentity) w).slots[j]? = some slot ∨
      ((forBlocks flow (fun _ => eliminateIdentity) w).slots[j]? =
        some { slot with remove := true } ∧
        ∃ instruction, slot.live? = some instruction ∧ isIdentity instruction = true) := by
  rw [forBlocks_eq, (foldl_eliminateIdentity flow.positions w).1, List.getElem?_mapIdx, hslot,
    Option.map_some]
  by_cases hmarked : j ∈ flow.positions ∧ slot.isIdentity = true
  · rw [if_pos hmarked]
    exact .inr ⟨rfl, (Option.any_eq_true _ _).mp hmarked.2⟩
  · rw [if_neg hmarked]
    exact .inl rfl

/-- **Removing identities preserves meaning.** -/
theorem refines_identities (flow : ControlFlow) (entry : ℕ → Prop) :
    Refines (.ofSlots symbol returnAddress w.slots)
      (.ofSlots symbol returnAddress (forBlocks flow (fun _ => eliminateIdentity) w).slots) id
      entry := by
  have hmapped : Mapped (.ofSlots symbol returnAddress w.slots)
      (.ofSlots symbol returnAddress (forBlocks flow (fun _ => eliminateIdentity) w).slots) id :=
    mapped_of_follows (marking_follows.toEditing.forBlocks flow
      (fun _ => marking_follows.toEditing.eliminateIdentity) w)
  refine refines_of_simulates (R := fun s t =>
    Invariant (.ofSlots symbol returnAddress w.slots) s ∧ Same id s t) ?_ ?_ ?_
  · intro vm i hstack _
    exact ⟨invariant_enter _ hstack i, linked_enter _ _ _ _ _⟩
  · rintro s t c s' ⟨hinv, hsame⟩ hrun hmove
    cases hslot : w.slots[s.position]? with
    | none =>
      exact absurd (place_of_length_le (List.getElem?_eq_none_iff.mp hslot)) hmove.place_ne_stop
    | some slot =>
      have hplace : (Program.ofSlots symbol returnAddress w.slots).place s.position = slot.place :=
        place_of_getElem? hslot
      rcases identities_cases flow hslot with hkept | ⟨hmarked, instruction, hlive, hidentity⟩
      · obtain ⟨d, hd, t', hreaches, hsame'⟩ := same_of_place hmapped hinv hsame hrun
          ((place_of_getElem? hkept).trans hplace.symm) hmove
        exact ⟨d, hd, t', hreaches, invariant_move hinv hmove, hsame'⟩
      · have hat := hplace.trans (Slot.place_eq_run.mpr hlive)
        have hsymbol : instruction.isSymbolic = false := by
          unfold isIdentity at hidentity
          simpa using ((Bool.and_eq_true _ _).mp hidentity).1
        have hop : (instruction.machine.opcode = .NOP ∨ instruction.machine.opcode = .MOVI ∨
            instruction.machine.opcode = .LEA) ∨ instruction.machine.opcode = .MOV ∨
            Isa.isBinaryAlu instruction.machine.opcode = true ∨
            Isa.isUnaryAlu instruction.machine.opcode = true := by
          unfold isIdentity at hidentity
          simp only [Bool.and_eq_true, Bool.or_eq_true, decide_eq_true_eq] at hidentity
          rcases hidentity.2 with hmov | hnop
          · exact .inr (.inl hmov.1)
          · exact .inl (.inl hnop)
        have hresolve :=
          (Program.ofSlots symbol returnAddress w.slots).resolve_of_not_symbolic hsymbol
        obtain ⟨d, hd, t', hreaches, hsame'⟩ :=
          @move_removed _ _ _ _ _ _ _ Set.univ _ hsame hrun hat
            (place_eq_skip.mpr ⟨_, hmarked, .inl rfl⟩) (not_isBranch_of_isIdentity hidentity)
          (by rw [hresolve]; exact not_stores hop)
          (fun vm hexecute => by
            rw [hresolve] at hexecute
            exact ⟨s.vm.cpu.registers, execute_identity hidentity hexecute,
              fun _ _ => ⟨trivial, rfl⟩⟩) hmove
        exact ⟨d, hd, t', hreaches, invariant_move hinv hmove, hsame'⟩
  · rintro s t ⟨-, hsame⟩ hhalted
    exact ⟨hsame.close.halted.trans hhalted, hsame.sameResult fun _ => trivial⟩

end

/-! ### Dead stores, position by position -/

/-- What is left of a block that stops at a position. -/
def ahead (slots : List Slot) (stop i : ℕ) : List Slot := (slots.take stop).drop i

/-- The slot holds a store to a register that the rest of the block writes before it reads it. -/
def deadStore (slots : List Slot) (stop i : ℕ) (slot : Slot) : Bool :=
  slot.live?.any fun instruction =>
    pureDefine instruction.machine && overwritten instruction.machine.dst (ahead slots stop (i + 1))

theorem ahead_succ {slots : List Slot} {stop i : ℕ} {slot : Slot} (h : slots[i]? = some slot)
    (hi : i < stop) : ahead slots stop i = slot :: ahead slots stop (i + 1) := by
  obtain ⟨hlt, rfl⟩ := List.getElem?_eq_some_iff.mp h
  unfold ahead
  rw [List.drop_eq_getElem_cons (by rw [List.length_take]; omega), List.getElem_take]

theorem ahead_of_le {slots : List Slot} {stop i : ℕ} (h : stop ≤ i) : ahead slots stop i = [] :=
  List.drop_eq_nil_of_le ((List.length_take_le _ _).trans h)

theorem ahead_congr {slots slots' : List Slot} {stop i : ℕ}
    (h : ∀ j, i ≤ j → j < stop → slots[j]? = slots'[j]?) :
    ahead slots stop i = ahead slots' stop i := by
  apply List.ext_getElem?
  intro n
  unfold ahead
  rw [List.getElem?_drop, List.getElem?_drop, List.getElem?_take, List.getElem?_take]
  split_ifs with hlt
  · exact h _ (Nat.le_add_right i n) hlt
  · rfl

/-- The slot with a dead store marked. -/
def withoutStore (slots : List Slot) (stop i : ℕ) (slot : Slot) : Slot :=
  if deadStore slots stop i slot then { slot with remove := true } else slot

/-- A turn of the loop. -/
theorem eliminateDeadStore_spec (block : Block) (w : Work) (i j : ℕ) :
    (eliminateDeadStore block w i).slots[j]? = (w.slots[j]?).map fun slot =>
      if j = i then withoutStore w.slots block.stop i slot else slot := by
  have hdead : ((w.slots[i]?).bind Slot.live?).any (fun instruction =>
      pureDefine instruction.machine && overwritten instruction.machine.dst
        ((w.slots.take block.stop).drop (i + 1))) =
      (w.slots[i]?).any (deadStore w.slots block.stop i) := by
    cases w.slots[i]? <;> rfl
  unfold eliminateDeadStore
  dsimp only
  rw [hdead]
  by_cases hany : (w.slots[i]?).any (deadStore w.slots block.stop i) = true
  · rw [if_pos hany]
    show (w.slots.modify i _)[j]? = _
    rw [List.getElem?_modify]
    cases hslot : w.slots[j]? with
    | none => rfl
    | some slot =>
      by_cases hji : i = j
      · subst hji
        rw [hslot, Option.any_some] at hany
        simp [withoutStore, hany]
      · simp [hji, Ne.symm hji]
  · rw [if_neg hany]
    cases hslot : w.slots[j]? with
    | none => rfl
    | some slot =>
      by_cases hji : j = i
      · subst hji
        rw [hslot, Option.any_some] at hany
        simp [withoutStore, hany]
      · simp [hji]

/-- A block: the pass reads what it has not come to yet. -/
theorem deadStores_block_spec (block : Block) (begin n : ℕ) (w : Work) (j : ℕ) :
    ((List.range' begin n).foldl (eliminateDeadStore block) w).slots[j]? = (w.slots[j]?).map
      fun slot => if begin ≤ j ∧ j < begin + n then withoutStore w.slots block.stop j slot
        else slot := by
  induction n generalizing j with
  | zero =>
    have hno : ¬(begin ≤ j ∧ j < begin + 0) := by omega
    simp only [if_neg hno, Option.map_id']
    rfl
  | succ n ih =>
    rw [List.range'_concat, List.foldl_append, List.foldl_cons, List.foldl_nil, Nat.one_mul,
      eliminateDeadStore_spec, ih, Option.map_map]
    have hahead : ahead ((List.range' begin n).foldl (eliminateDeadStore block) w).slots block.stop
        (begin + n + 1) = ahead w.slots block.stop (begin + n + 1) := by
      refine ahead_congr fun k hk _ => ?_
      have hno : ¬(begin ≤ k ∧ k < begin + n) := by omega
      rw [ih]
      simp only [if_neg hno, Option.map_id']
    congr 1
    funext slot
    rw [Function.comp]
    by_cases hj : j = begin + n
    · subst hj
      rw [if_pos rfl, if_neg (by omega), if_pos (by omega)]
      unfold withoutStore deadStore
      rw [hahead]
    · rw [if_neg hj]
      by_cases hin : begin ≤ j ∧ j < begin + n
      · rw [if_pos hin, if_pos (by omega)]
      · rw [if_neg hin, if_neg (by omega)]

/-- What the pass makes of the slots. -/
theorem deadStores_spec {flow : ControlFlow} (hbegin : ∀ b ∈ flow.blocks, b.begin ≤ b.stop)
    (hsorted : flow.blocks.Pairwise fun a b => a.stop ≤ b.begin) (w : Work) (j : ℕ) :
    (∀ b ∈ flow.blocks, b.begin ≤ j → j < b.stop →
      (forBlocks flow eliminateDeadStore w).slots[j]? =
        (w.slots[j]?).map (withoutStore w.slots b.stop j)) ∧
      ((∀ b ∈ flow.blocks, ¬(b.begin ≤ j ∧ j < b.stop)) →
        (forBlocks flow eliminateDeadStore w).slots[j]? = w.slots[j]?) := by
  refine @foldl_blocks_spec _ id (fun w b => b.positions.foldl (eliminateDeadStore b) w)
    (fun b slots j => withoutStore slots b.stop j) ?_ flow.blocks (fun b hb w j => ?_) hsorted w j
  · intro b slots slots' j hj hjs hsame
    have hahead : ahead slots b.stop (j + 1) = ahead slots' b.stop (j + 1) :=
      ahead_congr fun i hi his => hsame i (hj.trans (Nat.le_of_succ_le hi)) his
    funext slot
    unfold withoutStore deadStore
    rw [hahead]
  · have hspec := deadStores_block_spec b b.begin (b.stop - b.begin) w j
    rw [Nat.add_sub_cancel' (hbegin b hb)] at hspec
    exact hspec

/-- A slot is kept, or its store is dead in the block around it. -/
theorem deadStores_cases {flow : ControlFlow} (hbegin : ∀ b ∈ flow.blocks, b.begin ≤ b.stop)
    (hsorted : flow.blocks.Pairwise fun a b => a.stop ≤ b.begin) {w : Work} {j : ℕ} {slot : Slot}
    (hslot : w.slots[j]? = some slot) :
    (forBlocks flow eliminateDeadStore w).slots[j]? = some slot ∨
      ((forBlocks flow eliminateDeadStore w).slots[j]? = some { slot with remove := true } ∧
        ∃ b ∈ flow.blocks, b.begin ≤ j ∧ j < b.stop ∧ deadStore w.slots b.stop j slot = true) := by
  obtain ⟨hinside, houtside⟩ := deadStores_spec hbegin hsorted w j
  by_cases hin : ∃ b ∈ flow.blocks, b.begin ≤ j ∧ j < b.stop
  · obtain ⟨b, hb, hj, hjs⟩ := hin
    rw [hinside b hb hj hjs, hslot, Option.map_some]
    unfold withoutStore
    split_ifs with hdead
    · exact .inr ⟨rfl, b, hb, hj, hjs, hdead⟩
    · exact .inl rfl
  · exact .inl ((houtside fun b hb hj => hin ⟨b, hb, hj⟩).trans hslot)

/-! ### Registers that are live -/

theorem Reg.valid_ofNat (r : Fin 16) : Isa.isValidRegister (Isa.Reg.ofNat r) = true := by
  revert r
  decide

theorem Reg.slot_ofNat (r : Fin 16) : (Isa.Reg.ofNat r).slot = r := by
  revert r
  decide

theorem Reg.eq_ofNat {reg : Isa.Reg} (h : Isa.isValidRegister reg = true) :
    reg = Isa.Reg.ofNat reg.slot :=
  Isa.Reg.slot_injective h (Reg.valid_ofNat _) (Reg.slot_ofNat _).symm

/-- The register is live: what is left of the block does not write it before it reads it. -/
def RegisterLive (blocks : List Block) (slots : List Slot) (i : ℕ) (r : Fin 16) : Prop :=
  ∀ b ∈ blocks, b.begin ≤ i → i < b.stop →
    overwritten (Isa.Reg.ofNat r) (ahead slots b.stop i) = false

section

variable {blocks : List Block} {slots : List Slot} {i : ℕ} {slot : Slot} {r : Fin 16}
  {instruction : Instruction}

/-- What is live after a position is not overwritten by what follows it in its block. -/
theorem RegisterLive.ahead (h : RegisterLive blocks slots (i + 1) r) {b : Block} (hb : b ∈ blocks)
    (hbegin : b.begin ≤ i) :
    overwritten (Isa.Reg.ofNat r) (ahead slots b.stop (i + 1)) = false := by
  rcases Nat.lt_or_ge (i + 1) b.stop with hlt | hge
  · exact h b hb (Nat.le_succ_of_le hbegin) hlt
  · rw [ahead_of_le hge]
    rfl

/-- What is live after a position is live before it, unless it is written there. -/
theorem RegisterLive.before (h : RegisterLive blocks slots (i + 1) r)
    (hslot : slots[i]? = some slot) (hwrites : ∀ instruction, slot.live? = some instruction →
      writesRegister instruction.machine (Isa.Reg.ofNat r) = false) :
        RegisterLive blocks slots i r := by
  intro b hb hbegin hstop
  rw [ahead_succ hslot hstop]
  unfold overwritten
  cases hlive : slot.live? with
  | none => exact h.ahead hb hbegin
  | some instruction =>
    dsimp only
    rw [hwrites instruction hlive, h.ahead hb hbegin]
    simp

/-- What an instruction reads is live before it. -/
theorem registerLive_of_reads (hslot : slots[i]? = some slot)
    (hlive : slot.live? = some instruction)
    (hreads : readsRegister instruction.machine (Isa.Reg.ofNat r) = true) :
    RegisterLive blocks slots i r := by
  intro b hb hbegin hstop
  rw [ahead_succ hslot hstop]
  unfold overwritten
  rw [hlive]
  dsimp only
  rw [if_pos hreads]

/-- What ends a block writes no register. -/
theorem writesRegister_of_endsBlock {machine : Isa.Instruction}
    (h : endsBlock machine.opcode = true) (reg : Isa.Reg) : writesRegister machine reg = false := by
  unfold writesRegister
  unfold endsBlock at h
  generalize machine.opcode = opcode at h
  cases opcode <;> first | rfl | cases h

/-- All registers are live at the end of a block. -/
theorem registerLive_of_ends (hends : ∀ b ∈ blocks, b.begin ≤ i → i + 1 < b.stop → False)
    (hslot : slots[i]? = some slot) (hlive : slot.live? = some instruction)
    (hend : endsBlock instruction.machine.opcode = true) : RegisterLive blocks slots i r := by
  intro b hb hbegin hstop
  have hlast : b.stop ≤ i + 1 := not_lt.mp fun hlt => hends b hb hbegin hlt
  rw [ahead_succ hslot hstop, ahead_of_le hlast]
  unfold overwritten
  rw [hlive]
  dsimp only
  rw [writesRegister_of_endsBlock hend]
  simp [overwritten]

/-- The pass looks at registers as the machine does. -/
theorem readsRegister_of_looksAt {machine : Isa.Instruction}
    (hdst : Isa.isValidRegister machine.dst = true) (hsrc : Isa.isValidRegister machine.src = true)
    (h : looksAt machine r = true) : readsRegister machine (Isa.Reg.ofNat r) = true := by
  unfold looksAt at h
  unfold readsRegister sourceRegister
  cases hinfo : Isa.findOpcode machine.opcode with
  | none => rfl
  | some info =>
    rw [hinfo, Option.any_some] at h
    simp only [Bool.or_eq_true, Bool.and_eq_true, decide_eq_true_eq] at h ⊢
    rcases h with ⟨hreads, rfl⟩ | ⟨hformat, rfl⟩
    · exact .inl ⟨hreads, Reg.eq_ofNat hdst⟩
    · rw [if_pos hformat, ← Reg.eq_ofNat hsrc]
      exact .inr rfl

/-- A branch looks at no register. -/
theorem looksAt_of_isBranch {machine : Isa.Instruction} (h : isBranch machine.opcode = true) :
    looksAt machine r = false := by
  unfold looksAt
  generalize machine.opcode = opcode at h
  cases opcode <;> first | rfl | cases h

theorem definesRegister_of_writesRegister {machine : Isa.Instruction}
    (h : writesRegister machine (Isa.Reg.ofNat r) = true) : definesRegister machine r := by
  unfold writesRegister at h
  unfold definesRegister
  cases hinfo : Isa.findOpcode machine.opcode with
  | none =>
    rw [hinfo] at h
    cases h
  | some info =>
    rw [hinfo] at h
    simp only [Bool.and_eq_true, decide_eq_true_eq] at h
    refine ⟨h.1, ?_⟩
    rw [h.2, Reg.slot_ofNat]

end

/-! ### Along a run -/

section

variable {symbol : Str → UInt64} {returnAddress : ℕ → UInt64} {w : Work} {blocks : List Block}
  {flow : ControlFlow} {slots : List Slot} {s s' : State} {c : ℕ} {slot : Slot}
  {instruction : Instruction}

/-- The registers in which the machines agree: the live ones, and all when it has stopped. -/
def liveRegisters (blocks : List Block) (slots : List Slot) (s : State) : Set (Fin 16) :=
  {r | s.vm.cpu.halted = true ∨ RegisterLive blocks slots s.position r}

/-- An instruction that can end a block is the last of one. -/
def EndsBlocks (blocks : List Block) (slots : List Slot) : Prop :=
  ∀ b ∈ blocks, ∀ i slot instruction, b.begin ≤ i → i + 1 < b.stop → slots[i]? = some slot →
    slot.live? = some instruction → endsBlock instruction.machine.opcode = false

/-- What is executed is live where it looks. -/
theorem live_of_looksAt {r : Fin 16} (hslot : slots[s.position]? = some slot)
    (hlive : slot.live? = some instruction)
    (hmove : Move (.ofSlots symbol returnAddress slots) s c s')
    (hlooks : looksAt instruction.machine r = true) : r ∈ liveRegisters blocks slots s := by
  have hplace : (Program.ofSlots symbol returnAddress slots).place s.position = .run instruction :=
    (place_of_getElem? hslot).trans (Slot.place_eq_run.mpr hlive)
  cases hbranch : isBranch instruction.machine.opcode with
  | true => exact absurd ((looksAt_of_isBranch hbranch).symm.trans hlooks) Bool.false_ne_true
  | false =>
    obtain ⟨-, -, -, vm, hexecute, -⟩ := hmove.eq_of_plain hplace hbranch
    obtain ⟨hdst, hsrc⟩ := validRegisters_of_execute_ok (congrArg Prod.fst hexecute)
    rw [Program.resolve_dst] at hdst
    rw [Program.resolve_src] at hsrc
    exact .inr (registerLive_of_reads hslot hlive (readsRegister_of_looksAt hdst hsrc hlooks))

/-- What is live after an instruction is live before it, or written by it. -/
theorem live_of_move {r : Fin 16} (hends : EndsBlocks blocks slots)
    (hslot : slots[s.position]? = some slot) (hlive : slot.live? = some instruction)
    (hrun : s.vm.cpu.halted = false) (hmove : Move (.ofSlots symbol returnAddress slots) s c s')
    (hr : r ∈ liveRegisters blocks slots s') :
    r ∈ liveRegisters blocks slots s ∨ definesRegister instruction.machine r := by
  cases hend : endsBlock instruction.machine.opcode with
  | true =>
    refine .inl (.inr (registerLive_of_ends (fun b hb hbegin hstop => ?_) hslot hlive hend))
    exact Bool.false_ne_true ((hends b hb _ _ _ hbegin hstop hslot hlive).symm.trans hend)
  | false =>
    have hplace : (Program.ofSlots symbol returnAddress slots).place s.position =
        .run instruction :=
      (place_of_getElem? hslot).trans (Slot.place_eq_run.mpr hlive)
    have hbranch : isBranch instruction.machine.opcode = false := by
      by_contra hbranch
      have hyes := endsBlock_of_isBranch (Bool.eq_true_of_not_eq_false hbranch)
      exact Bool.false_ne_true (hend.symm.trans hyes)
    obtain ⟨-, -, -, vm, hexecute, rfl⟩ := hmove.eq_of_plain hplace hbranch
    have hhalted := halted_of_execute (by rw [Program.resolve_opcode]; exact hbranch)
      (fun hop => by rw [Program.resolve_opcode] at hop; rw [hop] at hend; cases hend)
      (fun hop => by rw [Program.resolve_opcode] at hop; rw [hop] at hend; cases hend) hexecute
    have hnext : RegisterLive blocks slots (s.position + 1) r := by
      rcases hr with hstopped | hr
      · exact absurd (hrun.symm.trans (hhalted.symm.trans hstopped)) Bool.false_ne_true
      · exact hr
    cases hwrites : writesRegister instruction.machine (Isa.Reg.ofNat r) with
    | true => exact .inr (definesRegister_of_writesRegister hwrites)
    | false =>
      refine .inl (.inr (hnext.before hslot fun later hlater => ?_))
      rw [hlive] at hlater
      cases hlater
      exact hwrites

theorem opcode_of_pureDefine {machine : Isa.Instruction} (h : pureDefine machine = true) :
    (machine.opcode = .MOVI ∨ machine.opcode = .MOV) ∨ machine.opcode = .LEA := by
  obtain ⟨info, -, hpure⟩ := (Option.any_eq_true _ _).mp h
  simp only [Bool.and_eq_true, Bool.or_eq_true, decide_eq_true_eq] at hpure
  exact hpure.2

theorem not_stores_of_pureDefine {p : Program} {vm : VirtualMachine}
    (h : pureDefine instruction.machine = true) (x : UInt64) :
    ¬vm.stores (p.resolve instruction) x := by
  refine not_stores ?_ x
  rw [p.resolve_opcode]
  rcases opcode_of_pureDefine h with (hop | hop) | hop
  · exact .inl (.inr (.inl hop))
  · exact .inr (.inl hop)
  · exact .inl (.inr (.inr hop))

/-- What a dead store does: it writes a register that is not live after it. -/
theorem execute_deadStore {b : Block} (hb : b ∈ blocks) (hbegin : b.begin ≤ s.position)
    (hrun : s.vm.cpu.halted = false) (hslot : slots[s.position]? = some slot)
    (hlive : slot.live? = some instruction) (hpure : pureDefine instruction.machine = true)
    (hdead : overwritten instruction.machine.dst (ahead slots b.stop (s.position + 1)) = true)
    {vm : VirtualMachine} (hexecute : s.vm.execute
      ((Program.ofSlots symbol returnAddress slots).resolve instruction) 0 = (.ok (), vm)) :
    ∃ registers, vm = s.vm.withRegisters registers ∧
      ∀ r ∈ liveRegisters blocks slots (State.mk (s.position + 1) vm s.frames s.hidden),
        r ∈ liveRegisters blocks slots s ∧ registers r = s.vm.cpu.registers r := by
  obtain ⟨value, rfl⟩ : ∃ value, vm = s.vm.setRegister instruction.machine.dst.slot value := by
    have hbranch := not_isBranch_of_pureDefine hpure
    obtain ⟨-, hdoes⟩ := (execute_eq_ok (by rw [Program.resolve_opcode]; exact hbranch)).mp hexecute
    rw [← Program.resolve_dst (.ofSlots symbol returnAddress slots)]
    rcases opcode_of_pureDefine hpure with (hop | hop) | hop
    · exact ⟨_, hdoes.of_immediate (.inl ((Program.resolve_opcode _ _).trans hop))⟩
    · exact ⟨_, hdoes.of_move ((Program.resolve_opcode _ _).trans hop)⟩
    · exact ⟨_, hdoes.of_immediate (.inr ((Program.resolve_opcode _ _).trans hop))⟩
  have hdst : Isa.isValidRegister instruction.machine.dst = true := by
    obtain ⟨hdst, -⟩ := validRegisters_of_execute_ok (congrArg Prod.fst hexecute)
    rwa [Program.resolve_dst] at hdst
  refine ⟨_, rfl, fun r hr => ?_⟩
  have hnext : RegisterLive blocks slots (s.position + 1) r := by
    rcases hr with hstopped | hr
    · exact absurd (hrun.symm.trans hstopped) Bool.false_ne_true
    · exact hr
  have hne : r ≠ instruction.machine.dst.slot := by
    rintro rfl
    have hnot := hnext.ahead hb hbegin
    rw [← Reg.eq_ofNat hdst, hdead] at hnot
    cases hnot
  refine ⟨.inr (hnext.before hslot fun later hlater => ?_), if_neg hne⟩
  rw [hlive] at hlater
  cases hlater
  by_contra hwrites
  exact hne (definesRegister_of_writesRegister (Bool.eq_true_of_not_eq_false hwrites)).2

/-- **Removing dead stores preserves meaning.** -/
theorem refines_deadStores (hbegin : ∀ b ∈ flow.blocks, b.begin ≤ b.stop)
    (hsorted : flow.blocks.Pairwise fun a b => a.stop ≤ b.begin)
    (hends : EndsBlocks flow.blocks w.slots) (entry : ℕ → Prop) :
    Refines (.ofSlots symbol returnAddress w.slots)
      (.ofSlots symbol returnAddress (forBlocks flow eliminateDeadStore w).slots) id entry := by
  have hmapped : Mapped (.ofSlots symbol returnAddress w.slots)
      (.ofSlots symbol returnAddress (forBlocks flow eliminateDeadStore w).slots) id :=
    mapped_of_follows (marking_follows.toEditing.forBlocks flow
      marking_follows.toEditing.eliminateDeadStore w)
  refine refines_of_simulates (R := fun s t => Invariant (.ofSlots symbol returnAddress w.slots) s ∧
    Linked id (liveRegisters flow.blocks w.slots s) True s t) ?_ ?_ ?_
  · intro vm i hstack _
    exact ⟨invariant_enter _ hstack i, linked_enter _ _ _ _ _⟩
  · rintro s t c s' ⟨hinv, hlinked⟩ hrun hmove
    have hinv' := invariant_move hinv hmove
    have hrun' : t.vm.cpu.halted = false := hlinked.close.halted.trans hrun
    have hposition : t.position = s.position := hlinked.position
    cases hslot : w.slots[s.position]? with
    | none =>
      exact absurd (place_of_length_le (List.getElem?_eq_none_iff.mp hslot)) hmove.place_ne_stop
    | some slot =>
      have hplace : (Program.ofSlots symbol returnAddress w.slots).place s.position = slot.place :=
        place_of_getElem? hslot
      rcases deadStores_cases hbegin hsorted hslot with
        hkept | ⟨hmarked, b, hb, hin, hstop, hdead⟩
      · have hplace' : (Program.ofSlots symbol returnAddress
            (forBlocks flow eliminateDeadStore w).slots).place s.position = slot.place :=
          place_of_getElem? hkept
        cases hat : slot.place with
        | stop => exact absurd (hplace.trans hat) hmove.place_ne_stop
        | skip =>
          obtain ⟨rfl, rfl⟩ := hmove.eq_of_skip (hplace.trans hat)
          have hskip :
              Move (.ofSlots symbol returnAddress (forBlocks flow eliminateDeadStore w).slots) t 0
                (t.goto (t.position + 1)) := .skip (by rw [hposition, hplace', hat])
          have hlinked' :=
            hlinked.goto (show t.position + 1 = id (s.position + 1) by rw [hposition]; rfl)
          refine ⟨0, le_rfl, _, hskip.reaches hrun', hinv', hlinked'.mono (fun r hr => ?_) id⟩
          refine hr.imp id fun hnext => RegisterLive.before hnext hslot fun instruction hlive => ?_
          exact Place.noConfusion (hat.symm.trans (Slot.place_eq_run.mpr hlive))
        | run instruction =>
          have hlive := Slot.place_eq_run.mp hat
          obtain ⟨t', hmove', hlinked'⟩ := move_kept hmapped hinv hlinked (hplace.trans hat)
            (hplace'.trans hat) rfl (fun r hr => live_of_looksAt hslot hlive hmove hr)
            (fun hop r => .inr (registerLive_of_ends (fun b hb hbegin hstop => by
              have hno := hends b hb _ _ _ hbegin hstop hslot hlive
              rw [hop] at hno
              cases hno) hslot hlive (by rw [hop]; rfl))) (fun _ => trivial) hmove
          exact ⟨c, le_rfl, t', hmove'.reaches hrun', hinv', hlinked'.mono
            (fun r hr => live_of_move hends hslot hlive hrun hmove hr) fun _ => .inl trivial⟩
      · obtain ⟨instruction, hlive, hpureDead⟩ := (Option.any_eq_true _ _).mp hdead
        obtain ⟨hpure, hoverwritten⟩ := (Bool.and_eq_true _ _).mp hpureDead
        have hat := hplace.trans (Slot.place_eq_run.mpr hlive)
        obtain ⟨-, -, -, vm, hexecute, rfl⟩ :=
          hmove.eq_of_plain hat (not_isBranch_of_pureDefine hpure)
        obtain ⟨registers, hvm, hsame⟩ :=
          execute_deadStore hb hin hrun hslot hlive hpure hoverwritten hexecute
        obtain ⟨d, hd, t', hreaches, hlinked'⟩ := move_removed hlinked hrun hat
          (place_eq_skip.mpr ⟨_, hmarked, .inl rfl⟩) (not_isBranch_of_pureDefine hpure)
          (not_stores_of_pureDefine hpure) (fun vm' hexecute' => by
            rw [hexecute] at hexecute'
            cases hexecute'
            exact ⟨registers, hvm, hsame⟩) hmove
        exact ⟨d, hd, t', hreaches, hinv', hlinked'⟩
  · rintro s t ⟨-, hlinked⟩ hhalted
    exact ⟨hlinked.close.halted.trans hhalted, hlinked.sameResult fun _ => .inl hhalted⟩

end

end Optimizer
end MiniTool
