import MiniToolchain.Optimizer.LocalPasses

/-!
# FLAGS that the rest of a run needs

After the local passes the graph is drawn over all items, also over those that are marked.  What it
says of FLAGS still covers every run of what is not marked: control passes a marked item only where
the graph passes it, or leaves it out on an edge that the graph draws, too.

## Main definitions

* `MarkedLocal` — what the local passes make of an item.
* `NeedsFlags` — from the position a run can come to something that reads FLAGS.

## Main results

* `needed_of_needsFlags` — then the graph says so.
-/

namespace MiniTool
namespace Optimizer

open Ir Liveness Vm

/-! ### What the local passes mark -/

section

variable {items : List Item} {q : ℕ}

theorem Unreached.of_cons {a : Item} (h : Unreached (a :: items) (q + 1)) :
    Unreached items q ∨ Item.Terminates a ∧ ∀ k < q, ¬IsLabelAt items k := by
  obtain ⟨t, hlt, ⟨item, hitem, hterminates⟩, hbetween⟩ := h
  cases t with
  | zero =>
    cases hitem
    exact .inr ⟨hterminates, fun k hk => hbetween (k + 1) (Nat.succ_pos k) (Nat.succ_lt_succ hk)⟩
  | succ t =>
    exact .inl ⟨t, Nat.lt_of_succ_lt_succ hlt, ⟨item, hitem, hterminates⟩,
      fun k hk hkq => hbetween (k + 1) (Nat.succ_lt_succ hk) (Nat.succ_lt_succ hkq)⟩

/-- What the first pass keeps is reached. -/
theorem not_unreached_of_kept {reachable : Bool} {stats : OptStats} {changed : Bool}
    {slots : List Slot} {slot : Slot} {instruction : Instruction}
    (hslot : (unreachable reachable stats changed slots).slots[q]? = some slot)
    (hlive : slot.live? = some instruction) :
    ¬Unreached (slots.map Slot.item) q ∧
      (reachable = false → ∃ k < q, IsLabelAt (slots.map Slot.item) k) := by
  obtain ⟨hkept, hitem⟩ := Slot.live?_eq_some hlive
  induction slots generalizing reachable stats changed q with
  | nil => cases hslot
  | cons first rest ih =>
    rw [List.map_cons]
    unfold unreachable at hslot
    dsimp only at hslot
    cases q with
    | zero =>
      have hnone : ¬Unreached (first.item :: rest.map Slot.item) 0 := by
        rintro ⟨t, hlt, -⟩
        exact Nat.not_lt_zero t hlt
      split at hslot
      · next l hl =>
        cases hslot
        rw [hl] at hitem
        cases hitem
      · split_ifs at hslot with hreachable
        · cases hslot
          cases hkept
        · exact ⟨hnone, fun hfalse => absurd hfalse (by simpa using hreachable)⟩
      · next hlabel hinstruction =>
        cases hslot
        exact absurd hitem (hinstruction instruction)
    | succ q =>
      -- a label or what lies behind one is reached again
      have hlift : (Item.Terminates first.item → ∃ k < q, IsLabelAt (rest.map Slot.item) k) →
          ¬Unreached (rest.map Slot.item) q →
          ¬Unreached (first.item :: rest.map Slot.item) (q + 1) := by
        intro hlabel hrest hunreached
        rcases hunreached.of_cons with hrest' | ⟨hterminates, hnone⟩
        · exact hrest hrest'
        · obtain ⟨k, hk, hl⟩ := hlabel hterminates
          exact hnone k hk hl
      have hshift : (∃ k < q, IsLabelAt (rest.map Slot.item) k) →
          ∃ k < q + 1, IsLabelAt (first.item :: rest.map Slot.item) k :=
        fun ⟨k, hk, hl⟩ => ⟨k + 1, Nat.succ_lt_succ hk, hl⟩
      split at hslot
      · next l hl =>
        obtain ⟨hrest, -⟩ := ih hslot
        refine ⟨hlift ?_ hrest, fun _ => ⟨0, Nat.succ_pos q, l, congrArg some hl⟩⟩
        rintro ⟨i, hi, -⟩
        rw [hl] at hi
        cases hi
      · next i hi =>
        split_ifs at hslot with hreachable
        · obtain ⟨hrest, hlabel⟩ := ih hslot
          exact ⟨hlift (fun _ => hlabel rfl) hrest, fun _ => hshift (hlabel rfl)⟩
        · obtain ⟨hrest, hlabel⟩ := ih hslot
          refine ⟨hlift ?_ hrest, fun hfalse => absurd hfalse (by simpa using hreachable)⟩
          rintro ⟨i', hi', hterminates⟩
          rw [hi] at hi'
          cases hi'
          exact hlabel (by rw [hterminates]; rfl)
      · next hlabel hinstruction =>
        obtain ⟨hrest, hbehind⟩ := ih hslot
        refine ⟨hlift ?_ hrest, fun hfalse => hshift (hbehind hfalse)⟩
        rintro ⟨i, hi, -⟩
        exact absurd hi (hinstruction i)

/-- What the local passes make of an item. -/
inductive MarkedLocal (items : List Item) (slots : List Slot) (q : ℕ) (item : Item) : Slot → Prop
  | kept (hreached : item.isInstruction = true → Reached items q) :
    MarkedLocal items slots q item (fresh item)
  /-- A `PUSH` that has become a `MOV`. -/
  | moved {first : Instruction} {machine : Isa.Instruction} (hitem : item = .instruction first)
    (hpush : first.machine.opcode = .PUSH) (hmov : machine.opcode = .MOV)
    (hreached : Reached items q) :
    MarkedLocal items slots q item (fresh (.instruction { first with machine }))
  | unreached (h : ¬Reached items q) : MarkedLocal items slots q item { item, remove := true }
  | stack {instruction : Instruction} (hitem : item = .instruction instruction)
    (hop : instruction.machine.opcode = .PUSH ∨ instruction.machine.opcode = .POP) :
    MarkedLocal items slots q item { item, remove := true }
  | jumped {instruction : Instruction} {reference : SymbolRef}
    (hitem : item = .instruction instruction) (hop : instruction.machine.opcode = .JMP)
    (hsymbol : instruction.symbol = some reference) (haddend : reference.addend = 0)
    (hleads : LeadsOn slots q reference.name) :
    MarkedLocal items slots q item { item, remove := true }

/-- The third pass leaves alone what is no jump. -/
theorem getElem?_jumpToNext {slots : List Slot} {slot : Slot} (h : slots[q]? = some slot)
    (hno : ∀ instruction, slot.live? = some instruction → instruction.machine.opcode ≠ .JMP)
    (stats : OptStats) (changed : Bool) :
    (jumpToNext stats changed slots).slots[q]? = some slot := by
  rcases jumpToNext_spec h stats changed with
    hkept | ⟨-, slot', instruction, -, hslot', hlive, hop, -⟩
  · exact hkept
  · rw [h] at hslot'
    cases hslot'
    exact absurd hop (hno instruction hlive)

/-- What the local passes mark, and why. -/
theorem markLocal_spec {item : Item} (h : items[q]? = some item) (stats : OptStats) :
    ∃ slot, (markLocal items stats).slots[q]? = some slot ∧
      MarkedLocal items (markLocal items stats).slots q item slot := by
  unfold markLocal
  dsimp only
  generalize hfirst : unreachable true stats false (items.map fresh) = w₁
  generalize hsecond : peephole w₁.stats w₁.changed w₁.slots = w₂
  -- what is marked stays so
  have hremoved : ∀ {slot : Slot}, slot.remove = true →
      ∀ instruction, slot.live? = some instruction → instruction.machine.opcode ≠ .JMP := by
    intro slot hremove instruction hlive
    rw [(Slot.live?_eq_some hlive).1] at hremove
    cases hremove
  rcases unreachable_spec h stats with hkept | ⟨hmarked, hnot⟩
  · rw [hfirst] at hkept
    have hreached : item.isInstruction = true → Reached items q := by
      intro hinstruction hunreached
      cases item with
      | instruction i =>
        have hlive : (fresh (.instruction i)).live? = some i := rfl
        rw [← hfirst] at hkept
        have hnot := (not_unreached_of_kept hkept hlive).1
        rw [items_fresh] at hnot
        exact absurd hunreached hnot
      | _ => cases hinstruction
    have hspec := peephole_spec hkept w₁.stats w₁.changed
    rw [hsecond] at hspec
    generalize hresult : w₂.slots[q]? = result at hspec
    cases hspec with
    | kept =>
      rcases jumpToNext_spec hresult w₂.stats w₂.changed with
        hkept' | ⟨hmarked, slot', instruction, reference, hslot', hlive, hop, hsymbol,
          haddend, hleads⟩
      · exact ⟨_, hkept', .kept hreached⟩
      · rw [hresult] at hslot'
        cases hslot'
        exact ⟨_, hmarked, .jumped (Slot.live?_eq_some hlive).2 hop hsymbol haddend
          (hleads.mono (marking_follows.jumpToNext _ _ _))⟩
    | @front first second hpair =>
      have hlive := hpair.front
      rw [hkept] at hlive
      have hitem : item = .instruction first := (Slot.live?_eq_some hlive).2
      unfold rewrittenSlot at hresult
      cases hrewrite : rewritePair first.machine second.machine with
      | none =>
        rw [hrewrite] at hresult
        exact ⟨_, getElem?_jumpToNext hresult (hremoved rfl) _ _, .stack hitem (.inl hpair.push)⟩
      | some machine =>
        rw [hrewrite] at hresult
        have hmov : machine.opcode = .MOV := by
          unfold rewritePair at hrewrite
          split_ifs at hrewrite
          cases hrewrite
          rfl
        refine ⟨_, getElem?_jumpToNext hresult (fun i hi => ?_) _ _,
          .moved hitem hpair.push hmov (hreached (by rw [hitem]; rfl))⟩
        cases hi
        rw [hmov]
        exact Isa.Opcode.noConfusion
    | @back k first second hk hpair =>
      have hlive := hpair.back
      rw [← hk, hkept] at hlive
      have hitem : item = .instruction second := (Slot.live?_eq_some hlive).2
      exact ⟨_, getElem?_jumpToNext hresult (hremoved rfl) _ _, .stack hitem (.inr hpair.pop)⟩
  · rw [hfirst] at hmarked
    have hspec := peephole_spec hmarked w₁.stats w₁.changed
    rw [hsecond] at hspec
    generalize hresult : w₂.slots[q]? = result at hspec
    cases hspec with
    | kept => exact ⟨_, getElem?_jumpToNext hresult (hremoved rfl) _ _, .unreached hnot⟩
    | @front first second hpair =>
      have hfront := hpair.front
      rw [hmarked] at hfront
      cases hfront
    | @back k first second hk hpair =>
      have hback := hpair.back
      rw [← hk, hmarked] at hback
      cases hback

/-- Every slot is what the local passes make of an item. -/
theorem marked_of_slot {stats : OptStats} {slot : Slot}
    (h : (markLocal items stats).slots[q]? = some slot) :
    ∃ item, items[q]? = some item ∧ MarkedLocal items
      (markLocal items stats).slots q item slot := by
  have hlength := length_of_follows (marking_follows.markLocal items stats)
  have hq := (List.getElem?_eq_some_iff.mp h).1
  rw [List.length_map] at hlength
  have hitem := List.getElem?_eq_getElem (show q < items.length by omega)
  obtain ⟨slot', hslot', hmarked⟩ := markLocal_spec hitem stats
  have hsame : slot' = slot := Option.some.inj (hslot'.symm.trans h)
  subst hsame
  exact ⟨_, hitem, hmarked⟩

end

/-! ### What a run needs -/

/-- The instruction reads FLAGS, or leaves for code that may. -/
def usesFlags (instruction : Instruction) : Prop :=
  Isa.readsFlags instruction.machine.opcode = true ∨ instruction.machine.opcode = .CALL ∨
    (instruction.machine.opcode = .RET ∧ instruction.symbol = none)

/-- From the position a run can come to something that reads FLAGS, with nothing before it that
writes them. -/
inductive NeedsFlags (p : Program) : ℕ → Prop
  | use {i : ℕ} {instruction : Instruction} (hplace : p.place i = .run instruction)
    (huses : usesFlags instruction) : NeedsFlags p i
  | step {i j : ℕ} (hgoes : Goes p [] i j)
    (hkeeps : ∀ instruction, p.place i = .run instruction →
      writesFlags instruction.machine.opcode = false) (hneeds : NeedsFlags p j) : NeedsFlags p i

/-- What is needed after a move was needed before it, or is written. -/
theorem needsFlags_of_move {p : Program} {s s' : State} {c : ℕ} (hmove : Move p s c s')
    (hrun : s'.vm.cpu.halted = false) (h : NeedsFlags p s'.position) :
    NeedsFlags p s.position ∨ ∃ instruction, p.place s.position = .run instruction ∧
      writesFlags instruction.machine.opcode = true := by
  by_cases hwrites : ∃ instruction, p.place s.position = .run instruction ∧
      writesFlags instruction.machine.opcode = true
  · exact .inr hwrites
  · left
    have hkeeps : ∀ instruction, p.place s.position = .run instruction →
        writesFlags instruction.machine.opcode = false := by
      intro instruction hplace
      exact Bool.eq_false_iff.mpr fun hyes => hwrites ⟨instruction, hplace, hyes⟩
    rcases goes_of_move hmove with hhalted | hgoes
    · exact absurd (hrun.symm.trans hhalted) Bool.false_ne_true
    · generalize s'.position = j at hgoes h
      cases hgoes with
      | skip hplace => exact .step (.skip hplace) hkeeps h
      | next hplace hgoes hcall => exact .step (.next hplace hgoes hcall) hkeeps h
      | jump hplace hbranch hret hsymbol haddend htarget =>
        exact .step (.jump hplace hbranch hret hsymbol haddend htarget) hkeeps h
      | ret hplace hret hsymbol hframe => exact .use hplace (.inr (.inr ⟨hret, hsymbol⟩))

/-! ### Where the graph goes -/

section

variable {items : List Item} {oob : Bool} {q : ℕ} {instruction : Instruction}

/-- The graph goes on after what is no terminator, or gives up. -/
theorem drawn_next (hitem : items[q]? = some (.instruction instruction))
    (hgoes : terminates instruction.machine.opcode = false) :
    drawnLeave oob items q = none ∨ Next (drawnLeave oob items) q (q + 1) := by
  unfold Next drawnLeave
  rw [hitem]
  dsimp only [leave]
  unfold terminates at hgoes
  cases hinfo : Isa.findOpcode instruction.machine.opcode with
  | none => exact .inr ⟨_, rfl, List.mem_singleton_self _⟩
  | some info =>
    have hterminator : info.isTerminator = false := by
      rw [hinfo] at hgoes
      exact hgoes
    dsimp only
    rw [hterminator, if_neg Bool.false_ne_true]
    split_ifs with hbranch hunknown
    · exact .inr ⟨_, rfl, List.mem_singleton_self _⟩
    · exact .inl rfl
    · cases instruction.symbol with
      | none => exact .inl rfl
      | some reference =>
        dsimp only
        cases drawnTarget oob items reference with
        | none => exact .inl rfl
        | some p => exact .inr ⟨_, rfl, List.mem_cons_self⟩

/-- The graph goes to the label of a branch, or gives up. -/
theorem drawn_jump {reference : SymbolRef} {t : ℕ}
    (hitem : items[q]? = some (.instruction instruction))
    (hbranch : isBranch instruction.machine.opcode = true)
    (hsymbol : instruction.symbol = some reference)
    (htarget : labelIndex items reference.name = some t) :
    drawnLeave oob items q = none ∨ Next (drawnLeave oob items) q t := by
  unfold Next drawnLeave
  rw [hitem]
  dsimp only [leave]
  unfold isBranch at hbranch
  cases hinfo : Isa.findOpcode instruction.machine.opcode with
  | none =>
    rw [hinfo] at hbranch
    cases hbranch
  | some info =>
    rw [hinfo] at hbranch
    have hbranch' : (!info.isBranch) = false := by simpa using hbranch
    dsimp only
    rw [hbranch', if_neg Bool.false_ne_true, hsymbol]
    split_ifs with hunknown
    · exact .inl rfl
    all_goals
      dsimp only [drawnTarget]
      rw [htarget]
      dsimp only
      split_ifs
      · exact .inl rfl
      · exact .inr ⟨_, rfl, by simp⟩

theorem needed_of_next {go : ℕ → Option (List ℕ)} {q' : ℕ} (hkeeps : ¬WritesAt items q)
    (hnext : go q = none ∨ Next go q q') (h : Needed items go q') : Needed items go q := by
  rcases hnext with hnone | hnext
  · exact UseFirst.here (.inr hnone)
  · exact UseFirst.step hkeeps hnext h

theorem writesFlags_of_writesAt (hitem : items[q]? = some (.instruction instruction)) :
    WritesAt items q → writesFlags instruction.machine.opcode = true := by
  unfold WritesAt
  rw [hitem]
  show (if Isa.readsFlags instruction.machine.opcode then some true
    else if writesFlags instruction.machine.opcode then some false else none) = some false → _
  split_ifs with hreads hwrites
  · exact fun h => by cases h
  · exact fun _ => hwrites
  · exact fun h => by cases h

end

section

variable {symbol : Str → UInt64} {returnAddress : ℕ → UInt64} {items : List Item} {stats : OptStats}
  {oob : Bool}

theorem item_of_place {slots : List Slot} {i : ℕ} {instruction : Instruction}
    (h : (Program.ofSlots symbol returnAddress slots).place i = .run instruction) :
    (slots.map Slot.item)[i]? = some (.instruction instruction) := by
  have hlive := place_eq_run.mp h
  rw [List.getElem?_map]
  cases hslot : slots[i]? with
  | none =>
    rw [hslot] at hlive
    cases hlive
  | some slot =>
    rw [hslot] at hlive
    exact congrArg some (Slot.live?_eq_some hlive).2

/-- What is left after the local passes is reached, and so is what it runs on to. -/
theorem reached_of_live {i : ℕ} {instruction : Instruction}
    (h : ((markLocal items stats).slots[i]?).bind Slot.live? = some instruction) :
    Reached items i ∧
      (terminates instruction.machine.opcode = false → Reached items (i + 1)) := by
  cases hslot : (markLocal items stats).slots[i]? with
  | none =>
    rw [hslot] at h
    cases h
  | some slot =>
    rw [hslot] at h
    obtain ⟨item, hitem, hmarked⟩ := marked_of_slot hslot
    cases hmarked with
    | kept hreached =>
      have hinstruction : item = .instruction instruction := (Slot.live?_eq_some h).2
      rw [hinstruction] at hitem hreached
      exact ⟨hreached rfl, fun hgoes => (hreached rfl).succ (not_terminates hitem hgoes)⟩
    | moved hfirst hpush hmov hreached =>
      rw [hfirst] at hitem
      exact ⟨hreached, fun _ => hreached.succ (not_terminates hitem (by rw [hpush]; rfl))⟩
    | unreached => cases h
    | stack => cases h
    | jumped => cases h

theorem uses_of_usesFlags {items : List Item} {i : ℕ} {instruction : Instruction}
    (hitem : items[i]? = some (.instruction instruction)) (huses : usesFlags instruction) :
    Uses items (drawnLeave oob items) i := by
  rcases huses with hreads | hcall | ⟨hret, hnone⟩
  · left
    unfold ReadsAt
    rw [hitem]
    show (if Isa.readsFlags instruction.machine.opcode then some true
      else if writesFlags instruction.machine.opcode then some false else none) = some true
    rw [if_pos hreads]
  · right
    unfold drawnLeave
    rw [hitem]
    simp [leave, hcall, Isa.findOpcode, Isa.kOpcodes]
  · right
    unfold drawnLeave
    rw [hitem]
    simp [leave, hret, hnone, Isa.findOpcode, Isa.kOpcodes]

/-- Control passes what is not executed, and so does the graph, or it leaves it out. -/
theorem needed_of_skips (hdistinct : DistinctLabels items) {j : ℕ}
    (hstop : (Program.ofSlots symbol returnAddress (markLocal items stats).slots).place j ≠ .skip)
    (hneeded : Needed ((markLocal items stats).slots.map Slot.item)
      (drawnLeave oob ((markLocal items stats).slots.map Slot.item)) j) {i : ℕ} (hle : i ≤ j)
    (hreached : Reached items i)
    (hskips : ∀ k, i ≤ k → k < j →
      (Program.ofSlots symbol returnAddress (markLocal items stats).slots).place k = .skip) :
    Needed ((markLocal items stats).slots.map Slot.item)
      (drawnLeave oob ((markLocal items stats).slots.map Slot.item)) i := by
  induction hn : j - i using Nat.strong_induction_on generalizing i with
  | _ n ih =>
    rcases Nat.eq_or_lt_of_le hle with rfl | hlt
    · exact hneeded
    · obtain ⟨slot, hslot, hskip⟩ := place_eq_skip.mp (hskips i le_rfl hlt)
      have hitem3 : ((markLocal items stats).slots.map Slot.item)[i]? = some slot.item := by
        rw [List.getElem?_map, hslot]
        rfl
      have hlength : i < ((markLocal items stats).slots.map Slot.item).length :=
        (List.getElem?_eq_some_iff.mp hitem3).1
      have hrest : ∀ {k}, k ≤ j → i < k → Reached items k →
          Needed ((markLocal items stats).slots.map Slot.item)
            (drawnLeave oob ((markLocal items stats).slots.map Slot.item)) k :=
        fun hk hik hreach => ih _ (by omega) hk hreach
          (fun k' hk' => hskips k' (by omega)) rfl
      obtain ⟨item, hitem, hmarked⟩ := marked_of_slot hslot
      cases hmarked with
      | kept =>
        obtain ⟨l, hl⟩ : ∃ l, item = .label l := hskip.resolve_left Bool.false_ne_true
        obtain ⟨-, huse, hleave⟩ := isLabelAt_iff_flat (show IsLabelAt _ i from
          ⟨l, hitem3.trans (congrArg some hl)⟩)
        refine needed_of_next (fun hwrites => ?_) (.inr ⟨_, hleave oob, List.mem_singleton_self _⟩)
          (hrest hlt (Nat.lt_succ_self i) (hreached.succ ?_))
        · rw [WritesAt, huse] at hwrites
          cases hwrites
        · rintro item' hitem' ⟨instruction, rfl, -⟩
          rw [hitem, hl] at hitem'
          cases hitem'
      | moved => exact absurd hskip (by simp [fresh])
      | unreached hnot => exact absurd hreached hnot
      | @stack instruction hinstruction hop =>
        rw [show ({ item, remove := true } : Slot).item = _ from hinstruction] at hitem3
        rw [hinstruction] at hitem
        have hplain : writesFlags instruction.machine.opcode = false ∧
            terminates instruction.machine.opcode = false := by
          rcases hop with hop | hop
          · rw [hop]
            exact ⟨rfl, rfl⟩
          · rw [hop]
            exact ⟨rfl, rfl⟩
        refine needed_of_next (fun hwrites => ?_) (drawn_next hitem3 hplain.2)
          (hrest hlt (Nat.lt_succ_self i) (hreached.succ (not_terminates hitem hplain.2)))
        exact Bool.false_ne_true (hplain.1.symm.trans (writesFlags_of_writesAt hitem3 hwrites))
      | @jumped instruction reference hinstruction hop hsymbol haddend hleads =>
        rw [show ({ item, remove := true } : Slot).item = _ from hinstruction] at hitem3
        obtain ⟨p, l, hip, hp, hname, hbetween⟩ := hleads
        have hlabel : ((markLocal items stats).slots.map Slot.item)[p]? = some (.label l) := by
          rw [List.getElem?_map, hp]
          rfl
        have hfollows := marking_follows.markLocal items stats
        have hlabel' : items[p]? = some (.label l) := by
          rw [← items_fresh items]
          exact (labelAt_of_follows hfollows).mp hlabel
        have hindex : labelIndex ((markLocal items stats).slots.map Slot.item) reference.name =
            some p := by
          rw [← hname, labelIndex_of_follows hfollows, items_fresh]
          exact hdistinct.labelIndex_eq hlabel'
        -- the label is not behind what is executed next
        have hpj : p ≤ j := by
          by_contra hlt'
          obtain ⟨between, hat, hpassed⟩ := hbetween j hlt (not_le.mp hlt')
          exact hstop (place_eq_skip.mpr ⟨between, hat, hpassed⟩)
        refine needed_of_next (fun hwrites => ?_)
          (drawn_jump hitem3 (by rw [hop]; rfl) hsymbol hindex)
          (hrest hpj hip fun _ => ⟨l, hlabel'⟩)
        have hno := writesFlags_of_writesAt hitem3 hwrites
        rw [hop] at hno
        cases hno

/-- **What a run needs the graph finds to be needed.** -/
theorem needed_of_needsFlags (hdistinct : DistinctLabels items) {j : ℕ}
    (h : NeedsFlags (.ofSlots symbol returnAddress (markLocal items stats).slots) j) {i : ℕ}
    (hle : i ≤ j) (hreached : Reached items i)
    (hskips : ∀ k, i ≤ k → k < j →
      (Program.ofSlots symbol returnAddress (markLocal items stats).slots).place k = .skip) :
    Needed ((markLocal items stats).slots.map Slot.item)
      (drawnLeave oob ((markLocal items stats).slots.map Slot.item)) i := by
  induction h generalizing i with
  | @use j instruction hplace huses =>
    refine needed_of_skips hdistinct (fun hskip => Place.noConfusion (hplace.symm.trans hskip)) ?_
      hle hreached hskips
    exact UseFirst.here (uses_of_usesFlags (item_of_place hplace) huses)
  | @step j j' hgoes hkeeps hneeds ih =>
    cases hgoes with
    | skip hplace =>
      refine ih (by omega) hreached fun k hk hkj => ?_
      rcases Nat.lt_succ_iff_lt_or_eq.mp hkj with hlt | rfl
      · exact hskips k hk hlt
      · exact hplace
    | next hplace hgoes hcall =>
      have hnext := ih le_rfl ((reached_of_live (place_eq_run.mp hplace)).2 hgoes)
        fun k hk hkj => absurd hkj (not_lt.mpr hk)
      refine needed_of_skips hdistinct (fun hskip => Place.noConfusion (hplace.symm.trans hskip))
        (needed_of_next (fun hwrites => ?_) (drawn_next (item_of_place hplace) hgoes) hnext)
        hle hreached hskips
      exact Bool.false_ne_true ((hkeeps _ hplace).symm.trans
        (writesFlags_of_writesAt (item_of_place hplace) hwrites))
    | @jump _ reference _ hplace hbranch hret hsymbol haddend htarget =>
      have hindex : labelIndex ((markLocal items stats).slots.map Slot.item) reference.name =
          some j' := htarget
      have hlabel : labelIndex items reference.name = some j' := by
        rw [labelIndex_of_follows (marking_follows.markLocal items stats), items_fresh] at hindex
        exact hindex
      have hnext := ih le_rfl (fun _ => isLabelAt_of_labelIndex hlabel)
        fun k hk hkj => absurd hkj (not_lt.mpr hk)
      refine needed_of_skips hdistinct (fun hskip => Place.noConfusion (hplace.symm.trans hskip))
        (needed_of_next (fun hwrites => ?_)
          (drawn_jump (item_of_place hplace) hbranch hsymbol hindex) hnext) hle hreached hskips
      exact Bool.false_ne_true ((hkeeps _ hplace).symm.trans
        (writesFlags_of_writesAt (item_of_place hplace) hwrites))
    | ret _ _ _ hframe => exact absurd hframe List.not_mem_nil

end

end Optimizer
end MiniTool
