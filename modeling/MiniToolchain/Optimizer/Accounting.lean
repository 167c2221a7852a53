import MiniToolchain.Optimizer.Survivors

/-!
# What the optimizer counts

Every mark is counted once, by the pass that makes it, and only instructions are marked.  The
counters are machine words, so the true counts are kept beside them.

## Main definitions

* `Thins` — a list of items with some of its instructions left out.
* `Tally` — the true counts of the four counters.
* `Counts`, `Accounted` — counters and marks agree with a tally.

## Main results

* `markPasses_accounted` — one run of the passes.
* `optimized_optimizeItems` — all runs, over one section.
* `run_accounted` — the optimizer, over a module.
-/

namespace MiniTool
namespace Optimizer

open Ir

/-! ### Leaving instructions out -/

/-- `bs` is `as` with `n` instructions left out and others rewritten where they stand in the
source. -/
inductive Thins : ℕ → List Item → List Item → Prop
  | nil : Thins 0 [] []
  /-- A label, data or an alignment stays what it is. -/
  | other {n : ℕ} {as bs : List Item} {a : Item} (h : a.isInstruction = false)
    (hrest : Thins n as bs) :
      Thins n (a :: as) (a :: bs)
  /-- An instruction may be rewritten, at its source location. -/
  | instruction {n : ℕ} {as bs : List Item} {i j : Instruction} (h : j.location = i.location)
      (hrest : Thins n as bs) : Thins n (.instruction i :: as) (.instruction j :: bs)
  | drop {n : ℕ} {as bs : List Item} {i : Instruction} (hrest : Thins n as bs) :
      Thins (n + 1) (.instruction i :: as) bs

namespace Thins

variable {n m : ℕ} {as bs cs : List Item}

theorem refl (as : List Item) : Thins 0 as as := by
  induction as with
  | nil => exact .nil
  | cons a as ih =>
    cases a with
    | instruction i => exact .instruction rfl ih
    | _ => exact .other rfl ih

theorem trans (hab : Thins n as bs) (hbc : Thins m bs cs) : Thins (n + m) as cs := by
  induction hab generalizing m cs with
  | nil =>
    rw [Nat.zero_add]
    exact hbc
  | other h _ ih =>
    cases hbc with
    | other _ hrest => exact .other h (ih hrest)
    | instruction => cases h
    | drop => cases h
  | instruction h _ ih =>
    cases hbc with
    | other h' _ => cases h'
    | instruction h' hrest => exact .instruction (h'.trans h) (ih hrest)
    | drop hrest => exact .drop (ih hrest)
  | @drop n as bs i _ ih =>
    rw [Nat.add_right_comm]
    exact .drop (ih hbc)

/-- What is left out are instructions, and none is added. -/
theorem countP_instruction (h : Thins n as bs) :
    as.countP Item.isInstruction = bs.countP Item.isInstruction + n := by
  induction h with
  | nil => rfl
  | other h _ ih =>
    rw [List.countP_cons, List.countP_cons, ih]
    omega
  | instruction _ _ ih =>
    rw [List.countP_cons_of_pos rfl, List.countP_cons_of_pos rfl, ih]
    omega
  | drop _ ih =>
    rw [List.countP_cons_of_pos rfl, ih]
    omega

/-- Everything but the instructions is as it was. -/
theorem filter_other (h : Thins n as bs) :
    bs.filter (fun item => !item.isInstruction) = as.filter fun item => !item.isInstruction := by
  induction h with
  | nil => rfl
  | other h _ ih => rw [List.filter_cons, List.filter_cons, ih]
  | instruction _ _ ih => exact ih
  | drop _ ih => exact ih

/-- The source locations of what is left are those of the original, in their order. -/
theorem sublist_location (h : Thins n as bs) :
    (bs.map itemLocation).Sublist (as.map itemLocation) := by
  induction h with
  | nil => exact List.Sublist.slnil
  | other _ _ ih => exact ih.cons_cons _
  | @instruction _ _ _ i j h _ ih =>
    have hlocation : itemLocation (.instruction j) = itemLocation (.instruction i) := h
    rw [List.map_cons, List.map_cons, hlocation]
    exact ih.cons_cons _
  | drop _ ih => exact ih.cons _

end Thins

/-! ### Counters -/

/-- The true counts of the four counters of removed instructions. -/
structure Tally where
  unreachable : ℕ := 0
  peepholes : ℕ := 0
  identities : ℕ := 0
  deadStores : ℕ := 0

namespace Tally

def total (t : Tally) : ℕ := t.unreachable + t.peepholes + t.identities + t.deadStores

def add (s t : Tally) : Tally where
  unreachable := s.unreachable + t.unreachable
  peepholes := s.peepholes + t.peepholes
  identities := s.identities + t.identities
  deadStores := s.deadStores + t.deadStores

theorem total_add (s t : Tally) : (s.add t).total = s.total + t.total := by
  unfold total add
  dsimp only
  omega

end Tally

/-- The counters have gone up by a tally. -/
structure Counts (stats stats' : OptStats) (t : Tally) : Prop where
  unreachable : stats'.unreachableRemoved = stats.unreachableRemoved + UInt32.ofNat t.unreachable
  peepholes : stats'.peepholesApplied = stats.peepholesApplied + UInt32.ofNat t.peepholes
  identities : stats'.identitiesEliminated = stats.identitiesEliminated + UInt32.ofNat t.identities
  deadStores : stats'.deadStoresRemoved = stats.deadStoresRemoved + UInt32.ofNat t.deadStores
  before : stats'.instructionsBefore = stats.instructionsBefore

theorem Counts.refl (stats : OptStats) : Counts stats stats {} :=
  ⟨(UInt32.add_zero _).symm, (UInt32.add_zero _).symm, (UInt32.add_zero _).symm,
    (UInt32.add_zero _).symm, rfl⟩

theorem Counts.trans {stats stats' stats'' : OptStats} {s t : Tally} (hs : Counts stats stats' s)
    (ht : Counts stats' stats'' t) : Counts stats stats'' (s.add t) := by
  have hsum : ∀ {a b c : UInt32} {m n : ℕ}, b = a + UInt32.ofNat m → c = b + UInt32.ofNat n →
      c = a + UInt32.ofNat (m + n) := by
    rintro a b c m n rfl rfl
    rw [UInt32.ofNat_add, UInt32.add_assoc]
  exact ⟨hsum hs.unreachable ht.unreachable, hsum hs.peepholes ht.peepholes,
    hsum hs.identities ht.identities, hsum hs.deadStores ht.deadStores, ht.before.trans hs.before⟩

/-! ### Marks -/

/-- The bit of a slot. -/
def bit (slot : Slot) : ℕ := if slot.remove then 1 else 0

/-- The number of marks. -/
def marked : List Slot → ℕ
  | [] => 0
  | slot :: rest => bit slot + marked rest

theorem bit_of_live? {slot : Slot} {instruction : Instruction} (h : slot.live? = some instruction) :
    bit slot = 0 := by
  unfold bit
  rw [(Slot.live?_eq_some h).1]
  rfl

theorem marked_modify {slots : List Slot} {i : ℕ} {slot : Slot} {f : Slot → Slot}
    (h : slots[i]? = some slot) :
    marked (slots.modify i f) + bit slot = marked slots + bit (f slot) := by
  induction slots generalizing i with
  | nil => cases h
  | cons first rest ih =>
    cases i with
    | zero =>
      cases h
      show bit (f slot) + marked rest + bit slot = bit slot + marked rest + bit (f slot)
      omega
    | succ i =>
      have hrest := ih h
      show bit first + marked (rest.modify i f) + bit slot = bit first + marked rest + bit (f slot)
      omega

/-- From `w` to `w'` the marks and the counters have gone up by the same tally, and nothing has if
nothing is reported to have changed. -/
structure Accounted (w w' : Work) (t : Tally) : Prop where
  marks : marked w'.slots = marked w.slots + t.total
  counts : Counts w.stats w'.stats t
  changed : w'.changed = false → w.changed = false ∧ t.total = 0

namespace Accounted

variable {w w' w'' : Work} {s t : Tally}

theorem refl (w : Work) : Accounted w w {} := ⟨rfl, Counts.refl _, fun h => ⟨h, rfl⟩⟩

theorem trans (hs : Accounted w w' s) (ht : Accounted w' w'' t) : Accounted w w'' (s.add t) := by
  refine ⟨?_, hs.counts.trans ht.counts, fun h => ?_⟩
  · rw [ht.marks, hs.marks, Tally.total_add]
    omega
  · obtain ⟨h', htotal⟩ := ht.changed h
    obtain ⟨h'', hstotal⟩ := hs.changed h'
    refine ⟨h'', ?_⟩
    rw [Tally.total_add]
    omega

/-- A loop over a list of slots takes care of the first one, and of the others after it. -/
theorem cons {slot slot' : Slot} {rest : List Slot} {stats stats' : OptStats}
    {changed changed' : Bool} (hbit : bit slot' = bit slot + s.total)
    (hcounts : Counts stats stats' s) (hchanged : changed' = false → changed = false ∧ s.total = 0)
    (h : Accounted ⟨rest, stats', changed'⟩ w t) :
    Accounted ⟨slot :: rest, stats, changed⟩ { w with slots := slot' :: w.slots } (s.add t) := by
  refine ⟨?_, hcounts.trans h.counts, fun hw => ?_⟩
  · have hmarks := h.marks
    show bit slot' + marked w.slots = bit slot + marked rest + _
    rw [hmarks, Tally.total_add]
    dsimp only
    omega
  · obtain ⟨h', htotal⟩ := h.changed hw
    obtain ⟨h'', hstotal⟩ := hchanged h'
    refine ⟨h'', ?_⟩
    rw [Tally.total_add]
    omega

/-- A slot that is left as it is, or rewritten. -/
theorem keep {slot slot' : Slot} {rest : List Slot} {stats : OptStats} {changed changed' : Bool}
    (hbit : slot'.remove = slot.remove) (hchanged : changed' = false → changed = false)
    (h : Accounted ⟨rest, stats, changed'⟩ w t) :
    Accounted ⟨slot :: rest, stats, changed⟩ { w with slots := slot' :: w.slots }
      (Tally.add {} t) :=
  cons (by unfold bit; rw [hbit]; rfl) (Counts.refl stats) (fun h => ⟨hchanged h, rfl⟩) h

/-- A slot that is marked and counted. -/
theorem mark {slot slot' : Slot} {rest : List Slot} {stats stats' : OptStats} {changed : Bool}
    (hlive : bit slot = 0) (hmark : slot'.remove = true) (hcounts : Counts stats stats' s)
    (htotal : s.total = 1) (h : Accounted ⟨rest, stats', true⟩ w t) :
    Accounted ⟨slot :: rest, stats, changed⟩ { w with slots := slot' :: w.slots } (s.add t) := by
  refine cons ?_ hcounts (nofun : true = false → changed = false ∧ s.total = 0) h
  rw [hlive, htotal]
  unfold bit
  rw [hmark]
  rfl

end Accounted

/-! ### The passes -/

theorem countsUnreachable (stats : OptStats) :
    Counts stats { stats with unreachableRemoved := stats.unreachableRemoved + 1 }
      { unreachable := 1 } :=
  ⟨rfl, (UInt32.add_zero _).symm, (UInt32.add_zero _).symm, (UInt32.add_zero _).symm, rfl⟩

theorem countsPeephole (stats : OptStats) :
    Counts stats { stats with peepholesApplied := stats.peepholesApplied + 1 }
      { peepholes := 1 } :=
  ⟨(UInt32.add_zero _).symm, rfl, (UInt32.add_zero _).symm, (UInt32.add_zero _).symm, rfl⟩

theorem countsIdentity (stats : OptStats) :
    Counts stats { stats with identitiesEliminated := stats.identitiesEliminated + 1 }
      { identities := 1 } :=
  ⟨(UInt32.add_zero _).symm, (UInt32.add_zero _).symm, rfl, (UInt32.add_zero _).symm, rfl⟩

theorem countsDeadStore (stats : OptStats) :
    Counts stats { stats with deadStoresRemoved := stats.deadStoresRemoved + 1 }
      { deadStores := 1 } :=
  ⟨(UInt32.add_zero _).symm, (UInt32.add_zero _).symm, (UInt32.add_zero _).symm, rfl, rfl⟩

/-- The first pass finds no marks, so that it marks nothing twice. -/
theorem unreachable_accounted (reachable : Bool) (stats : OptStats) (changed : Bool)
    {slots : List Slot} (hfresh : ∀ slot ∈ slots, slot.remove = false) :
    ∃ t, Accounted ⟨slots, stats, changed⟩ (unreachable reachable stats changed slots) t := by
  induction slots generalizing reachable stats changed with
  | nil => exact ⟨_, Accounted.refl _⟩
  | cons slot rest ih =>
    have hrest : ∀ s ∈ rest, s.remove = false := fun s hs => hfresh s (List.mem_cons_of_mem _ hs)
    have hkeep : ∀ reachable, ∃ t, Accounted ⟨slot :: rest, stats, changed⟩
        { unreachable reachable stats changed rest with
          slots := slot :: (unreachable reachable stats changed rest).slots } t := by
      intro reachable
      obtain ⟨t, ht⟩ := ih reachable stats changed hrest
      exact ⟨_, ht.keep rfl id⟩
    unfold unreachable
    dsimp only
    split
    · exact hkeep true
    · split_ifs
      · obtain ⟨t, ht⟩ := ih false
          { stats with unreachableRemoved := stats.unreachableRemoved + 1 } true hrest
        refine ⟨_, ht.mark ?_ rfl (countsUnreachable stats) rfl⟩
        unfold bit
        rw [hfresh slot List.mem_cons_self]
        rfl
      · exact hkeep _
    · exact hkeep reachable

/-- A pair is counted once for each of its instructions that goes. -/
theorem peephole_accounted (stats : OptStats) (changed : Bool) (slots : List Slot) :
    ∃ t, Accounted ⟨slots, stats, changed⟩ (peephole stats changed slots) t := by
  induction stats, changed, slots using peephole.induct with
  | case1 stats changed => exact ⟨_, Accounted.refl _⟩
  | case2 stats changed slot => exact ⟨_, Accounted.refl _⟩
  | case3 stats changed a b rest first second hsecond hfirst hop hsame ih =>
    obtain ⟨t, ht⟩ := ih
    rw [peephole, hfirst, hsecond]
    simp only [hop, hsame, and_self, if_true]
    have htwo : Counts { stats with peepholesApplied := stats.peepholesApplied + 1 }
        { stats with peepholesApplied := stats.peepholesApplied + 2 } { peepholes := 1 } :=
      ⟨(UInt32.add_zero _).symm, (UInt32.add_assoc _ 1 1).symm, (UInt32.add_zero _).symm,
        (UInt32.add_zero _).symm, rfl⟩
    have hb : Accounted ⟨b :: rest, _, true⟩ _ _ := ht.mark (bit_of_live? hsecond)
      (rfl : { b with remove := true : Slot }.remove = true) htwo rfl
    exact ⟨_, hb.mark (bit_of_live? hfirst) rfl (countsPeephole stats) rfl⟩
  | case4 stats changed a b rest first second hsecond hfirst hop hdiff ih =>
    obtain ⟨t, ht⟩ := ih
    rw [peephole, hfirst, hsecond]
    simp only [hop, hdiff, and_self, if_true, if_false]
    have hb : Accounted ⟨b :: rest, _, true⟩ _ _ := ht.mark (bit_of_live? hsecond)
      (rfl : { b with remove := true : Slot }.remove = true) (countsPeephole stats) rfl
    refine ⟨_, hb.keep ?_ (Bool.noConfusion : true = false → changed = false)⟩
    rfl
  | case5 stats changed a b rest first second hsecond hfirst hop ih =>
    obtain ⟨t, ht⟩ := ih
    rw [peephole, hfirst, hsecond]
    simp only [hop, if_false]
    exact ⟨_, ht.keep rfl id⟩
  | case6 stats changed a b rest hnot ih =>
    obtain ⟨t, ht⟩ := ih
    rw [peephole]
    split
    · next first second hfirst hsecond =>
      exact absurd hsecond fun hsecond => hnot first second hfirst hsecond
    · exact ⟨_, ht.keep rfl id⟩

theorem jumpToNext_accounted (stats : OptStats) (changed : Bool) (slots : List Slot) :
    ∃ t, Accounted ⟨slots, stats, changed⟩ (jumpToNext stats changed slots) t := by
  induction slots generalizing stats changed with
  | nil => exact ⟨_, Accounted.refl _⟩
  | cons slot rest ih =>
    unfold jumpToNext
    dsimp only
    split_ifs with hgoes
    · obtain ⟨instruction, hlive, -⟩ := (Option.any_eq_true _ _).mp hgoes
      obtain ⟨t, ht⟩ := ih { stats with peepholesApplied := stats.peepholesApplied + 1 } true
      exact ⟨_, ht.mark (bit_of_live? hlive) rfl (countsPeephole stats) rfl⟩
    · obtain ⟨t, ht⟩ := ih stats changed
      exact ⟨_, ht.keep rfl id⟩

/-- Folding counts no removal. -/
theorem foldConstant_accounted (flow : ControlFlow) (blockIndex : ℕ) (state : ConstantMap × Work)
    (i : ℕ) : ∃ t, Accounted state.2 (foldConstant flow blockIndex state i).2 t := by
  unfold foldConstant
  dsimp only
  cases hslot : state.2.slots[i]? with
  | none => exact ⟨_, Accounted.refl _⟩
  | some slot =>
    rw [Option.bind_some]
    cases hlive : slot.live? with
    | none => exact ⟨_, Accounted.refl _⟩
    | some instruction =>
      dsimp only
      split
      · exact ⟨_, Accounted.refl _⟩
      · refine ⟨{}, ?_,
          ⟨(UInt32.add_zero _).symm, (UInt32.add_zero _).symm, (UInt32.add_zero _).symm,
            (UInt32.add_zero _).symm, rfl⟩, nofun⟩
        have hmodify := marked_modify hslot
          (f := fun slot => { slot with item := .instruction ‹Instruction› })
        exact Nat.add_right_cancel hmodify

/-- A loop all of whose turns are accounted for. -/
theorem foldl_accounted {α β : Type} {step : α → β → α} (work : α → Work)
    (hstep : ∀ a b, ∃ t, Accounted (work a) (work (step a b)) t) (a : α) (bs : List β) :
    ∃ t, Accounted (work a) (work (bs.foldl step a)) t := by
  induction bs generalizing a with
  | nil => exact ⟨_, Accounted.refl _⟩
  | cons b bs ih =>
    obtain ⟨s, hs⟩ := hstep a b
    obtain ⟨t, ht⟩ := ih (step a b)
    exact ⟨_, hs.trans ht⟩

theorem foldConstants_accounted (flow : ControlFlow) (w : Work) :
    ∃ t, Accounted w (foldConstants flow w) t := by
  refine foldl_accounted id (fun w block => ?_) w _
  exact foldl_accounted (fun state : ConstantMap × Work => state.2)
    (fun state i => foldConstant_accounted flow block.2 state i) (ConstantMap.empty, w) _

theorem removeAt_accounted {w : Work} {i : ℕ} {instruction : Instruction}
    {stats : OptStats} {s : Tally} (h : (w.slots[i]?).bind Slot.live? = some instruction)
    (hcounts : Counts w.stats stats s) (htotal : s.total = 1) :
    Accounted w (w.removeAt i stats) s := by
  cases hslot : w.slots[i]? with
  | none =>
    rw [hslot] at h
    cases h
  | some slot =>
    rw [hslot, Option.bind_some] at h
    refine ⟨?_, hcounts, nofun⟩
    have hmodify := marked_modify hslot (f := fun slot => { slot with remove := true })
    rw [bit_of_live? h, Nat.add_zero] at hmodify
    rw [htotal]
    exact hmodify

theorem eliminateIdentity_accounted (w : Work) (i : ℕ) :
    ∃ t, Accounted w (eliminateIdentity w i) t := by
  unfold eliminateIdentity
  split_ifs with h
  · obtain ⟨instruction, hlive, -⟩ := (Option.any_eq_true _ _).mp h
    exact ⟨_, removeAt_accounted hlive (countsIdentity _) rfl⟩
  · exact ⟨_, Accounted.refl _⟩

theorem eliminateDeadStore_accounted (block : Block) (w : Work) (i : ℕ) :
    ∃ t, Accounted w (eliminateDeadStore block w i) t := by
  unfold eliminateDeadStore
  dsimp only
  split_ifs with h
  · obtain ⟨instruction, hlive, -⟩ := (Option.any_eq_true _ _).mp h
    exact ⟨_, removeAt_accounted hlive (countsDeadStore _) rfl⟩
  · exact ⟨_, Accounted.refl _⟩

theorem forBlocks_accounted (flow : ControlFlow) {step : Block → Work → ℕ → Work}
    (hstep : ∀ block w i, ∃ t, Accounted w (step block w i) t) (w : Work) :
    ∃ t, Accounted w (forBlocks flow step w) t :=
  foldl_accounted id (fun w block =>
    foldl_accounted id (fun w i => hstep block w i) w block.positions) w flow.blocks

/-- **One run of the passes counts each mark once.** -/
theorem markPasses_accounted (oob : Bool) (items : List Item) (stats : OptStats) :
    ∃ t, Accounted ⟨items.map fresh, stats, false⟩ (markPasses oob items stats) t := by
  have hfresh : ∀ slot ∈ items.map fresh, slot.remove = false := by
    intro slot hslot
    obtain ⟨item, -, rfl⟩ := List.mem_map.mp hslot
    rfl
  -- the first pass, then each of the others on what the one before it leaves
  have hstep : ∀ {w w' : Work}, (∃ t, Accounted ⟨items.map fresh, stats, false⟩ w t) →
      (∃ t, Accounted w w' t) → ∃ t, Accounted ⟨items.map fresh, stats, false⟩ w' t := by
    rintro w w' ⟨s, hs⟩ ⟨t, ht⟩
    exact ⟨_, hs.trans ht⟩
  have hlocal := hstep (hstep (unreachable_accounted true stats false hfresh)
    (peephole_accounted _ _ _)) (jumpToNext_accounted _ _ _)
  exact hstep (hstep (hstep hlocal (foldConstants_accounted _ _))
    (forBlocks_accounted _ (fun _ => eliminateIdentity_accounted) _))
    (forBlocks_accounted _ eliminateDeadStore_accounted _)

/-! ### Source locations -/

/-- Where the items of the slots stand in the source. -/
def locations (slots : List Slot) : List SourceLocation := slots.map fun slot =>
    itemLocation slot.item

/-- The passes leave every item where it stood in the source. -/
theorem marking_location : Marking fun a b => itemLocation b.item = itemLocation a.item where
  refl _ := rfl
  trans hab hbc := hbc.trans hab
  remove _ _ := rfl
  rewrite hlive _ _ hlocation := by
    rw [(Slot.live?_eq_some hlive).2]
    exact hlocation
  mark _ := rfl

theorem locations_markPasses (oob : Bool) (items : List Item) (stats : OptStats) :
    locations (markPasses oob items stats).slots = items.map itemLocation := by
  have hsame : ∀ {as bs : List Slot},
      List.Forall₂ (fun a b => itemLocation b.item = itemLocation a.item) as bs →
      locations bs = locations as := by
    intro as bs h
    induction h with
    | nil => rfl
    | cons hone _ ih => exact congrArg₂ List.cons hone ih
  rw [hsame (marking_location.markPasses oob items stats)]
  unfold locations
  rw [List.map_map]
  rfl

/-! ### A section -/

/-- What is not marked is what is left of the items. -/
theorem thins_kept {items : List Item} {slots : List Slot} (h : FollowsAll (items.map fresh) slots)
    (hlocations : locations slots = items.map itemLocation) :
    Thins (marked slots) items (kept slots) := by
  induction slots generalizing items with
  | nil =>
    cases items with
    | nil => exact .nil
    | cons item items => cases h
  | cons slot rest ih =>
    cases items with
    | nil => cases h
    | cons item items =>
      cases h with
      | cons hslot hrest =>
        obtain ⟨hlocation, hlocations⟩ := List.cons.inj hlocations
        have hthins := ih hrest hlocations
        rw [kept_cons]
        show Thins (bit slot + marked rest) _ _
        unfold bit
        cases item with
        | instruction i =>
          by_cases hremove : slot.remove = true
          · rw [if_pos hremove, if_pos hremove, Nat.add_comm]
            exact .drop hthins
          · rw [if_neg hremove, if_neg hremove, Nat.zero_add]
            have hinstruction := hslot.instruction rfl
            replace hlocation : itemLocation slot.item = i.location := hlocation
            cases hitem : slot.item with
            | instruction j =>
              rw [hitem] at hlocation
              exact .instruction hlocation hthins
            | _ =>
              rw [hitem] at hinstruction
              cases hinstruction
        | _ =>
          rw [hslot.other rfl]
          show Thins (0 + marked rest) (_ :: items) (_ :: kept rest)
          rw [Nat.zero_add]
          exact .other rfl hthins

/-- What was counted is what is missing. -/
structure Optimized (items items' : List Item) (stats stats' : OptStats) (t : Tally) : Prop where
  thins : Thins t.total items items'
  counts : Counts stats stats' t

theorem marked_fresh (items : List Item) : marked (items.map fresh) = 0 := by
  induction items with
  | nil => rfl
  | cons item items ih =>
    show bit (fresh item) + marked (items.map fresh) = 0
    rw [ih]
    rfl

theorem optimized_runPasses (oob : Bool) (items : List Item) (stats : OptStats) :
    ∃ t, Optimized items (runPasses oob items stats).1 stats (runPasses oob items stats).2.1 t ∧
      t.total = marked (markPasses oob items stats).slots := by
  obtain ⟨t, hmarks, hcounts, hchanged⟩ := markPasses_accounted oob items stats
  have hfollows := markPasses_follows oob items stats
  have hlocations := locations_markPasses oob items stats
  have hthins := thins_kept hfollows hlocations
  dsimp only at hmarks hcounts hchanged
  rw [marked_fresh, Nat.zero_add] at hmarks
  refine ⟨t, ⟨?_, hcounts⟩, hmarks.symm⟩
  unfold runPasses
  dsimp only
  split_ifs with h
  · rw [← hmarks]
    exact hthins
  · -- without a change nothing is marked, and the items are written back as they are
    obtain ⟨-, htotal⟩ := hchanged (by simpa using h)
    rw [htotal]
    have hnone := thins_kept (unmarked_follows hfollows) (by
      unfold locations at hlocations ⊢
      rw [List.map_map, ← hlocations, List.map_map]
      rfl)
    rw [marked_fresh, kept_fresh] at hnone
    exact hnone

theorem Optimized.trans {items items' items'' : List Item} {stats stats' stats'' : OptStats}
    {s t : Tally} (hs : Optimized items items' stats stats' s)
    (ht : Optimized items' items'' stats' stats'' t) :
    Optimized items items'' stats stats'' (s.add t) := by
  refine ⟨?_, hs.counts.trans ht.counts⟩
  rw [Tally.total_add]
  exact hs.thins.trans ht.thins

theorem optimized_optimizeItems (oob : ℕ → Bool) (n : ℕ) (items : List Item) (stats : OptStats) :
    ∃ t, Optimized items (optimizeItems oob n items stats).1 stats
      (optimizeItems oob n items stats).2 t := by
  induction n generalizing items stats with
  | zero => exact ⟨{}, Thins.refl items, Counts.refl stats⟩
  | succ n ih =>
    obtain ⟨s, hs, -⟩ := optimized_runPasses (oob n) items stats
    unfold optimizeItems
    generalize runPasses (oob n) items stats = result at hs
    obtain ⟨items', stats', changed⟩ := result
    dsimp only at hs ⊢
    split_ifs
    · obtain ⟨t, ht⟩ := ih items' stats'
      exact ⟨_, hs.trans ht⟩
    · exact ⟨s, hs⟩

/-! ### A module -/

/-- What the optimizer keeps of a section: everything but the items of `.text`, and of those the
labels, the data and the alignments, with what is left of the instructions in between. -/
structure SectionKept (s s' : Section) : Prop where
  kind : s'.kind = s.kind
  name : s'.name = s.name
  alignment : s'.alignment = s.alignment
  other : s.kind ≠ .text → s' = s
  thins : ∃ n, Thins n s.items s'.items
  filter_other : s'.items.filter (fun item => !item.isInstruction) =
    s.items.filter fun item => !item.isInstruction
  sublist_location : (s'.items.map itemLocation).Sublist (s.items.map itemLocation)

theorem SectionKept.of_thins {s s' : Section} {n : ℕ} (hkind : s'.kind = s.kind)
    (hname : s'.name = s.name) (halignment : s'.alignment = s.alignment)
    (hother : s.kind ≠ .text → s' = s) (h : Thins n s.items s'.items) : SectionKept s s' :=
  ⟨hkind, hname, halignment, hother, ⟨n, h⟩, h.filter_other, h.sublist_location⟩

/-- Labels, data and alignments are all there, and none is new. -/
theorem SectionKept.items {s s' : Section} (h : SectionKept s s') {item : Item}
    (hitem : item.isInstruction = false) : item ∈ s'.items ↔ item ∈ s.items := by
  have hfilter : ∀ items : List Item, item ∈ items.filter (fun item => !item.isInstruction) ↔
      item ∈ items := by
    intro items
    simp [List.mem_filter, hitem]
  rw [← hfilter s'.items, h.filter_other, hfilter]

/-- The instructions of some sections. -/
def instructionsOf (sections : List Section) : ℕ :=
  (sections.map fun s => s.items.countP Item.isInstruction).sum

theorem optimizeSections_accounted (oob : ℕ → Bool) (stats : OptStats) (sections : List Section) :
    List.Forall₂ SectionKept sections (optimizeSections oob stats sections).1 ∧
      ∃ t, Counts stats (optimizeSections oob stats sections).2 t ∧
        instructionsOf sections =
          instructionsOf (optimizeSections oob stats sections).1 + t.total := by
  induction sections generalizing stats with
  | nil => exact ⟨.nil, {}, Counts.refl stats, rfl⟩
  | cons s rest ih =>
    unfold optimizeSections
    by_cases hkind : s.kind = .text
    · obtain ⟨u, hthins, hcounts⟩ := optimized_optimizeItems oob kMaxIterations s.items stats
      rw [if_pos hkind]
      unfold optimizeSection
      generalize optimizeItems oob kMaxIterations s.items stats = result at hthins hcounts
      obtain ⟨items, stats'⟩ := result
      dsimp only at hthins hcounts ⊢
      obtain ⟨hkept, t, ht, htotal⟩ := ih stats'
      refine ⟨.cons (.of_thins rfl rfl rfl (fun h => absurd hkind h) hthins) hkept, u.add t,
        hcounts.trans ht, ?_⟩
      have hcount := hthins.countP_instruction
      unfold instructionsOf at htotal ⊢
      rw [List.map_cons, List.sum_cons, List.map_cons, List.sum_cons, htotal, hcount,
        Tally.total_add]
      dsimp only
      omega
    · rw [if_neg hkind]
      obtain ⟨hkept, t, ht, htotal⟩ := ih stats
      refine ⟨.cons (.of_thins rfl rfl rfl (fun _ => rfl) (Thins.refl s.items)) hkept, t, ht, ?_⟩
      unfold instructionsOf at htotal ⊢
      rw [List.map_cons, List.sum_cons, List.map_cons, List.sum_cons, htotal]
      omega

/-- The frame of the optimizer, and its counters as far as they are machine words. -/
theorem run_accounted (oob : ℕ → Bool) (level : OptLevel) (m : Module) :
    (run oob level m).1.globals = m.globals ∧ (run oob level m).1.externs = m.externs ∧
      (run oob level m).1.weaks = m.weaks ∧
      List.Forall₂ SectionKept m.sections (run oob level m).1.sections ∧
      (run oob level m).2.instructionsBefore = m.instructionCount ∧
      (run oob level m).2.instructionsAfter = (run oob level m).1.instructionCount ∧
      ∃ t, Counts {} { (run oob level m).2 with instructionsBefore := 0 } t ∧
        (run oob level m).2.instructionsBefore =
        (run oob level m).2.instructionsAfter + t.total := by
  cases level with
  | O0 =>
    have hsame : List.Forall₂ SectionKept m.sections m.sections :=
      List.forall₂_same.mpr fun s _ => .of_thins rfl rfl rfl (fun _ => rfl) (Thins.refl s.items)
    exact ⟨rfl, rfl, rfl, hsame, rfl, rfl, {}, ⟨rfl, rfl, rfl, rfl, rfl⟩, rfl⟩
  | O1 =>
    obtain ⟨hkept, t, hcounts, htotal⟩ := optimizeSections_accounted oob
      { instructionsBefore := m.instructionCount } m.sections
    exact ⟨rfl, rfl, rfl, hkept, hcounts.before, rfl, t,
      ⟨hcounts.unreachable, hcounts.peepholes, hcounts.identities, hcounts.deadStores, rfl⟩,
      hcounts.before.trans htotal⟩

/-- A module of nothing but `n` HALTs. -/
def halts (n : ℕ) : Module where
  sections := [
    { name := str ".text"
      items := List.replicate n (.instruction ⟨{ opcode := .HALT }, none, {}⟩) }]

theorem instructionCount_of_halts (n : ℕ) : (halts n).instructionCount = n := by
  show (List.replicate n (Item.instruction _)).countP Item.isInstruction + 0 = n
  rw [List.countP_replicate]
  rfl

/-- Every instruction is marked once the code is unreachable. -/
theorem removed_of_unreachable (stats : OptStats) (changed : Bool) (slots : List Slot)
    (h : ∀ slot ∈ slots, slot.item.isInstruction = true) :
    ∀ slot ∈ (unreachable false stats changed slots).slots, slot.remove = true := by
  induction slots generalizing stats changed with
  | nil => nofun
  | cons slot rest ih =>
    have hinstruction := h slot List.mem_cons_self
    have hrest := fun s hs => h s (List.mem_cons_of_mem _ hs)
    unfold unreachable
    dsimp only
    split
    · next hitem =>
      rw [hitem] at hinstruction
      cases hinstruction
    · rw [if_pos Bool.not_false]
      intro s hs
      rcases List.mem_cons.mp hs with rfl | hs
      · rfl
      · exact ih _ _ hrest s hs
    · next hnot =>
      cases hitem : slot.item with
      | instruction i => exact absurd hitem (hnot i)
      | _ =>
        rw [hitem] at hinstruction
        cases hinstruction

theorem removed_of_follows {as bs : List Slot} (hfollows : FollowsAll as bs)
    (h : ∀ slot ∈ as, slot.remove = true) : ∀ slot ∈ bs, slot.remove = true := by
  induction hfollows with
  | nil => nofun
  | cons hslot _ ih =>
    intro slot hmem
    rcases List.mem_cons.mp hmem with rfl | hmem
    · exact hslot.removed (h _ List.mem_cons_self)
    · exact ih (fun s hs => h s (List.mem_cons_of_mem _ hs)) slot hmem

theorem le_marked {slots : List Slot} (h : ∀ slot ∈ slots, slot.remove = true) :
    slots.length ≤ marked slots := by
  induction slots with
  | nil => exact Nat.le_refl 0
  | cons slot rest ih =>
    have hrest := ih fun s hs => h s (List.mem_cons_of_mem _ hs)
    have hbit : bit slot = 1 := by
      unfold bit
      rw [h slot List.mem_cons_self]
      rfl
    show rest.length + 1 ≤ bit slot + marked rest
    omega

/-- What the first run marks is missing in the end. -/
theorem countP_optimizeItems (oob : ℕ → Bool) (n : ℕ) (items : List Item) (stats : OptStats) :
    (optimizeItems oob (n + 1) items stats).1.countP Item.isInstruction +
      marked (markPasses (oob n) items stats).slots ≤ items.countP Item.isInstruction := by
  obtain ⟨s, ⟨hthins, -⟩, htotal⟩ := optimized_runPasses (oob n) items stats
  have hfirst := hthins.countP_instruction
  rw [← htotal]
  unfold optimizeItems
  generalize runPasses (oob n) items stats = result at hfirst
  obtain ⟨items', stats', changed⟩ := result
  dsimp only at hfirst ⊢
  split_ifs
  · obtain ⟨t, ⟨hrest, -⟩⟩ := optimized_optimizeItems oob n items' stats'
    have hcount := hrest.countP_instruction
    omega
  · dsimp only
    omega

/-- Of many HALTs only the first is left. -/
theorem instructionCount_halts (oob : ℕ → Bool) (n : ℕ) :
    (run oob .O1 (halts (n + 1))).1.instructionCount ≤ 1 := by
  let halt : Item := .instruction ⟨{ opcode := .HALT }, none, {}⟩
  let stats : OptStats := { instructionsBefore := (halts (n + 1)).instructionCount }
  have hcount : (List.replicate (n + 1) halt).countP Item.isInstruction = n + 1 :=
    instructionCount_of_halts (n + 1)
  -- the first HALT ends the code, and the others are marked
  have hunreachable : ∃ stats' changed, (unreachable true stats false
      ((List.replicate (n + 1) halt).map fresh)).slots =
        fresh halt ::
            (unreachable false stats' changed ((List.replicate n halt).map fresh)).slots :=
    ⟨_, _, rfl⟩
  obtain ⟨stats', changed, hslots⟩ := hunreachable
  have hremoved := removed_of_unreachable stats' changed ((List.replicate n halt).map fresh) (by
    intro slot hslot
    obtain ⟨item, hitem, rfl⟩ := List.mem_map.mp hslot
    rw [List.eq_of_mem_replicate hitem]
    rfl)
  have hfollows : FollowsAll
      (unreachable true stats false ((List.replicate (n + 1) halt).map fresh)).slots
      (markPasses (oob 7) (List.replicate (n + 1) halt) stats).slots :=
    marking_follows.all_trans (marking_follows.all_trans (marking_follows.toEditing.peephole _ _ _)
      (marking_follows.jumpToNext _ _ _)) (marking_follows.toEditing.markBlocks _ _)
  rw [hslots] at hfollows
  have hmarked : n ≤ marked (markPasses (oob 7) (List.replicate (n + 1) halt) stats).slots := by
    generalize (markPasses (oob 7) (List.replicate (n + 1) halt) stats).slots = slots at hfollows
    cases hfollows with
    | @cons _ slot _ rest _ hrest =>
      have hle := le_marked (removed_of_follows hrest hremoved)
      have hlength := length_of_follows hrest
      have hfirst := length_of_follows (marking_follows.unreachable false stats' changed
        ((List.replicate n halt).map fresh))
      rw [List.length_map, List.length_replicate] at hfirst
      show n ≤ bit slot + marked rest
      omega
  have hafter := countP_optimizeItems oob 7 (List.replicate (n + 1) halt) stats
  rw [hcount] at hafter
  show (optimizeItems oob (7 + 1) (List.replicate (n + 1) halt) stats).1.countP Item.isInstruction +
    0 ≤ 1
  omega

/-- The four counters add up to the instructions that are missing. -/
def CountersAgree (oob : ℕ → Bool) (level : OptLevel) (m : Module) : Prop :=
  let (_, stats) := run oob level m
  stats.instructionsBefore - stats.instructionsAfter =
    stats.unreachableRemoved.toNat + stats.peepholesApplied.toNat +
      stats.identitiesEliminated.toNat + stats.deadStoresRemoved.toNat

/-- The four counters together hold less than `2 ^ 34`. -/
theorem counters_lt {oob : ℕ → Bool} {level : OptLevel} {m : Module}
    (h : (run oob level m).1.instructionCount + 2 ^ 34 ≤ m.instructionCount) :
    ¬CountersAgree oob level m := by
  obtain ⟨-, -, -, -, hbefore, hafter, -⟩ := run_accounted oob level m
  unfold CountersAgree
  generalize run oob level m = result at h hbefore hafter
  obtain ⟨m', stats⟩ := result
  dsimp only at h hbefore hafter ⊢
  have h1 := stats.unreachableRemoved.toNat_lt
  have h2 := stats.peepholesApplied.toNat_lt
  have h3 := stats.identitiesEliminated.toNat_lt
  have h4 := stats.deadStoresRemoved.toNat_lt
  omega

/-- The counters are words of 32 bits: they do not account for more removals than they can hold. -/
theorem counters_wrap : ¬CountersAgree (fun _ => false) .O1 (halts (2 ^ 34 + 1)) := by
  have hbefore := instructionCount_of_halts (2 ^ 34 + 1)
  have hafter := instructionCount_halts (fun _ => false) (2 ^ 34)
  have hroom : ∀ a b : ℕ, b = 2 ^ 34 + 1 → a ≤ 1 → a + 2 ^ 34 ≤ b := by omega
  exact counters_lt (hroom _ _ hbefore hafter)

/-- The optimizer leaves everything but the items of `.text` alone, and of those the labels, the
data and the alignments; it only leaves instructions out, and as long as they are fewer than
`2 ^ 32` the four counters add up to them (and in any case modulo `2 ^ 32`). -/
theorem optimizer_frame (oob : ℕ → Bool) (level : OptLevel) (m : Module) :
    let (m', stats) := run oob level m
    m'.globals = m.globals ∧ m'.externs = m.externs ∧ m'.weaks = m.weaks ∧
      List.Forall₂ SectionKept m.sections m'.sections ∧
      stats.instructionsBefore = m.instructionCount ∧
      stats.instructionsAfter = m'.instructionCount ∧
      stats.instructionsAfter ≤ stats.instructionsBefore ∧
      UInt32.ofNat (stats.instructionsBefore - stats.instructionsAfter) =
        stats.unreachableRemoved + stats.peepholesApplied + stats.identitiesEliminated +
          stats.deadStoresRemoved ∧
      (stats.instructionsBefore - stats.instructionsAfter < 2 ^ 32 →
        CountersAgree oob level m) := by
  obtain ⟨hglobals, hexterns, hweaks, hsections, hbefore, hafter, t, hcounts, htotal⟩ :=
    run_accounted oob level m
  unfold CountersAgree
  generalize run oob level m = result at *
  obtain ⟨m', stats⟩ := result
  have hunreachable : stats.unreachableRemoved = UInt32.ofNat t.unreachable :=
    hcounts.unreachable.trans (UInt32.zero_add _)
  have hpeepholes : stats.peepholesApplied = UInt32.ofNat t.peepholes :=
    hcounts.peepholes.trans (UInt32.zero_add _)
  have hidentities : stats.identitiesEliminated = UInt32.ofNat t.identities :=
    hcounts.identities.trans (UInt32.zero_add _)
  have hdeadStores : stats.deadStoresRemoved = UInt32.ofNat t.deadStores :=
    hcounts.deadStores.trans (UInt32.zero_add _)
  dsimp only at htotal hbefore hafter ⊢
  have hmissing : stats.instructionsBefore - stats.instructionsAfter = t.total := by omega
  refine ⟨hglobals, hexterns, hweaks, hsections, hbefore, hafter, by omega, ?_, fun hfew => ?_⟩
  · rw [hmissing, hunreachable, hpeepholes, hidentities, hdeadStores, ← UInt32.ofNat_add,
      ← UInt32.ofNat_add, ← UInt32.ofNat_add]
    rfl
  · rw [hmissing] at hfew ⊢
    unfold Tally.total at hfew ⊢
    rw [hunreachable, hpeepholes, hidentities, hdeadStores, UInt32.toNat_ofNat',
      UInt32.toNat_ofNat', UInt32.toNat_ofNat', UInt32.toNat_ofNat']
    omega

end Optimizer
end MiniTool
