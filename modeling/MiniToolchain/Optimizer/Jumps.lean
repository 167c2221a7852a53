import MiniToolchain.Optimizer.Branches

/-!
# Which jumps the optimizer deletes

A jump goes when nothing reaches it, or when its label follows it and nothing that stays stands in
between. Whether nothing stands in between is only known once all runs of the passes are over;
whether nothing reaches the jump can be seen in the section as it was written.

## Main definitions

* `LeadsOn` — a label follows, after other labels and what is removed.
* `ReliesOn` — the optimizer takes a name to be the label of the section.

## Main results

* `cases_of_removed` — the jumps that the optimizer deletes.
* `label_of_reliesOn` — the section has a label of every name that the optimizer relies on.
-/

namespace MiniTool
namespace Optimizer

open Ir

/-- The slot is that of a label, or is removed. -/
def Slot.Passed (slot : Slot) : Prop := slot.remove = true ∨ ∃ l, slot.item = .label l

/-- A label with this name comes after the slot at `q`, with only labels and removed slots in
between. -/
def LeadsOn (slots : List Slot) (q : ℕ) (name : Str) : Prop :=
  ∃ p l, q < p ∧ slots[p]? = some (fresh (.label l)) ∧ l.name = name ∧
    ∀ k, q < k → k < p → ∃ slot, slots[k]? = some slot ∧ slot.Passed

/-! ### What is relied on -/

/-- The sections on which the passes are run. -/
def inputs (oob : ℕ → Bool) : ℕ → List Item → OptStats → List (List Item × OptStats)
  | 0, _, _ => []
  | n + 1, items, stats =>
    let (items', stats', changed) := runPasses (oob n) items stats
    (items, stats) :: if changed then inputs oob n items' stats' else []

/-- What the third pass is given. -/
def beforeJumps (items : List Item) (stats : OptStats) : Work :=
  let w := unreachable true stats false (items.map fresh)
  peephole w.stats w.changed w.slots

/-- A jump to the name is deleted as a jump to the label that follows it. -/
def DeletesJump (w : Work) (name : Str) : Prop :=
  ∃ (q : ℕ) (slot slot' : Slot) (instruction : Instruction) (reference : SymbolRef),
    w.slots[q]? = some slot ∧ slot.live? = some instruction ∧ instruction.symbol = some reference ∧
      reference.name = name ∧
    (jumpToNext w.stats w.changed w.slots).slots[q]? = some slot' ∧ slot'.remove = true

/-- The name gives a block of the control-flow graph its successor. -/
def UsesEdge (items : List Item) (name : Str) : Prop :=
  ∃ block ∈ (splitBlocks items).blocks, ∃ (last : Instruction) (reference : SymbolRef) (target : ℕ),
    terminator items block.begin block.stop = some last ∧ isBranch last.machine.opcode = true ∧
    last.machine.opcode ≠ .CALL ∧ last.symbol = some reference ∧ reference.name = name ∧
    (splitBlocks items).labelBlock.lookup name = some target

/-- A run of the passes takes the name to be a label of the section. -/
def ReliesOn (oob : ℕ → Bool) (items : List Item) (stats : OptStats) (name : Str) : Prop :=
  ∃ run ∈ inputs oob kMaxIterations items stats,
    DeletesJump (beforeJumps run.1 run.2) name ∨
      UsesEdge ((markLocal run.1 run.2).slots.map Slot.item) name

/-! ### One pass -/

theorem Unreached.cons {items : List Item} {q : ℕ} (h : Unreached items q) (item : Item) :
    Unreached (item :: items) (q + 1) := by
  obtain ⟨t, hlt, hterminates, hbetween⟩ := h
  refine ⟨t + 1, Nat.succ_lt_succ hlt, hterminates, ?_⟩
  intro k hk hkq
  obtain ⟨k, rfl⟩ : ∃ j, k = j + 1 := ⟨k - 1, by omega⟩
  exact hbetween k (by omega) (by omega)

/-- The first pass marks what is unreached. -/
theorem unreached_of_removed {reachable : Bool} {stats : OptStats} {changed : Bool}
    {slots : List Slot} {q : ℕ} {slot slot' : Slot} (hslot : slots[q]? = some slot)
    (hkept : slot.remove = false)
    (hslot' : (unreachable reachable stats changed slots).slots[q]? = some slot')
    (hremoved : slot'.remove = true) : Unreached (slots.map Slot.item) q ∨
      (reachable = false ∧ ∀ k < q, ¬IsLabelAt (slots.map Slot.item) k) := by
  have hnot : slot ≠ slot' := by
    intro hsame
    rw [hsame, hremoved] at hkept
    cases hkept
  induction slots generalizing reachable stats changed q with
  | nil => cases hslot
  | cons first rest ih =>
    unfold unreachable at hslot'
    dsimp only at hslot'
    rw [List.map_cons]
    have hlater : ∀ {k : ℕ}, (∀ l, first.item ≠ .label l) →
        (∀ j < k, ¬IsLabelAt (rest.map Slot.item) j) →
        ∀ j < k + 1, ¬IsLabelAt (first.item :: rest.map Slot.item) j := by
      rintro k hfirst hrest j hj ⟨l, hl⟩
      cases j with
      | zero => exact hfirst l (Option.some.inj hl)
      | succ j => exact hrest j (by omega) ⟨l, hl⟩
    cases q with
    | zero =>
      cases hslot
      split at hslot'
      · exact absurd (Option.some.inj hslot') hnot
      · split_ifs at hslot' with hreachable
        · refine Or.inr ⟨by simpa using hreachable, ?_⟩
          intro k hk
          exact absurd hk (Nat.not_lt_zero k)
        · exact absurd (Option.some.inj hslot') hnot
      · exact absurd (Option.some.inj hslot') hnot
    | succ q =>
      split at hslot'
      · -- from a label on everything is reached
        rcases ih hslot hslot' with hrest | ⟨hfalse, -⟩
        · exact Or.inl (hrest.cons _)
        · cases hfalse
      · next instruction hitem =>
        have hfirst : ∀ l, first.item ≠ .label l := by
          intro l hl
          rw [hitem] at hl
          cases hl
        split_ifs at hslot' with hreachable
        · rcases ih hslot hslot' with hrest | ⟨-, hnone⟩
          · exact Or.inl (hrest.cons _)
          · exact Or.inr ⟨by simpa using hreachable, hlater hfirst hnone⟩
        · rcases ih hslot hslot' with hrest | ⟨hterminates, hnone⟩
          · exact Or.inl (hrest.cons _)
          · -- the terminator is this one
            refine Or.inl ⟨0, Nat.succ_pos q, ⟨first.item, rfl, instruction, hitem, ?_⟩, ?_⟩
            · simpa using hterminates
            · intro k hk hkq
              exact hlater hfirst hnone k hkq
      · next hlabel hinstruction =>
        rcases ih hslot hslot' with hrest | ⟨hfalse, hnone⟩
        · exact Or.inl (hrest.cons _)
        · exact Or.inr ⟨hfalse, hlater hlabel hnone⟩

theorem exists_of_leadsTo {name : Str} {slots : List Slot} (h : leadsTo name slots = true) :
    ∃ (p : ℕ) (l : Label), slots[p]? = some (fresh (.label l)) ∧ l.name = name ∧
      ∀ k < p, ∃ slot : Slot, slots[k]? = some slot ∧ slot.Passed := by
  induction slots with
  | nil => cases h
  | cons first rest ih =>
    have hstep : first.Passed → leadsTo name rest = true →
        ∃ (p : ℕ) (l : Label), (first :: rest)[p]? = some (fresh (.label l)) ∧ l.name = name ∧
          ∀ k < p, ∃ slot : Slot, (first :: rest)[k]? = some slot ∧ slot.Passed := by
      intro hpassed hrest
      obtain ⟨p, l, hp, hname, hbetween⟩ := ih hrest
      refine ⟨p + 1, l, hp, hname, ?_⟩
      intro k hk
      cases k with
      | zero => exact ⟨first, rfl, hpassed⟩
      | succ k => exact hbetween k (by omega)
    unfold leadsTo at h
    by_cases hremove : first.remove = true
    · rw [if_pos hremove] at h
      exact hstep (Or.inl hremove) h
    · rw [if_neg hremove] at h
      split at h
      · next l hitem =>
        rcases (Bool.or_eq_true _ _).mp h with hname | hrest
        · refine ⟨0, l, ?_, of_decide_eq_true hname, fun k hk => absurd hk (Nat.not_lt_zero k)⟩
          have hfirst : first = fresh (.label l) := by
            cases first
            simp only [Bool.not_eq_true] at hremove
            simp_all [fresh]
          exact congrArg some hfirst
        · exact hstep (Or.inr ⟨l, hitem⟩) hrest
      · cases h

/-- The third pass marks the jumps that lead on. -/
theorem leadsOn_of_removed {stats : OptStats} {changed : Bool} {slots : List Slot} {q : ℕ}
    {slot slot' : Slot} (hslot : slots[q]? = some slot) (hkept : slot.remove = false)
    (hslot' : (jumpToNext stats changed slots).slots[q]? = some slot')
    (hremoved : slot'.remove = true) :
    ∃ instruction reference, slot.item = .instruction instruction ∧
      instruction.symbol = some reference ∧ reference.addend = 0 ∧
      LeadsOn slots q reference.name := by
  induction slots generalizing stats changed q with
  | nil => cases hslot
  | cons first rest ih =>
    unfold jumpToNext at hslot'
    dsimp only at hslot'
    cases q with
    | zero =>
      cases hslot
      split_ifs at hslot' with hgoes
      · obtain ⟨instruction, hlive, hjump⟩ := (Option.any_eq_true _ _).mp hgoes
        obtain ⟨reference, hsymbol, hleads⟩ :=
          (Option.any_eq_true _ _).mp ((Bool.and_eq_true _ _).mp hjump).2
        obtain ⟨haddend, hleads⟩ := (Bool.and_eq_true _ _).mp hleads
        obtain ⟨p, l, hp, hname, hbetween⟩ := exists_of_leadsTo hleads
        refine ⟨instruction, reference, (Slot.live?_eq_some hlive).2, hsymbol,
          of_decide_eq_true haddend, p + 1, l, Nat.succ_pos p, hp, hname, ?_⟩
        intro k hk hkp
        obtain ⟨k, rfl⟩ : ∃ j, k = j + 1 := ⟨k - 1, by omega⟩
        exact hbetween k (by omega)
      · cases hslot'
        rw [hremoved] at hkept
        cases hkept
    | succ q =>
      have hrest : ∃ instruction reference, slot.item = .instruction instruction ∧
          instruction.symbol = some reference ∧ reference.addend = 0 ∧
          LeadsOn rest q reference.name := by
        split_ifs at hslot' with hgoes
        · exact ih hslot hslot'
        · exact ih hslot hslot'
      obtain ⟨instruction, reference, hitem, hsymbol, haddend, p, l, hlt, hp, hname, hbetween⟩ :=
        hrest
      refine ⟨instruction, reference, hitem, hsymbol, haddend, p + 1, l, Nat.succ_lt_succ hlt, hp,
        hname, ?_⟩
      intro k hk hkp
      obtain ⟨k, rfl⟩ : ∃ j, k = j + 1 := ⟨k - 1, by omega⟩
      exact hbetween k (by omega) (by omega)

/-- Branches are left alone. -/
def Spares (a b : Slot) : Prop := Item.IsBranch a.item → b = a

theorem editing_spares : Editing Spares where
  refl a _ := rfl
  trans := by
    intro a b c hab hbc hbranch
    have hsame := hab hbranch
    subst hsame
    exact hbc hbranch
  remove := by
    rintro a i hlive hnot ⟨i', hitem, hbranch⟩
    rw [(Slot.live?_eq_some hlive).2] at hitem
    cases hitem
    rw [hnot] at hbranch
    cases hbranch
  rewrite := by
    rintro a i j hlive hnot - - ⟨i', hitem, hbranch⟩
    rw [(Slot.live?_eq_some hlive).2] at hitem
    cases hitem
    rw [hnot] at hbranch
    cases hbranch

/-- No pass makes a terminator of an instruction. -/
theorem marking_terminates :
    Marking fun a b => Item.Terminates b.item → Item.Terminates a.item where
  refl _ := id
  trans hab hbc := hab ∘ hbc
  remove _ _ := id
  rewrite := by
    rintro a i j - - hmove - ⟨j', hitem, hterminates⟩
    cases hitem
    rcases hmove with hmove | hmove
    · rw [hmove] at hterminates
      cases hterminates
    · rw [hmove] at hterminates
      cases hterminates
  mark _ := id

theorem LeadsOn.mono {slots slots' : List Slot} {q : ℕ} {name : Str} (h : LeadsOn slots q name)
    (hfollows : FollowsAll slots slots') : LeadsOn slots' q name := by
  obtain ⟨p, l, hlt, hp, hname, hbetween⟩ := h
  obtain ⟨slot', hp', hfollow⟩ := exists_related hfollows hp
  refine ⟨p, l, hlt, ?_, hname, ?_⟩
  · rw [hp', hfollow.other rfl]
  · intro k hk hkp
    obtain ⟨slot, hslot, hpassed⟩ := hbetween k hk hkp
    obtain ⟨slot', hslot', hfollow⟩ := exists_related hfollows hslot
    refine ⟨slot', hslot', ?_⟩
    rcases hpassed with hremove | ⟨l, hl⟩
    · exact Or.inl (hfollow.removed hremove)
    · refine Or.inr ⟨l, ?_⟩
      rw [hfollow.other (by rw [hl]; rfl)]
      exact hl

/-! ### One run -/

/-- The jumps that one run of the passes deletes. -/
theorem cases_of_removed_run {oob : Bool} {items : List Item} {stats : OptStats} {q : ℕ}
    {instruction : Instruction} {slot : Slot} (hitem : items[q]? = some (.instruction instruction))
    (hbranch : isBranch instruction.machine.opcode = true)
    (hslot : (markPasses oob items stats).slots[q]? = some slot) (hremoved : slot.remove = true) :
    Unreached items q ∨ ∃ reference, instruction.symbol = some reference ∧ reference.addend = 0 ∧
      LeadsOn (markPasses oob items stats).slots q reference.name := by
  have hisBranch : Item.IsBranch (.instruction instruction) := ⟨instruction, rfl, hbranch⟩
  have hkept : ∀ {a b : Slot}, a = fresh (.instruction instruction) → Follows a b →
      b.remove = false → b = fresh (.instruction instruction) := by
    rintro a ⟨item, removed⟩ rfl hfollow hb
    have hsame := hfollow.branch (Or.inl hisBranch)
    dsimp only at hsame hb
    rw [hsame, hb]
    rfl
  have hstart : (items.map fresh)[q]? = some (fresh (.instruction instruction)) := by
    rw [List.getElem?_map, hitem, Option.map_some]
  -- the slot after each of the passes
  obtain ⟨first, hfirst, hfollow⟩ :=
    exists_related (marking_follows.unreachable true stats false (items.map fresh)) hstart
  by_cases hgone : first.remove = true
  · left
    rcases unreached_of_removed hstart rfl hfirst hgone with hunreached | ⟨hfalse, -⟩
    · rwa [List.map_map, show Slot.item ∘ fresh = id from rfl, List.map_id] at hunreached
    · cases hfalse
  · have hfirstKept := hkept rfl hfollow (Bool.eq_false_iff.mpr hgone)
    obtain ⟨second, hsecond, hspares⟩ := exists_related (editing_spares.peephole
      (unreachable true stats false (items.map fresh)).stats
      (unreachable true stats false (items.map fresh)).changed _) hfirst
    have hsecondKept : second = fresh (.instruction instruction) := by
      rw [hspares (by rw [hfirstKept]; exact hisBranch), hfirstKept]
    obtain ⟨third, hthird, hfollow⟩ := exists_related (marking_follows.jumpToNext
      (beforeJumps items stats).stats (beforeJumps items stats).changed _) hsecond
    have hlast := editing_spares.markBlocks
      (controlFlow oob ((markLocal items stats).slots.map Slot.item)) (markLocal items stats)
    by_cases hjumped : third.remove = true
    · right
      obtain ⟨instruction', reference, hsame, hsymbol, haddend, hleads⟩ :=
        leadsOn_of_removed hsecond (by rw [hsecondKept]; rfl) hthird hjumped
      rw [hsecondKept] at hsame
      cases hsame
      refine ⟨reference, hsymbol, haddend, hleads.mono ?_⟩
      exact marking_follows.all_trans (marking_follows.jumpToNext _ _ _)
        (marking_follows.toEditing.markBlocks _ _)
    · -- the passes over the blocks leave branches alone
      exfalso
      have hthirdKept := hkept hsecondKept hfollow (Bool.eq_false_iff.mpr hjumped)
      obtain ⟨last, hlast, hspares⟩ := exists_related hlast hthird
      have hsame : last = slot := Option.some.inj (hlast.symm.trans hslot)
      rw [← hsame, hspares (by rw [hthirdKept]; exact hisBranch), hthirdKept] at hremoved
      cases hremoved

/-! ### All runs -/

theorem newPosition_mono (slots : List Slot) {a b : ℕ} (h : a ≤ b) :
    newPosition slots a ≤ newPosition slots b := by
  unfold newPosition
  exact (List.take_sublist_take_left h).countP_le

/-- Where a survivor comes from. -/
theorem exists_position {slots : List Slot} {t : ℕ} {item : Item}
    (h : (kept slots)[t]? = some item) :
    ∃ (k : ℕ) (slot : Slot), slots[k]? = some slot ∧ slot.remove = false ∧ slot.item = item ∧
      newPosition slots k = t := by
  induction slots generalizing t with
  | nil => cases h
  | cons first rest ih =>
    rw [kept_cons] at h
    by_cases hremove : first.remove = true
    · rw [if_pos hremove] at h
      obtain ⟨k, slot, hslot, hkept, hitem, hposition⟩ := ih h
      refine ⟨k + 1, slot, hslot, hkept, hitem, ?_⟩
      rw [newPosition_cons, if_pos hremove, hposition, Nat.add_zero]
    · rw [if_neg hremove] at h
      cases t with
      | zero =>
        exact ⟨0, first, rfl, Bool.eq_false_iff.mpr hremove, Option.some.inj h, rfl⟩
      | succ t =>
        obtain ⟨k, slot, hslot, hkept, hitem, hposition⟩ := ih h
        refine ⟨k + 1, slot, hslot, hkept, hitem, ?_⟩
        rw [newPosition_cons, if_neg hremove, hposition]

/-- What the runs after the first make of a slot. -/
theorem getElem?_compose {slots next : List Slot} (hlength : next.length = (kept slots).length)
    {k : ℕ} {slot : Slot} (h : slots[k]? = some slot) : (compose slots next)[k]? =
      if slot.remove then some slot else next[newPosition slots k]? := by
  induction slots generalizing next k with
  | nil => cases h
  | cons first rest ih =>
    rw [kept_cons] at hlength
    unfold compose
    by_cases hremove : first.remove = true
    · rw [if_pos hremove] at hlength ⊢
      cases k with
      | zero =>
        cases h
        rw [if_pos hremove]
        rfl
      | succ k =>
        rw [newPosition_cons, if_pos hremove]
        exact ih hlength h
    · rw [if_neg hremove] at hlength ⊢
      cases next with
      | nil => cases hlength
      | cons slot' next =>
        cases k with
        | zero =>
          cases h
          rw [if_neg hremove]
          rfl
        | succ k =>
          rw [newPosition_cons, if_neg hremove]
          exact ih (Nat.succ.inj hlength) h

/-- What nothing reaches among the survivors was not reached before. -/
theorem unreached_of_kept {items : List Item} {slots : List Slot}
    (hfollows : FollowsAll (items.map fresh) slots)
    (hterminates : List.Forall₂ (fun a b => Item.Terminates b.item → Item.Terminates a.item)
      (items.map fresh) slots) {q : ℕ} (h : Unreached (kept slots) (newPosition slots q)) :
    Unreached items q := by
  obtain ⟨t, hlt, ⟨item, hitem, hterminator⟩, hbetween⟩ := h
  obtain ⟨k, slot, hslot, hkept, rfl, rfl⟩ := exists_position hitem
  have hkq : k < q := by
    by_contra hle
    have hmono := newPosition_mono slots (show q ≤ k by omega)
    omega
  have hlength := length_of_follows hfollows
  rw [List.length_map] at hlength
  have hk := (List.getElem?_eq_some_iff.mp hslot).1
  have hbefore : items[k]? = some items[k] := List.getElem?_eq_getElem (by omega)
  refine ⟨k, hkq, ⟨items[k], hbefore, ?_⟩, ?_⟩
  · obtain ⟨slot', hslot', himp⟩ := exists_related hterminates (k := k) (by
      rw [List.getElem?_map, hbefore, Option.map_some])
    rw [hslot] at hslot'
    cases hslot'
    exact himp hterminator
  · rintro j hkj hjq ⟨l, hl⟩
    obtain ⟨slot', hslot', hfollow⟩ := exists_related hfollows (k := j) (by
      rw [List.getElem?_map, hl, Option.map_some])
    have hsame : slot' = fresh (.label l) := hfollow.other rfl
    rw [hsame] at hslot'
    -- the label stays, and stays in between
    have hsucc := newPosition_succ hslot
    rw [hkept] at hsucc
    have hafter := newPosition_succ hslot'
    have hmono := newPosition_mono slots (show k + 1 ≤ j by omega)
    have hmono' := newPosition_mono slots (show j + 1 ≤ q by omega)
    have hfresh : (fresh (.label l)).remove = false := rfl
    rw [hfresh] at hafter
    simp only [Bool.false_eq_true, if_false] at hsucc hafter
    exact hbetween (newPosition slots j) (by omega) (by omega) ⟨l, getElem?_kept hslot' rfl⟩

/-- What follows among the survivors of the first run follows with everything in between removed. -/
theorem leadsOn_compose {slots next : List Slot} (hlength : next.length = (kept slots).length)
    {q : ℕ} {slot : Slot} (hslot : slots[q]? = some slot) (hkept : slot.remove = false) {name : Str}
    (h : LeadsOn next (newPosition slots q) name) : LeadsOn (compose slots next) q name := by
  have hstart := newPosition_succ hslot
  rw [hkept, if_neg Bool.false_ne_true] at hstart
  obtain ⟨p, l, hlt, hp, hname, hbetween⟩ := h
  have hpLength := (List.getElem?_eq_some_iff.mp hp).1
  obtain ⟨k, slot, hslot, hkept, -, rfl⟩ :=
    exists_position (List.getElem?_eq_getElem (by omega : p < (kept slots).length))
  have hqk : q < k := by
    by_contra hle
    have hmono := newPosition_mono slots (show k ≤ q by omega)
    omega
  refine ⟨k, l, hqk, ?_, hname, ?_⟩
  · rw [getElem?_compose hlength hslot, hkept, if_neg Bool.false_ne_true]
    exact hp
  · intro j hqj hjk
    have hj : j < slots.length := by
      have hk := (List.getElem?_eq_some_iff.mp hslot).1
      omega
    have hslotJ : slots[j]? = some slots[j] := List.getElem?_eq_getElem hj
    rw [getElem?_compose hlength hslotJ]
    by_cases hremove : slots[j].remove = true
    · rw [if_pos hremove]
      exact ⟨slots[j], rfl, Or.inl hremove⟩
    · rw [if_neg hremove]
      have hafter := newPosition_succ hslotJ
      rw [if_neg hremove] at hafter
      have hmono := newPosition_mono slots (show j + 1 ≤ k by omega)
      have hmono' := newPosition_mono slots (show q + 1 ≤ j by omega)
      exact hbetween _ (by omega) (by omega)

/-- **The jumps that the optimizer deletes.** -/
theorem cases_of_removed {oob : ℕ → Bool} {n : ℕ} {items : List Item} {stats : OptStats} {q : ℕ}
    {instruction : Instruction} {slot : Slot} (hitem : items[q]? = some (.instruction instruction))
    (hbranch : isBranch instruction.machine.opcode = true)
    (hslot : (trace oob n items stats)[q]? = some slot) (hremoved : slot.remove = true) :
    Unreached items q ∨ ∃ reference, instruction.symbol = some reference ∧ reference.addend = 0 ∧
      LeadsOn (trace oob n items stats) q reference.name := by
  have hfresh : ∀ (xs : List Item) (k : ℕ), ¬(xs.map fresh)[k]? = some slot := by
    intro xs k hfresh
    rw [List.getElem?_map, Option.map_eq_some_iff] at hfresh
    obtain ⟨item, -, rfl⟩ := hfresh
    cases hremoved
  induction n generalizing items stats q with
  | zero => exact absurd hslot (hfresh _ _)
  | succ n ih =>
    unfold trace at hslot ⊢
    dsimp only at hslot ⊢
    split_ifs at hslot with hchanged
    · rw [if_pos hchanged]
      have hfollows := markPasses_follows (oob n) items stats
      have hnext := trace_follows oob n (kept (markPasses (oob n) items stats).slots)
        (markPasses (oob n) items stats).stats
      have hlength := length_of_follows hnext
      rw [List.length_map] at hlength
      obtain ⟨first, hfirst, hfollow⟩ := exists_related hfollows (k := q) (by
        rw [List.getElem?_map, hitem, Option.map_some])
      rw [getElem?_compose hlength.symm hfirst] at hslot
      by_cases hremove : first.remove = true
      · -- the first run deletes it
        rcases cases_of_removed_run hitem hbranch hfirst hremove with
          hunreached | ⟨reference, hsymbol, haddend, hleads⟩
        · exact Or.inl hunreached
        · exact Or.inr ⟨reference, hsymbol, haddend, hleads.mono (follows_compose hnext)⟩
      · rw [if_neg hremove] at hslot
        have hsame : first.item = .instruction instruction :=
          hfollow.branch (Or.inl ⟨instruction, rfl, hbranch⟩)
        have hat := getElem?_kept hfirst (Bool.eq_false_iff.mpr hremove)
        rw [hsame] at hat
        rcases ih hat hslot with hunreached | ⟨reference, hsymbol, haddend, hleads⟩
        · exact Or.inl (unreached_of_kept hfollows (marking_terminates.markPasses _ _ _) hunreached)
        · exact Or.inr ⟨reference, hsymbol, haddend,
            leadsOn_compose hlength.symm hfirst (Bool.eq_false_iff.mpr hremove) hleads⟩
    · rw [if_neg hchanged]
      exact absurd hslot (hfresh _ _)

/-! ### Names -/

theorem label_of_follows {items : List Item} {slots : List Slot}
    (h : FollowsAll (items.map fresh) slots) {slot : Slot} (hslot : slot ∈ slots) {l : Label}
    (hl : slot.item = .label l) : .label l ∈ items := by
  obtain ⟨k, hk⟩ := List.mem_iff_getElem?.mp hslot
  have hlength := length_of_follows h
  rw [List.length_map] at hlength
  have hlt := (List.getElem?_eq_some_iff.mp hk).1
  have hitem : items[k]? = some items[k] := List.getElem?_eq_getElem (by omega)
  obtain ⟨slot', hslot', hfollow⟩ := exists_related h (k := k) (by
    rw [List.getElem?_map, hitem, Option.map_some])
  rw [hk] at hslot'
  cases hslot'
  cases hinstruction : items[k].isInstruction with
  | true =>
    have hkept := hfollow.instruction hinstruction
    rw [hl] at hkept
    cases hkept
  | false =>
    rw [hfollow.other hinstruction] at hl
    exact List.mem_of_getElem? (hitem.trans (congrArg some hl))

/-- The runs add no labels. -/
theorem label_of_inputs {oob : ℕ → Bool} {n : ℕ} {items : List Item} {stats : OptStats}
    {run : List Item × OptStats} (hrun : run ∈ inputs oob n items stats) {l : Label}
    (hl : .label l ∈ run.1) : .label l ∈ items := by
  induction n generalizing items stats with
  | zero => exact absurd hrun List.not_mem_nil
  | succ n ih =>
    unfold inputs runPasses at hrun
    dsimp only at hrun
    rcases List.mem_cons.mp hrun with rfl | hrun
    · exact hl
    · split_ifs at hrun with hchanged
      · obtain ⟨slot, hslot, hitem⟩ := List.mem_map.mp (ih hrun)
        exact label_of_follows (markPasses_follows (oob n) items stats)
          (List.mem_filter.mp hslot).1 hitem
      · exact absurd hrun List.not_mem_nil

/-- **The section has a label of every name that the optimizer relies on.** -/
theorem label_of_reliesOn {oob : ℕ → Bool} {items : List Item} {stats : OptStats} {name : Str}
    (h : ReliesOn oob items stats name) : ∃ l, .label l ∈ items ∧ l.name = name := by
  obtain ⟨run, hrun, hrelies⟩ := h
  rcases hrelies with hdeletes | huses
  · obtain ⟨q, slot, slot', instruction, reference, hslot, hlive, hsymbol, rfl, hslot', hremoved⟩ :=
      hdeletes
    obtain ⟨hkept, hitem⟩ := Slot.live?_eq_some hlive
    obtain ⟨instruction', reference', hitem', hsymbol', -, p, l, -, hp, hname, -⟩ :=
      leadsOn_of_removed hslot hkept hslot' hremoved
    rw [hitem] at hitem'
    cases hitem'
    rw [hsymbol] at hsymbol'
    cases hsymbol'
    have hfollows : FollowsAll (run.1.map fresh) (beforeJumps run.1 run.2).slots :=
      marking_follows.all_trans (marking_follows.unreachable true run.2 false _)
        (marking_follows.toEditing.peephole _ _ _)
    exact ⟨l, label_of_inputs hrun (label_of_follows hfollows (List.mem_of_getElem? hp) rfl), hname⟩
  · obtain ⟨block, -, last, reference, target, -, -, -, -, -, hlookup⟩ := huses
    rw [splitBlocks_labelBlock] at hlookup
    obtain ⟨p, hp, -⟩ := Option.map_eq_some_iff.mp hlookup
    obtain ⟨hlt, l, hl, hname⟩ := labelIndex_eq_some hp
    obtain ⟨slot, hslot, hitem⟩ := List.mem_map.mp (List.getElem_mem hlt)
    rw [hl] at hitem
    exact ⟨l,
      label_of_inputs hrun (label_of_follows (marking_follows.markLocal run.1 run.2) hslot hitem),
      hname⟩

end Optimizer
end MiniTool
