import MiniToolchain.Optimizer.Edits

/-!
# What the optimizer keeps

Each pass only rewrites instructions that are not branches, and marks instructions; labels, data and
branches stay what they were.  The marks of all runs of the passes, taken together, say of each item
of the section whether it survives and what became of it.

## Main definitions

* `Follows` — what the passes can make of a slot.
* `trace` — the slots of a section after all runs of the passes.
* `newPosition` — where an item, or the first survivor after it, ends up.

## Main results

* `markPasses_follows` — a run of the passes follows the slots it is given.
* `kept_trace` — the optimized section is what the trace keeps.
* `labelIndex_kept` — labels are found where they were moved to.
-/

namespace MiniTool
namespace Optimizer

open Ir

def Item.IsBranch (item : Item) : Prop :=
  ∃ instruction, item = .instruction instruction ∧ isBranch instruction.machine.opcode = true

/-- `b` is something the passes can make of `a`. -/
structure Follows (a b : Slot) : Prop where
  removed : a.remove = true → b.remove = true
  other : a.item.isInstruction = false → b = a
  instruction : a.item.isInstruction = true → b.item.isInstruction = true
  branch : Item.IsBranch a.item ∨ Item.IsBranch b.item → b.item = a.item

namespace Follows

theorem refl (a : Slot) : Follows a a := ⟨id, fun _ => rfl, id, fun _ => rfl⟩

theorem trans {a b c : Slot} (hab : Follows a b) (hbc : Follows b c) : Follows a c := by
  refine ⟨fun h => hbc.removed (hab.removed h), fun h => ?_,
    fun h => hbc.instruction (hab.instruction h), fun h => ?_⟩
  · have := hab.other h
    subst this
    exact hbc.other h
  · rcases h with h | h
    · have hb := hab.branch (Or.inl h)
      rw [hbc.branch (Or.inl (hb ▸ h)), hb]
    · have hc := hbc.branch (Or.inr h)
      rw [hc, hab.branch (Or.inr (hc ▸ h))]

/-- Marking an instruction. -/
theorem remove {a : Slot} (h : a.item.isInstruction = true) :
    Follows a { a with remove := true } :=
  ⟨fun _ => rfl, fun hother => absurd (h.symm.trans hother) (by simp), id, fun _ => rfl⟩

/-- Rewriting an instruction that is not a branch into another. -/
theorem rewrite {a : Slot} {i j : Instruction} (hi : a.item = .instruction i)
    (hbranch : isBranch i.machine.opcode = false) (hbranch' : isBranch j.machine.opcode = false) :
    Follows a { a with item := .instruction j } := by
  have hnot : ∀ {k : Instruction}, isBranch k.machine.opcode = false →
      ¬Item.IsBranch (.instruction k) := by
    rintro k hk ⟨k', hk', hk''⟩
    cases hk'
    rw [hk] at hk''
    cases hk''
  refine ⟨id, fun hother => ?_, fun _ => rfl, fun h => ?_⟩
  · rw [hi] at hother
    cases hother
  · rcases h with h | h
    · rw [hi] at h
      exact absurd h (hnot hbranch)
    · exact absurd h (hnot hbranch')

end Follows

/-- Slot by slot. -/
abbrev FollowsAll (as bs : List Slot) : Prop := List.Forall₂ Follows as bs

/-- What the passes make of a slot follows it. -/
theorem marking_follows : Marking Follows where
  refl := Follows.refl
  trans := Follows.trans
  remove hlive _ := Follows.remove (isInstruction_of_live? hlive)
  rewrite hlive hbranch hmove _ := by
    refine Follows.rewrite (Slot.live?_eq_some hlive).2 hbranch ?_
    rcases hmove with hmove | hmove
    · rw [hmove]
      rfl
    · rw [hmove]
      rfl
  mark hitem := Follows.remove (by rw [hitem]; rfl)

/-- **The passes keep labels, data and branches.** -/
theorem markPasses_follows (oob : Bool) (items : List Item) (stats : OptStats) :
    FollowsAll (items.map fresh) (markPasses oob items stats).slots :=
  marking_follows.markPasses oob items stats

/-! ### All runs of the passes -/

/-- The slots of one run, with those of the next ones in place of what it keeps. -/
def compose : List Slot → List Slot → List Slot
  | [], _ => []
  | slot :: rest, next =>
    if slot.remove then slot :: compose rest next
    else
      match next with
      | [] => slot :: compose rest []
      | slot' :: next => slot' :: compose rest next

/-- What becomes of each item of a section over all runs of the passes. -/
def trace (oob : ℕ → Bool) : ℕ → List Item → OptStats → List Slot
  | 0, items, _ => items.map fresh
  | n + 1, items, stats =>
    let w := markPasses (oob n) items stats
    if w.changed then compose w.slots (trace oob n (kept w.slots) w.stats)
    else (w.slots.map Slot.item).map fresh

theorem kept_fresh (items : List Item) : kept (items.map fresh) = items := by
  unfold kept
  rw [List.filter_map, List.map_map]
  have hall : (items.filter ((fun slot : Slot => !slot.remove) ∘ fresh)) = items :=
    List.filter_eq_self.mpr fun item _ => rfl
  rw [hall]
  exact List.map_id' items

theorem kept_cons (slot : Slot) (rest : List Slot) : kept (slot :: rest) =
    if slot.remove then kept rest else slot.item :: kept rest := by
  unfold kept
  cases hremove : slot.remove <;> simp [hremove]

theorem kept_compose {slots next : List Slot} (h : next.length = (kept slots).length) :
    kept (compose slots next) = kept next := by
  induction slots generalizing next with
  | nil =>
    have : next = [] := List.length_eq_zero_iff.mp (by simpa [kept] using h)
    rw [this]
    rfl
  | cons slot rest ih =>
    rw [kept_cons] at h
    unfold compose
    by_cases hremove : slot.remove = true
    · rw [if_pos hremove] at h ⊢
      rw [kept_cons, if_pos hremove, ih h]
    · rw [if_neg hremove] at h ⊢
      cases next with
      | nil => simp at h
      | cons slot' next =>
        have hlen : next.length = (kept rest).length := by simpa using h
        rw [kept_cons, kept_cons, ih hlen]

/-- The next runs follow what the first one leaves. -/
theorem follows_compose {slots next : List Slot}
    (hnext : FollowsAll ((kept slots).map fresh) next) :
    FollowsAll slots (compose slots next) := by
  induction slots generalizing next with
  | nil => exact .nil
  | cons slot rest ih =>
    rw [kept_cons] at hnext
    unfold compose
    by_cases hremove : slot.remove = true
    · rw [if_pos hremove] at hnext ⊢
      exact .cons (Follows.refl slot) (ih hnext)
    · rw [if_neg hremove] at hnext ⊢
      cases hnext with
      | cons hslot hnext =>
        have hfresh : fresh slot.item = slot := by
          cases slot
          simp only [Bool.not_eq_true] at hremove
          simp [fresh, hremove]
        rw [hfresh] at hslot
        exact .cons hslot (ih hnext)

theorem length_of_follows {as bs : List Slot} (h : FollowsAll as bs) : as.length = bs.length :=
  List.Forall₂.length_eq h

/-- Without the marks. -/
theorem unmarked_follows {items : List Item} {slots : List Slot}
    (h : FollowsAll (items.map fresh) slots) :
    FollowsAll (items.map fresh) ((slots.map Slot.item).map fresh) := by
  induction slots generalizing items with
  | nil => exact h
  | cons slot rest ih =>
    cases items with
    | nil => cases h
    | cons item items =>
      cases h with
      | cons hslot hrest =>
        refine List.Forall₂.cons ⟨fun hremove => ?_, fun hother => ?_,
          hslot.instruction, hslot.branch⟩ (ih hrest)
        · cases hremove
        · rw [hslot.other hother]
          rfl

theorem trace_follows (oob : ℕ → Bool) (n : ℕ) (items : List Item) (stats : OptStats) :
    FollowsAll (items.map fresh) (trace oob n items stats) := by
  induction n generalizing items stats with
  | zero => exact marking_follows.all_refl _
  | succ n ih =>
    unfold trace
    dsimp only
    have h := markPasses_follows (oob n) items stats
    by_cases hchanged : (markPasses (oob n) items stats).changed = true
    · rw [if_pos hchanged]
      exact marking_follows.all_trans h (follows_compose (ih _ _))
    · rw [if_neg hchanged]
      exact unmarked_follows h

/-- The optimized section is what the trace keeps. -/
theorem kept_trace (oob : ℕ → Bool) (n : ℕ) (items : List Item) (stats : OptStats) :
    kept (trace oob n items stats) = (optimizeItems oob n items stats).1 := by
  induction n generalizing items stats with
  | zero => exact kept_fresh items
  | succ n ih =>
    unfold trace optimizeItems runPasses
    dsimp only
    by_cases hchanged : (markPasses (oob n) items stats).changed = true
    · rw [if_pos hchanged, if_pos hchanged, if_pos hchanged, kept_compose, ih]
      have := length_of_follows (trace_follows oob n
        (kept (markPasses (oob n) items stats).slots) (markPasses (oob n) items stats).stats)
      rw [← this, List.length_map]
    · rw [if_neg hchanged, if_neg hchanged, if_neg hchanged, kept_fresh]

/-! ### Where items end up -/

/-- Where an item, or the first survivor after it, ends up. -/
def newPosition (slots : List Slot) (k : ℕ) : ℕ :=
  (slots.take k).countP fun slot => !slot.remove

theorem newPosition_succ {slots : List Slot} {k : ℕ} {slot : Slot} (h : slots[k]? = some slot) :
    newPosition slots (k + 1) = newPosition slots k + if slot.remove then 0 else 1 := by
  obtain ⟨hk, rfl⟩ := List.getElem?_eq_some_iff.mp h
  unfold newPosition
  rw [List.take_succ_eq_append_getElem hk, List.countP_append, List.countP_singleton]
  cases slots[k].remove <;> rfl

theorem newPosition_cons (slot : Slot) (rest : List Slot) (k : ℕ) :
    newPosition (slot :: rest) (k + 1) = newPosition rest k + if slot.remove then 0 else 1 := by
  unfold newPosition
  rw [List.take_succ_cons, List.countP_cons]
  cases slot.remove <;> rfl

/-- A survivor is found where it ends up. -/
theorem getElem?_kept {slots : List Slot} {k : ℕ} {slot : Slot} (h : slots[k]? = some slot)
    (hkeep : slot.remove = false) : (kept slots)[newPosition slots k]? = some slot.item := by
  induction slots generalizing k with
  | nil => cases h
  | cons first rest ih =>
    rw [kept_cons]
    cases k with
    | zero =>
      cases h
      rw [hkeep]
      rfl
    | succ k =>
      rw [newPosition_cons]
      cases first.remove with
      | true => exact ih h
      | false => exact ih h

/-- A label is found where it ends up. -/
theorem labelIndex_kept {items : List Item} {slots : List Slot}
    (h : FollowsAll (items.map fresh) slots) (name : Str) :
    labelIndex (kept slots) name = (labelIndex items name).map (newPosition slots) := by
  induction slots generalizing items with
  | nil =>
    cases items with
    | nil => rfl
    | cons item items => cases h
  | cons slot rest ih =>
    cases items with
    | nil => cases h
    | cons item items =>
      cases h with
      | cons hslot hrest =>
        have hpos := newPosition_cons slot rest
        have hih := ih hrest
        unfold labelIndex at hih ⊢
        rw [kept_cons, List.findIdx?_cons]
        cases item with
        | label l =>
          rw [hslot.other rfl]
          by_cases hname : l.name = name
          · simp [fresh, List.findIdx?_cons, hname, newPosition]
          · have hpos' : ∀ k, newPosition (fresh (.label l) :: rest) (k + 1) =
                newPosition rest k + 1 := by
              intro k
              rw [hslot.other rfl] at hpos
              exact hpos k
            simp only [fresh, Bool.false_eq_true, if_false, List.findIdx?_cons, hname, decide_false,
              hih, Option.map_map]
            congr 1
            funext k
            exact (hpos' k).symm
        | instruction instruction =>
          have hinstruction := hslot.instruction rfl
          cases hitem : slot.item with
          | instruction j =>
            by_cases hremove : slot.remove = true
            · simp only [hremove, if_true, Bool.false_eq_true, if_false, hih, Option.map_map]
              congr 1
              funext k
              exact (by rw [Function.comp, hpos k, hremove]; rfl)
            · simp only [hremove, Bool.false_eq_true, if_false, List.findIdx?_cons, hih,
                Option.map_map]
              congr 1
              funext k
              exact (by rw [Function.comp, Function.comp, hpos k]; simp [hremove])
          | _ =>
            rw [hitem] at hinstruction
            cases hinstruction
        | _ =>
          rw [hslot.other rfl] at hpos ⊢
          simp only [fresh, Bool.false_eq_true, if_false, List.findIdx?_cons, hih, Option.map_map]
          congr 1
          funext k
          exact (hpos k).symm

end Optimizer
end MiniTool
