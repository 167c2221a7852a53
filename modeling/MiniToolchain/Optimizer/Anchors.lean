import MiniToolchain.Optimizer.LocalPasses
import MiniToolchain.Optimizer.Weight

/-!
# Sections whose labels have blocks

Where a branch names a label that nothing follows, the optimizer reads a bit past the end of a
vector, and what it does may depend on that bit.  An item behind the label that no pass ever changes
is enough to exclude that, in this run of the passes and in the next ones.

## Main definitions

* `Item.Stays` — no pass changes the item.
* `Anchored` — such an item follows every label that a branch names.

## Main results

* `markPasses_anchored` — the bit read past the end does not count.
* `anchored_markPasses` — a run of the passes leaves the section anchored.
-/

namespace MiniTool
namespace Optimizer

open Ir

/-- The item is a branch that names `name`. -/
def Item.Names (item : Item) (name : Str) : Prop :=
  ∃ instruction reference, item = .instruction instruction ∧
    isBranch instruction.machine.opcode = true ∧ instruction.symbol = some reference ∧
    reference.name = name

/-- No pass changes the item, if it is reached. -/
def Item.Stays (item : Item) : Prop := item.isLabel = false ∧ weight item = 0

/-- Behind every label that a branch names comes an item that stays. -/
def Anchored (items : List Item) : Prop :=
  ∀ l rest, (.label l :: rest) <:+ items → (∃ item ∈ items, Item.Names item l.name) →
    ∃ item ∈ reached true rest, Item.Stays item

/-! ### The bit read past the end -/

/-- Without a successor past the last block, the graph is the same whatever is read there. -/
theorem controlFlow_of_inside {items : List Item}
    (h : ∀ k b, (splitBlocks items).blocks[k]? = some b → (splitBlocks items).blocks.length ∉
      (linkBlock items (splitBlocks items).labelBlock (splitBlocks items).blocks.length k
        b).successors) (oob oob' : Bool) : controlFlow oob items = controlFlow oob' items := by
  have hinside : ∀ oob, ∀ i < (graphOf oob items).size, ∀ j ∈ (graphOf oob items).succ i,
      j < (graphOf oob items).size := by
    intro oob i hi j hj
    rw [graphOf_size] at hi ⊢
    have hb := List.getElem?_eq_getElem hi
    rw [graphOf_succ hb] at hj
    refine lt_of_le_of_ne (succ_le_length hj) ?_
    rintro rfl
    exact h i _ hb hj
  have hsame : ∀ oob oob', ∀ i < (splitBlocks items).blocks.length,
      (graphOf oob items).LiveAfter i → (graphOf oob' items).LiveAfter i := by
    intro oob oob' i hi hlive
    exact hlive.of_inside (hinside oob) (by rwa [graphOf_size])
  unfold controlFlow computeFlagLiveness
  dsimp only
  congr 1
  refine List.ext_getElem? fun i => ?_
  rw [List.getElem?_mapIdx, List.getElem?_mapIdx]
  by_cases hi : i < (splitBlocks items).blocks.length
  · refine congrArg (fun live => Option.map (fun b : Block => { b with flagsLiveOut := live }) _) ?_
    have hsize : ∀ oob, i < (graphOf oob items).size := fun oob => by rwa [graphOf_size]
    refine Bool.eq_iff_iff.mpr ?_
    exact (Liveness.Graph.solve_liveOut (hsize oob)).trans
      (Iff.trans ⟨hsame _ _ i hi, hsame _ _ i hi⟩ (Liveness.Graph.solve_liveOut (hsize oob')).symm)
  · have hlength : (linkSuccessors items (splitBlocks items).labelBlock
        (splitBlocks items).blocks).length ≤ i := by
      simpa [linkSuccessors] using hi
    rw [List.getElem?_eq_none hlength]
    rfl

/-- A branch to a label that something else follows has a block to go to. -/
theorem inside_of_not_trailing {items : List Item}
    (h : ∀ item ∈ items, ∀ name, Item.Names item name → ∀ p, labelIndex items name = some p →
      isTrailing items p = false) (k : ℕ) (b : Block)
    (hb : (splitBlocks items).blocks[k]? = some b) : (splitBlocks items).blocks.length ∉
      (linkBlock items (splitBlocks items).labelBlock (splitBlocks items).blocks.length k
        b).successors := by
  intro hmem
  rcases mem_successors hmem with
    ⟨-, heq, hlt⟩ | ⟨reference, ⟨last, hlast, hbranch, hsymbol⟩, hlookup⟩
  · omega
  · obtain ⟨r, hbegin, hstop, hitem⟩ := terminator_eq_some hlast
    rw [splitBlocks_labelBlock] at hlookup
    obtain ⟨p, hp, hafter⟩ := Option.map_eq_some_iff.mp hlookup
    have htrailing := ((splitBlocks_partition items).isTrailing_iff hb (by omega)).mpr hafter
    rw [h _ (List.mem_of_getElem? hitem) reference.name
      ⟨last, reference, rfl, hbranch, hsymbol, rfl⟩ p hp] at htrailing
    cases htrailing

theorem mem_of_mem_reached {reachable : Bool} {items : List Item} {item : Item}
    (h : item ∈ reached reachable items) : item ∈ items := by
  induction items generalizing reachable with
  | nil => exact h
  | cons first rest ih =>
    have hcons : ∀ {reachable : Bool}, item ∈ first :: reached reachable rest →
        item ∈ first :: rest := by
      intro reachable h
      rcases List.mem_cons.mp h with rfl | h
      · exact List.mem_cons_self
      · exact List.mem_cons_of_mem first (ih h)
    cases first with
    | instruction instruction =>
      cases reachable with
      | false => exact List.mem_cons_of_mem _ (@ih false h)
      | true => exact hcons h
    | _ => exact hcons h

/-- The passes make no branch of anything else. -/
theorem names_of_follows {as bs : List Slot} (h : FollowsAll as bs) {b : Slot} (hb : b ∈ bs)
    {name : Str} (hnames : Item.Names b.item name) :
    ∃ a ∈ as, a.item = b.item ∧ (a.remove = true → b.remove = true) := by
  induction h with
  | nil => cases hb
  | @cons a b' as bs hab _ ih =>
    rcases List.mem_cons.mp hb with rfl | hb
    · obtain ⟨instruction, reference, hitem, hbranch, -⟩ := hnames
      exact ⟨a, List.mem_cons_self, (hab.branch (Or.inr ⟨instruction, hitem, hbranch⟩)).symm,
        hab.removed⟩
    · obtain ⟨a', ha', hsame⟩ := ih hb
      exact ⟨a', List.mem_cons_of_mem a ha', hsame⟩

/-- **In an anchored section a run of the passes does not depend on the bit read past the end.** -/
theorem markPasses_anchored {items : List Item} (h : Anchored items) (oob oob' : Bool)
    (stats : OptStats) : markPasses oob items stats = markPasses oob' items stats := by
  unfold markPasses
  dsimp only
  rw [controlFlow_of_inside (inside_of_not_trailing ?_) oob oob']
  intro item hitem name hnames p hp
  have hfollows := marking_follows.markLocal items stats
  have hitems : (items.map fresh).map Slot.item = items := by
    rw [List.map_map]
    exact List.map_id items
  -- the branch and the label are those of the section
  obtain ⟨b, hb, rfl⟩ := List.mem_map.mp hitem
  obtain ⟨a, ha, hsame, -⟩ := names_of_follows hfollows hb hnames
  have hbranch : b.item ∈ items := by
    rw [← hsame, ← hitems]
    exact List.mem_map_of_mem ha
  rw [labelIndex_of_follows hfollows, hitems] at hp
  obtain ⟨hlt, l, hl, rfl⟩ := labelIndex_eq_some hp
  have hsuffix : (.label l :: items.drop (p + 1)) <:+ items := by
    rw [← hl, List.getElem_cons_drop]
    exact List.drop_suffix p items
  obtain ⟨anchor, hanchor, hlabel, -⟩ := h l _ hsuffix ⟨_, hbranch, hnames⟩
  obtain ⟨t, ht⟩ := List.mem_iff_getElem?.mp (mem_of_mem_reached hanchor)
  rw [List.getElem?_drop] at ht
  -- the anchor is no label after the local passes either
  rw [Bool.eq_false_iff]
  intro htrailing
  have hlater : p + 1 + t < ((markLocal items stats).slots.map Slot.item).length := by
    rw [List.length_map, ← length_of_follows hfollows, List.length_map]
    exact (List.getElem?_eq_some_iff.mp ht).1
  have hget := List.getElem?_eq_getElem hlater
  generalize ((markLocal items stats).slots.map Slot.item)[p + 1 + t] = later at hget
  have hmem : later ∈ ((markLocal items stats).slots.map Slot.item).drop p := by
    rw [List.mem_iff_getElem?]
    refine ⟨1 + t, ?_⟩
    rw [List.getElem?_drop, ← Nat.add_assoc]
    exact hget
  have hall := List.all_eq_true.mp htrailing later hmem
  cases later with
  | label l' =>
    rw [labelAt_of_follows hfollows, hitems, ht] at hget
    rw [Option.some.inj hget] at hlabel
    cases hlabel
  | _ => cases hall

/-! ### The next run -/

theorem suffix_reached {reachable : Bool} {items rest : List Item} {l : Label}
    (h : (.label l :: rest) <:+ reached reachable items) :
    ∃ before, (.label l :: before) <:+ items ∧ reached true before = rest := by
  induction items generalizing reachable with
  | nil => exact absurd (List.suffix_nil.mp h) (List.cons_ne_nil _ _)
  | cons first later ih =>
    have hlater : ∀ {reachable : Bool}, (.label l :: rest) <:+ reached reachable later →
        ∃ before, (.label l :: before) <:+ first :: later ∧ reached true before = rest := by
      intro reachable hsuffix
      obtain ⟨before, hbefore, hreached⟩ := ih hsuffix
      exact ⟨before, hbefore.trans (List.suffix_cons first later), hreached⟩
    cases first with
    | label l' =>
      rcases List.suffix_cons_iff.mp h with hsame | hsuffix
      · obtain ⟨hlabel, hrest⟩ := List.cons.inj hsame
        rw [hlabel]
        exact ⟨later, List.suffix_rfl, hrest.symm⟩
      · exact hlater hsuffix
    | instruction instruction =>
      cases reachable with
      | false => exact @hlater false h
      | true =>
        rcases List.suffix_cons_iff.mp h with hsame | hsuffix
        · cases (List.cons.inj hsame).1
        · exact hlater hsuffix
    | _ =>
      rcases List.suffix_cons_iff.mp h with hsame | hsuffix
      · cases (List.cons.inj hsame).1
      · exact hlater hsuffix

/-- Deleting what nothing reaches leaves a section anchored. -/
theorem Anchored.reached {items : List Item} (h : Anchored items) :
    Anchored (Optimizer.reached true items) := by
  intro l rest hsuffix hnames
  obtain ⟨before, hbefore, rfl⟩ := suffix_reached hsuffix
  rw [reached_reached]
  obtain ⟨item, hitem, hname⟩ := hnames
  exact h l before hbefore ⟨item, mem_of_mem_reached hitem, hname⟩

theorem mem_kept {slots : List Slot} {item : Item} :
    item ∈ kept slots ↔ ∃ slot ∈ slots, slot.remove = false ∧ slot.item = item := by
  unfold kept
  simp only [List.mem_map, List.mem_filter, Bool.not_eq_true', and_assoc]

theorem suffix_kept {as bs : List Slot} (h : as <:+ bs) : kept as <:+ kept bs :=
  (h.filter _).map _

/-- An item that is kept, what it comes from, and what follows both. -/
theorem exists_suffix {r : Slot → Slot → Prop} {as bs : List Slot} (h : List.Forall₂ r as bs)
    {item : Item} {rest : List Item} (hsuffix : (item :: rest) <:+ kept bs) :
    ∃ a as' b bs', (a :: as') <:+ as ∧ r a b ∧ List.Forall₂ r as' bs' ∧ b.remove = false ∧
      b.item = item ∧ kept bs' = rest := by
  induction h with
  | nil => exact absurd (List.suffix_nil.mp hsuffix) (List.cons_ne_nil _ _)
  | @cons a b as bs hab hrest ih =>
    have hlater : (item :: rest) <:+ kept bs → ∃ a' as' b bs', (a' :: as') <:+ a :: as ∧ r a' b ∧
        List.Forall₂ r as' bs' ∧ b.remove = false ∧ b.item = item ∧ kept bs' = rest := by
      intro hsuffix
      obtain ⟨a', as', b', bs', hsuffix, hfound⟩ := ih hsuffix
      exact ⟨a', as', b', bs', hsuffix.trans (List.suffix_cons a as), hfound⟩
    rw [kept_cons] at hsuffix
    by_cases hb : b.remove = true
    · rw [if_pos hb] at hsuffix
      exact hlater hsuffix
    · rw [if_neg hb] at hsuffix
      rcases List.suffix_cons_iff.mp hsuffix with hsame | hsuffix
      · obtain ⟨hitem, hkept⟩ := List.cons.inj hsame
        exact ⟨a, as, b, bs, List.suffix_rfl, hab, hrest, Bool.eq_false_iff.mpr hb, hitem.symm,
          hkept.symm⟩
      · exact hlater hsuffix

/-- **A run of the passes leaves an anchored section anchored.** -/
theorem anchored_markPasses {items : List Item} (h : Anchored items) (oob : Bool)
    (stats : OptStats) :
    Anchored (kept (markPasses oob items stats).slots) := by
  have hfollows := marking_follows.afterFirst oob items stats
  have hkeeps := keeps_markPasses oob items stats
  have hreached := reached_markPasses oob items stats
  have hbefore : Anchored (kept (afterFirst items stats).slots) := by
    unfold afterFirst
    rw [kept_unreachable]
    exact h.reached
  generalize (afterFirst items stats).slots = as at hfollows hkeeps hbefore
  generalize (markPasses oob items stats).slots = bs at hfollows hkeeps hreached
  have hboth : List.Forall₂ (fun a b => Follows a b ∧ Keeps a b) as bs :=
    hfollows.mp (fun _ _ => And.intro) hkeeps
  rintro l rest hsuffix ⟨item, hitem, hnames⟩
  obtain ⟨a, as', b, bs', hafter, ⟨hfollow, -⟩, hrest, hb, hlabel, rfl⟩ :=
    exists_suffix hboth hsuffix
  -- the label is that of the slot before
  have hsame : b = a := by
    cases hinstruction : a.item.isInstruction with
    | false => exact hfollow.other hinstruction
    | true =>
      have hb' := hfollow.instruction hinstruction
      rw [hlabel] at hb'
      cases hb'
  rw [hsame] at hb hlabel
  have hbranch : ∃ item ∈ kept as, Item.Names item l.name := by
    obtain ⟨slot, hslot, hremove, rfl⟩ := mem_kept.mp hitem
    obtain ⟨slot', hslot', hsame', himp⟩ := names_of_follows hfollows hslot hnames
    refine ⟨slot.item, mem_kept.mpr ⟨slot', hslot', ?_, hsame'⟩, hnames⟩
    rw [← Bool.not_eq_true]
    intro hremoved
    rw [himp hremoved] at hremove
    cases hremove
  have hlater : (.label l :: kept as') <:+ kept as := by
    have hkept := suffix_kept hafter
    rwa [kept_cons, hb, if_neg Bool.false_ne_true, hlabel] at hkept
  obtain ⟨anchor, hanchor, hstays⟩ := hbefore l _ hlater hbranch
  -- the anchor is kept
  have hstill : anchor ∈ kept bs' := by
    obtain ⟨slot, hslot, hremove, rfl⟩ := mem_kept.mp (mem_of_mem_reached hanchor)
    obtain ⟨q, hq⟩ := List.mem_iff_getElem?.mp hslot
    obtain ⟨slot', hq', -, hkeep⟩ := exists_related hrest hq
    have hweight : slot.weight = 0 := by
      unfold Slot.weight
      rw [hremove, if_neg Bool.false_ne_true]
      exact hstays.2
    rw [hkeep hweight] at hq'
    exact mem_kept.mpr ⟨slot, List.mem_of_getElem? hq', hremove, rfl⟩
  have hall : reached true (kept bs') = kept bs' := by
    rw [← hreached] at hsuffix
    obtain ⟨before, -, hbefore'⟩ := suffix_reached hsuffix
    rw [← hbefore', reached_reached]
  rw [hall]
  exact ⟨anchor, hstill, hstays⟩

end Optimizer
end MiniTool
