import MiniToolchain.Optimizer.FlagLiveness

/-!
# Well-formedness of the control-flow graph

The number of a label's block is recorded before there is a block with that number.  One comes to
exist unless nothing but labels is left of the section; then the number is the number of blocks, and
a branch to the label has it for a successor.

## Main definitions

* `StartsAfter` — a number names the block behind a label.
* `WellFormed` — what the blocks, their labels and their successors should be.

## Main results

* `blockAfter_lt_iff` — the labels with a block.
* `wellFormed_iff` — the sections with a well-formed graph.
-/

namespace MiniTool
namespace Optimizer

open Ir

/-- The block numbered `j` starts right after the label at `p`, or after the labels that follow
it. -/
def StartsAfter (items : List Item) (blocks : List Block) (p j : ℕ) : Prop :=
  ∃ b, blocks[j]? = some b ∧ p < b.begin ∧ ∀ q, p ≤ q → q < b.begin → IsLabelAt items q

/-- The graph of a section is well formed. -/
structure WellFormed (oob : Bool) (items : List Item) : Prop where
  partition : Partition items (controlFlow oob items).blocks
  labels : ∀ name j, (splitBlocks items).labelBlock.lookup name = some j →
    ∃ p, labelIndex items name = some p ∧ StartsAfter items (controlFlow oob items).blocks p j
  /-- A successor is the next block, or the one behind the label that the block branches to. -/
  successors : ∀ k b, (controlFlow oob items).blocks[k]? = some b → ∀ j ∈ b.successors,
    (FallsThrough items b ∧ j = k + 1 ∧ k + 1 < (controlFlow oob items).blocks.length) ∨
      ∃ reference p, BranchesTo items b reference ∧ labelIndex items reference.name = some p ∧
        StartsAfter items (controlFlow oob items).blocks p j
  /-- The vector of live blocks is not read past its end. -/
  inRange : ∀ k < (graphOf oob items).size, ∀ j ∈ (graphOf oob items).succ k,
    j < (graphOf oob items).size

/-! ### The blocks of the graph -/

section Blocks

variable {oob : Bool} {items : List Item}

theorem exists_flow_block {k : ℕ} {a : Block} (h : (splitBlocks items).blocks[k]? = some a) :
    ∃ b, (controlFlow oob items).blocks[k]? = some b ∧ b.begin = a.begin := by
  have hk : k < (controlFlow oob items).blocks.length := by
    rw [length_controlFlow_blocks]
    exact (List.getElem?_eq_some_iff.mp h).1
  have hget := List.getElem?_eq_getElem hk
  obtain ⟨a', ha', hbegin, -⟩ := exists_split_block hget
  rw [h] at ha'
  cases ha'
  exact ⟨_, hget, hbegin⟩

/-- Only the ranges of the blocks matter. -/
theorem Partition.of_ranges {blocks blocks' : List Block} (h : Partition items blocks)
    (hlength : blocks'.length = blocks.length)
    (hranges : ∀ (k : ℕ) (b : Block), blocks'[k]? = some b →
      ∃ a, blocks[k]? = some a ∧ b.begin = a.begin ∧ b.stop = a.stop) :
        Partition items blocks' := by
  have hmem : ∀ b ∈ blocks', ∃ a ∈ blocks, b.begin = a.begin ∧ b.stop = a.stop := by
    intro b hb
    obtain ⟨k, hk⟩ := List.mem_iff_getElem?.mp hb
    obtain ⟨a, ha, hsame⟩ := hranges k b hk
    exact ⟨a, List.mem_of_getElem? ha, hsame⟩
  refine ⟨?_, ?_, ?_, ?_, ?_, ?_, ?_⟩
  · intro b hb
    obtain ⟨a, ha, hbegin, hstop⟩ := hmem b hb
    rw [hbegin, hstop]
    exact h.begin_le a ha
  · intro b hb
    obtain ⟨a, ha, -, hstop⟩ := hmem b hb
    rw [hstop]
    exact h.stop_le a ha
  · intro hmany b hb
    obtain ⟨a, ha, hbegin, hstop⟩ := hmem b hb
    rw [hbegin, hstop]
    exact h.nonempty (hlength ▸ hmany) a ha
  · rw [List.pairwise_iff_getElem]
    intro i j hi hj hij
    obtain ⟨a, ha, -, hstop⟩ := hranges i _ (List.getElem?_eq_getElem hi)
    obtain ⟨c, hc, hbegin, -⟩ := hranges j _ (List.getElem?_eq_getElem hj)
    rw [hstop, hbegin]
    exact h.stop_le_begin ha hc hij
  · intro b hb q
    obtain ⟨a, ha, hbegin, hstop⟩ := hmem b hb
    rw [hbegin, hstop]
    exact h.inside a ha q
  · intro q hq
    rcases h.outside q hq with ⟨a, ha, hin⟩ | hl
    · obtain ⟨k, hk, rfl⟩ := List.mem_iff_getElem.mp ha
      have hk' : k < blocks'.length := hlength ▸ hk
      obtain ⟨a', ha', hbegin, hstop⟩ := hranges k _ (List.getElem?_eq_getElem hk')
      rw [List.getElem?_eq_getElem hk] at ha'
      cases ha'
      exact .inl ⟨blocks'[k], List.getElem_mem hk', by rw [hbegin, hstop]; exact hin⟩
    · exact .inr hl
  · intro b hb q
    obtain ⟨a, ha, hbegin, hstop⟩ := hmem b hb
    rw [hbegin, hstop]
    exact h.ends a ha q

theorem controlFlow_partition : Partition items (controlFlow oob items).blocks := by
  refine (splitBlocks_partition items).of_ranges length_controlFlow_blocks fun k b hb => ?_
  obtain ⟨a, ha, hbegin, hstop, -⟩ := exists_split_block hb
  exact ⟨a, ha, hbegin, hstop⟩

end Blocks

/-! ### The block of a label -/

section Labels

variable {items : List Item} {name : Str} {p : ℕ}

/-- The first block that stops after a label starts after it. -/
theorem startsAfter_blockAfter (oob : Bool) (hp : labelIndex items name = some p)
    (hlt : blockAfter (splitBlocks items).blocks p < (splitBlocks items).blocks.length) :
    StartsAfter items (controlFlow oob items).blocks p
      (blockAfter (splitBlocks items).blocks p) := by
  have hpart := splitBlocks_partition items
  have ha := List.getElem?_eq_getElem hlt
  obtain ⟨b, hb, hbegin⟩ := @exists_flow_block oob _ _ _ ha
  have hstop := getElem_blockAfter ha
  refine ⟨b, hb, ?_, fun q hpq hq => ?_⟩
  · -- a block has no label inside
    by_contra hle
    exact hpart.inside _ (List.mem_of_getElem? ha) p (by omega) hstop (isLabelAt_of_labelIndex hp)
  · rw [hbegin] at hq
    exact hpart.isLabelAt_of_lt_begin ha hpq hq

/-- A section of labels has one block, behind them. -/
theorem splitBlocks_of_all (hall : items.all Item.isLabel = true) :
    (splitBlocks items).blocks = [{ begin := items.length, stop := items.length }] := by
  have hlabel : ∀ q < items.length, IsLabelAt items q := by
    intro q hq
    have hitem := List.all_eq_true.mp hall _ (List.getElem_mem hq)
    cases heq : items[q] with
    | label l => exact ⟨l, by rw [List.getElem?_eq_getElem hq, heq]⟩
    | _ =>
      rw [heq] at hitem
      cases hitem
  have h := splitItems_invariant items
  have hle := h.begin_le
  have hbegin : (splitItems {} 0 items).begin = items.length := by
    by_contra hne
    exact (h.current _ (le_refl _) (by omega)).1 (hlabel _ (by omega))
  have hnil : (splitItems {} 0 items).blocks = [] := by
    rw [List.eq_nil_iff_forall_not_mem]
    intro b hb
    obtain ⟨hlt, hstop⟩ := h.bounds b hb
    exact h.inside b hb b.begin (le_refl _) hlt (hlabel _ (by omega))
  unfold splitBlocks
  dsimp only
  rw [if_pos (.inr hnil), hbegin, hnil, List.nil_append]

/-- A label has a block unless only labels follow it, in a section with something else. -/
theorem blockAfter_lt_iff (hp : labelIndex items name = some p) :
    blockAfter (splitBlocks items).blocks p < (splitBlocks items).blocks.length ↔
      items.all Item.isLabel = true ∨ isTrailing items p = false := by
  by_cases hall : items.all Item.isLabel = true
  · obtain ⟨hlt, -⟩ := labelIndex_eq_some hp
    have hzero : blockAfter [{ begin := items.length, stop := items.length }] p = 0 := by
      unfold blockAfter
      rw [List.findIdx_cons, decide_eq_true hlt]
      rfl
    rw [splitBlocks_of_all hall, hzero]
    exact ⟨fun _ => .inl hall, fun _ => Nat.one_pos⟩
  · -- some block holds an item, so that the labels without a block are the trailing ones
    have hpart := splitBlocks_partition items
    obtain ⟨item, hitem, hnot⟩ : ∃ item ∈ items, item.isLabel = false := by
      simpa using hall
    obtain ⟨q, hq, rfl⟩ := List.mem_iff_getElem.mp hitem
    have hq' : ¬IsLabelAt items q := by
      rintro ⟨l, hl⟩
      rw [List.getElem?_eq_getElem hq] at hl
      rw [Option.some.inj hl] at hnot
      cases hnot
    obtain ⟨k, b, hb, hbegin, hstop⟩ := hpart.exists_block hq hq'
    have htrailing := hpart.isTrailing_iff hb (by omega) (p := p)
    have hle : blockAfter (splitBlocks items).blocks p ≤ (splitBlocks items).blocks.length :=
      List.findIdx_le_length
    rw [Nat.lt_iff_le_and_ne, ← Bool.not_eq_true, htrailing]
    exact ⟨fun h => .inr h.2, fun h => ⟨hle, h.resolve_left hall⟩⟩

end Labels

/-! ### Well-formed graphs -/

/-- The graph is well formed exactly for a section of nothing but labels, and for one in which
something else follows every label that is the first of its name. -/
theorem wellFormed_iff (oob : Bool) (items : List Item) : WellFormed oob items ↔
    items.all Item.isLabel = true ∨
      ∀ name p, labelIndex items name = some p → isTrailing items p = false := by
  constructor
  · intro h
    by_cases hall : items.all Item.isLabel = true
    · exact .inl hall
    · refine .inr fun name p hp => ?_
      have hlookup := splitBlocks_labelBlock items name
      rw [hp, Option.map_some] at hlookup
      obtain ⟨-, -, b, hb, -⟩ := h.labels name _ hlookup
      have hlt := (List.getElem?_eq_some_iff.mp hb).1
      rw [length_controlFlow_blocks] at hlt
      exact ((blockAfter_lt_iff hp).mp hlt).resolve_left hall
  · intro hcondition
    have hlabels : ∀ name j, (splitBlocks items).labelBlock.lookup name = some j →
        ∃ p, labelIndex items name = some p ∧
          StartsAfter items (controlFlow oob items).blocks p j := by
      intro name j hlookup
      rw [splitBlocks_labelBlock] at hlookup
      obtain ⟨p, hp, rfl⟩ := Option.map_eq_some_iff.mp hlookup
      refine ⟨p, hp, startsAfter_blockAfter oob hp ((blockAfter_lt_iff hp).mpr ?_)⟩
      exact hcondition.imp_right fun h => h name p hp
    refine ⟨controlFlow_partition, hlabels, fun k b hb j hj => ?_, fun k hk j hj => ?_⟩
    · obtain ⟨a, ha, hbegin, hstop, hsuccessors⟩ := exists_split_block hb
      rw [hsuccessors] at hj
      unfold FallsThrough BranchesTo
      rw [hbegin, hstop, length_controlFlow_blocks]
      rcases mem_successors hj with hfall | ⟨reference, hbranch, hlookup⟩
      · exact .inl hfall
      · obtain ⟨p, hp, hstarts⟩ := hlabels _ _ hlookup
        exact .inr ⟨reference, p, hbranch, hp, hstarts⟩
    · rw [graphOf_size] at hk ⊢
      rw [graphOf_succ (List.getElem?_eq_getElem hk)] at hj
      rcases mem_successors hj with ⟨-, rfl, hlt⟩ | ⟨reference, -, hlookup⟩
      · exact hlt
      · obtain ⟨p, -, b, hb, -⟩ := hlabels _ _ hlookup
        rw [← @length_controlFlow_blocks oob]
        exact (List.getElem?_eq_some_iff.mp hb).1

/-- `JMP done` before `done:` at the end of a section. -/
def endsInLabel : List Item :=
  [.instruction { machine := { opcode := .JMP }, symbol := some { name := str "done" } },
    .label { name := str "done" }]

/-- The jump has a successor, but there is no second block. -/
theorem endsInLabel_not_wellFormed : ¬WellFormed false endsInLabel := by
  intro h
  have hsucc := h.inRange 0 (by decide) 1 (by decide)
  revert hsucc
  decide

end Optimizer
end MiniTool
