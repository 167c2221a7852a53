import MiniToolchain.Ir.Layout
import MiniToolchain.Isa.Semantics
import MiniToolchain.Lib.Liveness

/-!
# The control-flow graph of a section

The basic blocks of a section and the liveness of FLAGS out of each of them, which decides whether
an instruction that sets flags may be rewritten into one that does not.

A label at the end of a section has no block: the source then reads one bit past the end of the
vector of live blocks.  `oob` stands for the bit it finds there.

## Main definitions

* `Block`, `splitBlocks`, `linkSuccessors`, `computeFlagLiveness`, `controlFlow`.
* `ControlFlow.flagsDeadAfter` — FLAGS written here cannot be read.

## Main results

* `splitBlocks_partition` — what the blocks of a section are.
* `mem_successors` — where the edges of a block come from.
-/

namespace MiniTool
namespace Optimizer

open Ir

/-- A block ends after anything that can transfer control elsewhere, and after SYSCALL. -/
def endsBlock (opcode : Isa.Opcode) : Bool :=
  match Isa.findOpcode opcode with
  | none => true
  | some info => info.isBranch || info.isTerminator || opcode = .SYSCALL

def writesFlags (opcode : Isa.Opcode) : Bool :=
  match Isa.findOpcode opcode with
  | none => false
  | some info => info.writesFlags

/-- The half-open range of positions of one basic block, and where control can go from it. -/
structure Block where
  begin : ℕ
  stop : ℕ
  successors : List ℕ := []
  /-- A successor could not be determined. -/
  unknownSuccessor : Bool := false
  /-- FLAGS may be read by something reachable from the end of this block. -/
  flagsLiveOut : Bool := true
  deriving DecidableEq, Repr

/-! ### Splitting into blocks -/

/-- `std::unordered_map::emplace`: keeps the entry that is there. -/
def emplace (m : List (Str × ℕ)) (name : Str) (k : ℕ) : List (Str × ℕ) :=
  match m.lookup name with
  | some _ => m
  | none => (name, k) :: m

structure Split where
  begin : ℕ := 0
  blocks : List Block := []
  labelBlock : List (Str × ℕ) := []

/-- One turn of the loop of `splitBlocks`. -/
def splitStep (s : Split) (i : ℕ) : Item → Split
  | .label l =>
    let blocks := if s.begin < i then s.blocks ++ [{ begin := s.begin, stop := i }] else s.blocks
    { begin := i + 1, blocks, labelBlock := emplace s.labelBlock l.name blocks.length }
  | .instruction instruction =>
    if endsBlock instruction.machine.opcode then
      { s with blocks := s.blocks ++ [{ begin := s.begin, stop := i + 1 }], begin := i + 1 }
    else s
  | _ => s

def splitItems (s : Split) (i : ℕ) : List Item → Split
  | [] => s
  | item :: items => splitItems (splitStep s i item) (i + 1) items

def splitBlocks (items : List Item) : Split :=
  let s := splitItems {} 0 items
  if s.begin < items.length ∨ s.blocks = [] then
    { s with blocks := s.blocks ++ [{ begin := s.begin, stop := items.length }] }
  else s

/-! ### Successors -/

/-- The last instruction in `[begin, stop)`. -/
def terminator (items : List Item) (begin : ℕ) : (stop : ℕ) → Option Ir.Instruction
  | 0 => none
  | i + 1 =>
    if begin < i + 1 then
      match items[i]? with
      | some (.instruction instruction) => some instruction
      | _ => terminator items begin i
    else none

/-- The successors of the block numbered `i` of `count`. -/
def linkBlock (items : List Item) (labelBlock : List (Str × ℕ)) (count i : ℕ) (block : Block) :
    Block :=
  let last := terminator items block.begin block.stop
  let info := last.bind fun instruction => Isa.findOpcode instruction.machine.opcode
  let endsWithBranch := info.any (·.isBranch)
  let fallsThrough := info.all (!·.isTerminator)
  let fall := if fallsThrough && decide (i + 1 < count) then [i + 1] else []
  match last with
  | none => { block with successors := fall, unknownSuccessor := false }
  | some last =>
    if !endsWithBranch then { block with successors := fall, unknownSuccessor := false }
    -- what a callee does to FLAGS is not modelled
    else if last.machine.opcode = .CALL then
      { block with successors := fall, unknownSuccessor := true }
    else
      match last.symbol with
      | none => { block with successors := fall, unknownSuccessor := true }
      | some reference =>
        match labelBlock.lookup reference.name with
        | none => { block with successors := fall, unknownSuccessor := true }
        | some target => { block with successors := fall ++ [target], unknownSuccessor := false }

def linkSuccessors (items : List Item) (labelBlock : List (Str × ℕ)) (blocks : List Block) :
    List Block :=
  blocks.mapIdx (linkBlock items labelBlock blocks.length)

/-! ### Liveness of FLAGS -/

/-- What an item does to FLAGS first: reads them, writes them, or neither. -/
def flagUse : Item → Option Bool
  | .instruction instruction =>
    if Isa.readsFlags instruction.machine.opcode then some true
    else if writesFlags instruction.machine.opcode then some false
    else none
  | _ => none

/-- The items at positions `[begin, stop)`. -/
def slice (items : List Item) (begin stop : ℕ) : List Item := (items.take stop).drop begin

/-- What `[begin, stop)` does to FLAGS first. -/
def flagScan (items : List Item) (begin stop : ℕ) : Option Bool :=
  (slice items begin stop).findSome? flagUse

/-- The block needs the FLAGS its predecessor left behind. -/
def blockReadsFlagsBeforeWriting (items : List Item) (block : Block) : Bool :=
  flagScan items block.begin block.stop = some true

def blockWritesFlags (items : List Item) (block : Block) : Bool :=
  (slice items block.begin block.stop).any fun item =>
    match item with
    | .instruction instruction => writesFlags instruction.machine.opcode
    | _ => false

/-- The equations of FLAGS liveness over the blocks. -/
def flagGraph (oob : Bool) (items : List Item) (blocks : List Block) : Liveness.Graph where
  size := blocks.length
  gen i := (blocks[i]?).any (blockReadsFlagsBeforeWriting items)
  kill i := (blocks[i]?).any (blockWritesFlags items)
  unknown i := (blocks[i]?).any (·.unknownSuccessor)
  succ i := ((blocks[i]?).map (·.successors)).getD []
  outside := oob

/-- Backward dataflow, iterated until nothing changes. -/
def computeFlagLiveness (oob : Bool) (items : List Item) (blocks : List Block) : List Block :=
  let graph := flagGraph oob items blocks
  let live := graph.solve graph.enough graph.initial
  blocks.mapIdx fun i block => { block with flagsLiveOut := live.liveOut.getD i oob }

/-- The control-flow graph of a section. -/
structure ControlFlow where
  items : List Item
  blocks : List Block

def controlFlow (oob : Bool) (items : List Item) : ControlFlow :=
  let s := splitBlocks items
  { items, blocks := computeFlagLiveness oob items (linkSuccessors items s.labelBlock s.blocks) }

/-- FLAGS written by the instruction at `index` cannot be read before something overwrites them. -/
def ControlFlow.flagsDeadAfter (flow : ControlFlow) (blockIndex index : ℕ) : Bool :=
  match flow.blocks[blockIndex]? with
  | none => false
  | some block =>
    match flagScan flow.items (index + 1) block.stop with
    | some reads => !reads
    | none => !block.flagsLiveOut

/-! ### The blocks of a section -/

/-- The item at position `q` is a label. -/
def IsLabelAt (items : List Item) (q : ℕ) : Prop := ∃ l, items[q]? = some (.label l)

/-- The item at position `q` ends a block. -/
def EndsAt (items : List Item) (q : ℕ) : Prop :=
  ∃ instruction, items[q]? = some (.instruction instruction) ∧
    endsBlock instruction.machine.opcode = true

/-- The number of the first block that stops after position `q`. -/
def blockAfter (blocks : List Block) (q : ℕ) : ℕ := blocks.findIdx fun b => decide (q < b.stop)

/-- Blocks that cover every position but the labels, in order, and end after each item that ends a
block. -/
structure Partition (items : List Item) (blocks : List Block) : Prop where
  begin_le : ∀ b ∈ blocks, b.begin ≤ b.stop
  stop_le : ∀ b ∈ blocks, b.stop ≤ items.length
  nonempty : 1 < blocks.length → ∀ b ∈ blocks, b.begin < b.stop
  sorted : blocks.Pairwise fun a b => a.stop ≤ b.begin
  inside : ∀ b ∈ blocks, ∀ q, b.begin ≤ q → q < b.stop → ¬IsLabelAt items q
  outside : ∀ q < items.length, (∃ b ∈ blocks, b.begin ≤ q ∧ q < b.stop) ∨ IsLabelAt items q
  ends : ∀ b ∈ blocks, ∀ q, b.begin ≤ q → q + 1 < b.stop → ¬EndsAt items q

theorem lookup_emplace (m : List (Str × ℕ)) (name : Str) (k : ℕ) (other : Str) :
    (emplace m name k).lookup other = (m.lookup other).or
    (if other = name then some k else none) := by
  unfold emplace
  cases hm : m.lookup name with
  | some v =>
    by_cases hname : other = name
    · subst hname
      simp [hm]
    · simp [hname]
  | none =>
    by_cases hname : other = name
    · subst hname
      simp [hm]
    · have hne : (other == name) = false := by simpa using hname
      simp [List.lookup_cons, hne, hname]

theorem blockAfter_push {blocks : List Block} {b : Block} {q : ℕ} (hq : q < b.stop) :
    blockAfter (blocks ++ [b]) q = blockAfter blocks q := by
  unfold blockAfter
  rw [List.findIdx_append]
  by_cases hlt : List.findIdx (fun b => decide (q < b.stop)) blocks < blocks.length
  · rw [if_pos hlt]
  · rw [if_neg hlt, List.findIdx_cons]
    have hle : List.findIdx (fun b => decide (q < b.stop)) blocks ≤ blocks.length :=
      List.findIdx_le_length
    simp only [hq, decide_true, cond_true]
    omega

theorem blockAfter_of_stop_le {blocks : List Block} {q : ℕ} (h : ∀ b ∈ blocks, b.stop ≤ q) :
    blockAfter blocks q = blocks.length := by
  unfold blockAfter
  rw [List.findIdx_eq_length]
  intro b hb
  have := h b hb
  simpa using this

theorem labelIndex_take_succ {items : List Item} {i : ℕ} (hi : i < items.length) (name : Str) :
    labelIndex (items.take (i + 1)) name = (labelIndex (items.take i) name).or
      (match items[i] with
        | .label l => if name = l.name then some i else none
        | _ => none) := by
  unfold labelIndex
  rw [List.take_succ_eq_append_getElem hi, List.findIdx?_append]
  congr 1
  rw [List.length_take, Nat.min_eq_left hi.le]
  cases items[i] with
  | label l =>
    by_cases hname : l.name = name
    · simp [hname]
    · have hne : ¬name = l.name := fun h => hname h.symm
      simp [hname, hne]
  | _ => simp

/-- What the scan knows after `i` items. -/
structure SplitInvariant (items : List Item) (i : ℕ) (s : Split) : Prop where
  begin_le : s.begin ≤ i
  bounds : ∀ b ∈ s.blocks, b.begin < b.stop ∧ b.stop ≤ s.begin
  sorted : s.blocks.Pairwise fun a b => a.stop ≤ b.begin
  inside : ∀ b ∈ s.blocks, ∀ q, b.begin ≤ q → q < b.stop → ¬IsLabelAt items q
  outside : ∀ q < s.begin, (∃ b ∈ s.blocks, b.begin ≤ q ∧ q < b.stop) ∨ IsLabelAt items q
  ends : ∀ b ∈ s.blocks, ∀ q, b.begin ≤ q → q + 1 < b.stop → ¬EndsAt items q
  current : ∀ q, s.begin ≤ q → q < i → ¬IsLabelAt items q ∧ ¬EndsAt items q
  labels : ∀ name, s.labelBlock.lookup name =
    (labelIndex (items.take i) name).map (blockAfter s.blocks)

namespace SplitInvariant

variable {items : List Item} {i : ℕ} {s : Split}

/-- A label the scan has seen is before the current block. -/
theorem label_lt (h : SplitInvariant items i s) {name : Str} {p : ℕ}
    (hp : labelIndex (items.take i) name = some p) : p < s.begin := by
  obtain ⟨hlt, l, hl, -⟩ := labelIndex_eq_some hp
  rw [List.length_take] at hlt
  rw [List.getElem_take] at hl
  by_contra hle
  exact (h.current p (by omega) (by omega)).1 ⟨l, by rw [List.getElem?_eq_getElem (by omega), hl]⟩

/-- Closing the current block just after position `i`, or just before it. -/
theorem push (h : SplitInvariant items i s) (stop : ℕ) (hlt : s.begin < stop)
    (hlabel : ∀ q, s.begin ≤ q → q < stop → ¬IsLabelAt items q)
    (hends : ∀ q, s.begin ≤ q → q + 1 < stop → ¬EndsAt items q) :
    let blocks := s.blocks ++ [{ begin := s.begin, stop }]
    (∀ b ∈ blocks, b.begin < b.stop ∧ b.stop ≤ stop) ∧
      blocks.Pairwise (fun a b => a.stop ≤ b.begin) ∧
      (∀ b ∈ blocks, ∀ q, b.begin ≤ q → q < b.stop → ¬IsLabelAt items q) ∧
      (∀ q < stop, (∃ b ∈ blocks, b.begin ≤ q ∧ q < b.stop) ∨ IsLabelAt items q) ∧
      (∀ b ∈ blocks, ∀ q, b.begin ≤ q → q + 1 < b.stop → ¬EndsAt items q) ∧
      ∀ name, (labelIndex (items.take i) name).map (blockAfter blocks) =
        s.labelBlock.lookup name := by
  intro blocks
  refine ⟨?_, ?_, ?_, ?_, ?_, ?_⟩
  · intro b hb
    rcases List.mem_append.mp hb with hb | hb
    · have := h.bounds b hb
      exact ⟨this.1, this.2.trans hlt.le⟩
    · rw [List.mem_singleton] at hb
      subst hb
      exact ⟨hlt, le_rfl⟩
  · rw [List.pairwise_append]
    refine ⟨h.sorted, List.pairwise_singleton _ _, ?_⟩
    intro a ha b hb
    rw [List.mem_singleton] at hb
    subst hb
    exact (h.bounds a ha).2
  · intro b hb q hbegin hstop
    rcases List.mem_append.mp hb with hb | hb
    · exact h.inside b hb q hbegin hstop
    · rw [List.mem_singleton] at hb
      subst hb
      exact hlabel q hbegin hstop
  · intro q hq
    by_cases hbegin : q < s.begin
    · rcases h.outside q hbegin with ⟨b, hb, hin⟩ | hl
      · exact Or.inl ⟨b, List.mem_append_left _ hb, hin⟩
      · exact Or.inr hl
    · exact Or.inl ⟨_, List.mem_append_right _ (List.mem_singleton_self _), by simp; omega, hq⟩
  · intro b hb q hbegin hstop
    rcases List.mem_append.mp hb with hb | hb
    · exact h.ends b hb q hbegin hstop
    · rw [List.mem_singleton] at hb
      subst hb
      exact hends q hbegin hstop
  · intro name
    rw [h.labels name]
    cases hp : labelIndex (items.take i) name with
    | none => rfl
    | some p => exact congrArg some (blockAfter_push ((h.label_lt hp).trans hlt))

/-- The scan of a label, which closes the current block if there is anything in it. -/
theorem step_label (h : SplitInvariant items i s) (hi : i < items.length) {l : Label}
    (hitem : items[i] = .label l) : SplitInvariant items (i + 1) (splitStep s i (.label l)) := by
  have hlabelAt : IsLabelAt items i := ⟨l, by rw [List.getElem?_eq_getElem hi, hitem]⟩
  have hle := h.begin_le
  have hnext : ∀ name, labelIndex (items.take (i + 1)) name =
      (labelIndex (items.take i) name).or (if name = l.name then some i else none) := by
    intro name
    rw [labelIndex_take_succ hi, hitem]
  have hlabels : ∀ {blocks : List Block},
      (∀ name, (labelIndex (items.take i) name).map (blockAfter blocks) =
        s.labelBlock.lookup name) → (∀ b ∈ blocks, b.stop ≤ i) →
      ∀ name, (emplace s.labelBlock l.name blocks.length).lookup name =
        (labelIndex (items.take (i + 1)) name).map (blockAfter blocks) := by
    intro blocks hold hstop name
    rw [lookup_emplace, hnext, ← hold]
    cases labelIndex (items.take i) name with
    | some p => rfl
    | none =>
      by_cases hname : name = l.name
      · simp [hname, blockAfter_of_stop_le hstop]
      · simp [hname]
  have hcurrent : ∀ q, i + 1 ≤ q → q < i + 1 → ¬IsLabelAt items q ∧ ¬EndsAt items q :=
    fun q h₁ h₂ => absurd h₁ (Nat.not_le_of_lt h₂)
  unfold splitStep
  by_cases hlt : s.begin < i
  · obtain ⟨hbounds, hsorted, hinside, houtside, hends, hold⟩ := h.push i hlt
      (fun q h₁ h₂ => (h.current q h₁ h₂).1) (fun q h₁ h₂ => (h.current q h₁ (by omega)).2)
    simp only [if_pos hlt]
    refine ⟨le_rfl, fun b hb => ⟨(hbounds b hb).1, (hbounds b hb).2.trans (Nat.le_succ i)⟩, hsorted,
      hinside, ?_, hends, hcurrent, hlabels hold fun b hb => (hbounds b hb).2⟩
    intro q hq
    rcases Nat.lt_succ_iff_lt_or_eq.mp hq with hq | rfl
    · exact houtside q hq
    · exact Or.inr hlabelAt
  · have hbegin : s.begin = i := by omega
    simp only [if_neg hlt]
    have hstop : ∀ b ∈ s.blocks, b.stop ≤ i := fun b hb => hbegin ▸ (h.bounds b hb).2
    refine ⟨le_rfl, fun b hb => ⟨(h.bounds b hb).1, (hstop b hb).trans (Nat.le_succ i)⟩, h.sorted,
      h.inside, ?_, h.ends, hcurrent, hlabels (fun name => (h.labels name).symm) hstop⟩
    intro q hq
    rcases Nat.lt_succ_iff_lt_or_eq.mp hq with hq | rfl
    · exact h.outside q (hbegin ▸ hq)
    · exact Or.inr hlabelAt

/-- An item that is not a label leaves the labels as they are. -/
theorem labelIndex_take_succ_of_not (hi : i < items.length) (hlabel : ¬IsLabelAt items i)
    (name : Str) : labelIndex (items.take (i + 1)) name = labelIndex (items.take i) name := by
  rw [labelIndex_take_succ hi]
  cases hitem : items[i] with
  | label l => exact absurd ⟨l, by rw [List.getElem?_eq_getElem hi, hitem]⟩ hlabel
  | _ => exact Option.or_none

/-- The scan of an instruction that ends a block. -/
theorem step_ends (h : SplitInvariant items i s) (hi : i < items.length)
    (hlabel : ¬IsLabelAt items i) : SplitInvariant items (i + 1)
      { s with blocks := s.blocks ++ [{ begin := s.begin, stop := i + 1 }], begin := i + 1 } := by
  have hle := h.begin_le
  obtain ⟨hbounds, hsorted, hinside, houtside, hends, hold⟩ :=
    h.push (i + 1) (by omega)
      (fun q h₁ h₂ => by
        rcases Nat.lt_succ_iff_lt_or_eq.mp h₂ with h₂ | rfl
        · exact (h.current q h₁ h₂).1
        · exact hlabel)
      (fun q h₁ h₂ => (h.current q h₁ (by omega)).2)
  refine ⟨le_rfl, hbounds, hsorted, hinside, houtside, hends,
    fun q h₁ h₂ => absurd h₁ (Nat.not_le_of_lt h₂), fun name => ?_⟩
  rw [labelIndex_take_succ_of_not hi hlabel, hold]

/-- The scan of an item that stays in the current block. -/
theorem step_runs (h : SplitInvariant items i s) (hi : i < items.length)
    (hlabel : ¬IsLabelAt items i) (hends : ¬EndsAt items i) : SplitInvariant items (i + 1) s := by
  refine ⟨Nat.le_succ_of_le h.begin_le, h.bounds, h.sorted, h.inside, h.outside, h.ends, ?_,
    fun name => ?_⟩
  · intro q h₁ h₂
    rcases Nat.lt_succ_iff_lt_or_eq.mp h₂ with h₂ | rfl
    · exact h.current q h₁ h₂
    · exact ⟨hlabel, hends⟩
  · rw [labelIndex_take_succ_of_not hi hlabel]
    exact h.labels name

/-- The scan of one item. -/
theorem step (h : SplitInvariant items i s) (hi : i < items.length) :
    SplitInvariant items (i + 1) (splitStep s i items[i]) := by
  have hget : items[i]? = some items[i] := List.getElem?_eq_getElem hi
  cases hitem : items[i] with
  | label l => exact h.step_label hi hitem
  | instruction instruction =>
    have hlabel : ¬IsLabelAt items i := by
      rintro ⟨l, hl⟩
      rw [hget, hitem] at hl
      cases hl
    unfold splitStep
    by_cases hends : endsBlock instruction.machine.opcode = true
    · simp only [if_pos hends]
      exact h.step_ends hi hlabel
    · simp only [if_neg hends]
      refine h.step_runs hi hlabel ?_
      rintro ⟨other, hother, hend⟩
      rw [hget, hitem] at hother
      cases hother
      exact hends hend
  | bytes _ | symbolValue _ | space _ | align _ =>
    -- data neither names nor ends a block
    refine h.step_runs hi ?_ ?_
    · rintro ⟨l, hl⟩
      rw [hget, hitem] at hl
      cases hl
    · rintro ⟨instruction, hinstruction, -⟩
      rw [hget, hitem] at hinstruction
      cases hinstruction

/-- The scan of the rest of the section. -/
theorem splitItems (h : SplitInvariant items i s) (hi : i ≤ items.length) :
    SplitInvariant items items.length (Optimizer.splitItems s i (items.drop i)) := by
  induction hn : items.length - i generalizing i s with
  | zero =>
    have hend : i = items.length := by omega
    subst hend
    rw [List.drop_length]
    exact h
  | succ n ih =>
    have hlt : i < items.length := by omega
    rw [List.drop_eq_getElem_cons hlt, Optimizer.splitItems]
    exact ih (h.step hlt) (by omega) (by omega)

end SplitInvariant

theorem splitItems_invariant (items : List Item) :
    SplitInvariant items items.length (splitItems {} 0 items) := by
  have hinit : SplitInvariant items 0 {} :=
    ⟨le_rfl, by simp, List.Pairwise.nil, by simp, by simp, by simp, by simp,
      by simp [labelIndex]⟩
  simpa using hinit.splitItems (Nat.zero_le _)

/-- **What the blocks of a section are.** -/
theorem splitBlocks_partition (items : List Item) : Partition items (splitBlocks items).blocks := by
  have h := splitItems_invariant items
  have hle := h.begin_le
  unfold splitBlocks
  dsimp only
  by_cases hlt : (splitItems {} 0 items).begin < items.length
  · obtain ⟨hbounds, hsorted, hinside, houtside, hends, -⟩ := h.push _ hlt
      (fun q h₁ h₂ => (h.current q h₁ h₂).1) (fun q h₁ h₂ => (h.current q h₁ (by omega)).2)
    rw [if_pos (Or.inl hlt)]
    exact ⟨fun b hb => (hbounds b hb).1.le, fun b hb => (hbounds b hb).2,
      fun _ b hb => (hbounds b hb).1, hsorted, hinside, houtside, hends⟩
  · have hbegin : (splitItems {} 0 items).begin = items.length := by omega
    by_cases hnil : (splitItems {} 0 items).blocks = []
    · rw [if_pos (Or.inr hnil), hbegin, hnil]
      refine ⟨by simp, by simp, by simp, by simp, ?_, fun q hq => ?_, ?_⟩
      · intro b hb q h₁ h₂
        simp only [List.nil_append, List.mem_singleton] at hb
        subst hb
        exact absurd h₁ (Nat.not_le_of_lt h₂)
      · rcases h.outside q (hbegin ▸ hq) with ⟨b, hb, -⟩ | hl
        · rw [hnil] at hb
          cases hb
        · exact Or.inr hl
      · intro b hb q h₁ h₂
        simp only [List.nil_append, List.mem_singleton] at hb
        subst hb
        simp at h₁ h₂
        omega
    · rw [if_neg (by tauto)]
      exact ⟨fun b hb => (h.bounds b hb).1.le, fun b hb => (h.bounds b hb).2.trans hle,
        fun _ b hb => (h.bounds b hb).1, h.sorted, h.inside, fun q hq => h.outside q (hbegin ▸ hq),
        h.ends⟩

/-- A label belongs to the first block that stops after it. -/
theorem splitBlocks_labelBlock (items : List Item) (name : Str) :
    (splitBlocks items).labelBlock.lookup name =
      (labelIndex items name).map (blockAfter (splitBlocks items).blocks) := by
  have h := splitItems_invariant items
  have hlookup := h.labels name
  rw [List.take_length] at hlookup
  have hlabel : ∀ p, labelIndex items name = some p → p < (splitItems {} 0 items).begin := by
    intro p hp
    exact h.label_lt (by rw [List.take_length]; exact hp)
  unfold splitBlocks
  dsimp only
  split_ifs
  · rw [hlookup]
    cases hp : labelIndex items name with
    | none => rfl
    | some p =>
      have := (hlabel p hp).trans_le h.begin_le
      exact congrArg some (blockAfter_push this).symm
  · exact hlookup

/-! ### The successors of a block -/

/-- Control runs on from the end of a block. -/
def FallsThrough (items : List Item) (b : Block) : Prop :=
  ((terminator items b.begin b.stop).bind fun last => Isa.findOpcode last.machine.opcode).all
    (!·.isTerminator) = true

/-- A block ends with a branch to a symbol. -/
def BranchesTo (items : List Item) (b : Block) (reference : SymbolRef) : Prop :=
  ∃ last, terminator items b.begin b.stop = some last ∧
    (Isa.findOpcode last.machine.opcode).any (·.isBranch) = true ∧ last.symbol = some reference

/-- A successor is the next block, or the entry of the label that the block branches to. -/
theorem mem_successors {items : List Item} {labelBlock : List (Str × ℕ)} {count k j : ℕ} {b : Block}
    (h : j ∈ (linkBlock items labelBlock count k b).successors) :
    (FallsThrough items b ∧ j = k + 1 ∧ k + 1 < count) ∨
      ∃ reference, BranchesTo items b reference ∧ labelBlock.lookup reference.name = some j := by
  have hfall : j ∈ (if (((terminator items b.begin b.stop).bind fun last =>
        Isa.findOpcode last.machine.opcode).all (!·.isTerminator) && decide (k + 1 < count)) = true
      then [k + 1] else []) → FallsThrough items b ∧ j = k + 1 ∧ k + 1 < count := by
    intro hj
    split_ifs at hj with hcond
    · obtain ⟨hthrough, hlt⟩ := (Bool.and_eq_true _ _).mp hcond
      exact ⟨hthrough, List.mem_singleton.mp hj, of_decide_eq_true hlt⟩
    · cases hj
  unfold linkBlock at h
  dsimp only at h
  split at h
  · exact .inl (hfall h)
  · next last hlast =>
    split at h
    · exact .inl (hfall h)
    · next hbranch =>
      split at h
      · exact .inl (hfall h)
      · split at h
        · exact .inl (hfall h)
        · next reference hsymbol =>
          split at h
          · exact .inl (hfall h)
          · next target htarget =>
            rcases List.mem_append.mp h with h | h
            · exact .inl (hfall h)
            · cases List.mem_singleton.mp h
              rw [hlast, Option.bind_some] at hbranch
              exact .inr ⟨reference, ⟨last, hlast, by simpa using hbranch, hsymbol⟩, htarget⟩

end Optimizer
end MiniTool
