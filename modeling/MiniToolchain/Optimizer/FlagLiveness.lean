import MiniToolchain.Optimizer.ControlFlow

/-!
# What liveness of FLAGS means for the items of a section

The control-flow graph has blocks for nodes; control itself goes from item to item.  Two notions of
where control goes from an item are compared here: the one of the machine, and the one the blocks
and their successors draw.

## Main definitions

* `leave` — where control goes from an item, given the targets of branches.
* `pathLeave` — the machine's: a branch reaches the item at its byte offset; CALL, RET, a literal
  displacement, an unknown name and the end of the section lead to code that is not known.
* `drawnLeave` — the graph's: a branch reaches its label whatever its addend, a RET that names a
  label reaches it, and nothing follows the last item.
* `NeededAfter` — FLAGS are read on some path that leaves an item before anything writes them.
* `straysAt` — the two part at an item: the end of the section, a RET with a symbol, an addend.

## Main results

* `flagsDeadAfter_iff` — the analysis finds FLAGS dead exactly when no path along the drawn edges
  needs them.
* `flagsDeadAfter_sound` — it is sound where no path strays, or one that does not reads FLAGS.
-/

namespace MiniTool
namespace Optimizer

open Ir Liveness

/-! ### Where control goes -/

/-- The positions control goes to from `item` at position `q`; `none` when it leaves for code that
is not known. -/
def leave (unknown : Isa.Opcode → Bool) (target : SymbolRef → Option ℕ) (q : ℕ) :
    Item → Option (List ℕ)
  | .instruction instruction =>
    match Isa.findOpcode instruction.machine.opcode with
    | none => some [q + 1]
    | some info =>
      let fall := if info.isTerminator then [] else [q + 1]
      if !info.isBranch then some fall
      else if unknown instruction.machine.opcode then none
      else
        match instruction.symbol with
        | none => none
        | some reference => (target reference).map fun p => fall ++ [p]
  | _ => some [q + 1]

/-- The item a symbolic branch reaches. -/
def pathTarget (items : List Item) (reference : SymbolRef) : Option ℕ :=
  match labelIndex items reference.name with
  | none => none
  | some p =>
    if reference.addend = 0 then some p
    else itemAt items (offsetOf items p + reference.addend.toInt)

/-- Where the machine goes from position `q`. -/
def pathLeave (items : List Item) (q : ℕ) : Option (List ℕ) :=
  match items[q]? with
  | none => none
  | some item =>
    leave (fun opcode => opcode = .CALL || opcode = .RET) (pathTarget items) q item

/-- Only labels follow. -/
def isTrailing (items : List Item) (p : ℕ) : Bool := (items.drop p).all Item.isLabel

/-- The label the graph takes a branch to.  A label with no block counts as unknown when the bit
read past the end says that something there is live. -/
def drawnTarget (oob : Bool) (items : List Item) (reference : SymbolRef) : Option ℕ :=
  match labelIndex items reference.name with
  | none => none
  | some p => if isTrailing items p && oob then none else some p

/-- Where the graph goes from position `q`. -/
def drawnLeave (oob : Bool) (items : List Item) (q : ℕ) : Option (List ℕ) :=
  match items[q]? with
  | none => some []
  | some item => leave (fun opcode => opcode = .CALL) (drawnTarget oob items) q item

/-- The item at `q` reads FLAGS. -/
def ReadsAt (items : List Item) (q : ℕ) : Prop := (items[q]?).bind flagUse = some true

/-- The item at `q` writes FLAGS. -/
def WritesAt (items : List Item) (q : ℕ) : Prop := (items[q]?).bind flagUse = some false

/-- Control can go from `q` to `q'`. -/
def Next (go : ℕ → Option (List ℕ)) (q q' : ℕ) : Prop := ∃ l, go q = some l ∧ q' ∈ l

/-- FLAGS are read at `q`, or control leaves from there for code that may read them. -/
def Uses (items : List Item) (go : ℕ → Option (List ℕ)) (q : ℕ) : Prop :=
  ReadsAt items q ∨ go q = none

/-- Some path from `q` reads FLAGS before anything writes them. -/
def Needed (items : List Item) (go : ℕ → Option (List ℕ)) (q : ℕ) : Prop :=
  UseFirst (Next go) (WritesAt items) (Uses items go) q

/-- Some path leaving the item at `q` reads FLAGS before anything writes them. -/
def NeededAfter (items : List Item) (go : ℕ → Option (List ℕ)) (q : ℕ) : Prop :=
  go q = none ∨ ∃ q', Next go q q' ∧ Needed items go q'

/-! ### Positions and blocks -/

theorem isLabelAt_iff_flat {items : List Item} {q : ℕ} (h : IsLabelAt items q) :
    q < items.length ∧ (items[q]?).bind flagUse = none ∧
      ∀ oob, drawnLeave oob items q = some [q + 1] := by
  obtain ⟨l, hl⟩ := h
  refine ⟨(List.getElem?_eq_some_iff.mp hl).1, by rw [hl]; rfl, fun oob => ?_⟩
  unfold drawnLeave
  rw [hl]
  rfl

theorem blockAfter_eq {k : ℕ} {b : Block} (hb : blocks[k]? = some b) {q : ℕ} (hq : q < b.stop)
    (hbefore : ∀ j a, j < k → blocks[j]? = some a → a.stop ≤ q) : blockAfter blocks q = k := by
  obtain ⟨hk, rfl⟩ := List.getElem?_eq_some_iff.mp hb
  unfold blockAfter
  rw [List.findIdx_eq hk]
  refine ⟨by simpa using hq, fun j hj => ?_⟩
  have := hbefore j _ hj (List.getElem?_eq_getElem (hj.trans hk))
  simpa using this

theorem getElem_blockAfter {q : ℕ} {b : Block} (hb : blocks[blockAfter blocks q]? = some b) :
    q < b.stop := by
  obtain ⟨hk, rfl⟩ := List.getElem?_eq_some_iff.mp hb
  exact of_decide_eq_true (List.findIdx_getElem (w := hk))

theorem stop_le_of_lt_blockAfter {q j : ℕ} {a : Block} (hj : j < blockAfter blocks q)
    (ha : blocks[j]? = some a) : a.stop ≤ q := by
  obtain ⟨hlt, rfl⟩ := List.getElem?_eq_some_iff.mp ha
  have := List.not_of_lt_findIdx hj
  simpa using this

namespace Partition

variable {items : List Item} {blocks : List Block} (h : Partition items blocks)
include h

theorem stop_le_begin {j k : ℕ} {a b : Block} (ha : blocks[j]? = some a) (hb : blocks[k]? = some b)
    (hjk : j < k) : a.stop ≤ b.begin := by
  obtain ⟨hj, rfl⟩ := List.getElem?_eq_some_iff.mp ha
  obtain ⟨hk, rfl⟩ := List.getElem?_eq_some_iff.mp hb
  exact List.pairwise_iff_getElem.mp h.sorted j k hj hk hjk

/-- A position inside a block belongs to it. -/
theorem blockAfter_inside {k : ℕ} {b : Block} (hb : blocks[k]? = some b) {q : ℕ}
    (hbegin : b.begin ≤ q) (hstop : q < b.stop) : blockAfter blocks q = k :=
  blockAfter_eq hb hstop fun _ _ hj ha => (h.stop_le_begin ha hb hj).trans hbegin

/-- What follows a block is the next one. -/
theorem blockAfter_stop {k : ℕ} {b : Block} (hb : blocks[k]? = some b) :
    blockAfter blocks b.stop = k + 1 := by
  have hk : k < blocks.length := (List.getElem?_eq_some_iff.mp hb).1
  have hbefore : ∀ j a, j < k + 1 → blocks[j]? = some a → a.stop ≤ b.stop := by
    intro j a hj ha
    rcases Nat.lt_succ_iff_lt_or_eq.mp hj with hj | rfl
    · exact (h.stop_le_begin ha hb hj).trans (h.begin_le b (List.mem_of_getElem? hb))
    · rw [hb] at ha
      cases ha
      exact le_rfl
  by_cases hnext : k + 1 < blocks.length
  · have hc := List.getElem?_eq_getElem hnext
    have hlt := h.nonempty (by omega) _ (List.getElem_mem hnext)
    exact blockAfter_eq hc ((h.stop_le_begin hb hc (Nat.lt_succ_self k)).trans_lt hlt) hbefore
  · have hlast : k + 1 = blocks.length := by omega
    rw [hlast]
    apply blockAfter_of_stop_le
    intro a ha
    obtain ⟨j, hj, rfl⟩ := List.mem_iff_getElem.mp ha
    exact hbefore j _ (by omega) (List.getElem?_eq_getElem hj)

/-- Between a position and the block that follows it there are only labels. -/
theorem isLabelAt_of_lt_begin {q : ℕ} {b : Block} (hb : blocks[blockAfter blocks q]? = some b)
    {r : ℕ} (hqr : q ≤ r) (hr : r < b.begin) : IsLabelAt items r := by
  have hmem := List.mem_of_getElem? hb
  have hlen : r < items.length := by
    have h₁ := h.begin_le b hmem
    have h₂ := h.stop_le b hmem
    omega
  rcases h.outside r hlen with ⟨a, ha, hbegin, hstop⟩ | hl
  · exfalso
    obtain ⟨j, hj, rfl⟩ := List.mem_iff_getElem.mp ha
    have hget := List.getElem?_eq_getElem hj
    rcases Nat.lt_trichotomy j (blockAfter blocks q) with hlt | heq | hgt
    · have := stop_le_of_lt_blockAfter hlt hget
      omega
    · rw [← heq, hget] at hb
      cases hb
      omega
    · have := h.stop_le_begin hb hget hgt
      have := h.begin_le b hmem
      omega
  · exact hl

/-- Every position after the last block is a label. -/
theorem isLabelAt_of_no_block {q : ℕ} (hnone : blockAfter blocks q = blocks.length)
    (hq : q < items.length) : IsLabelAt items q := by
  rcases h.outside q hq with ⟨a, ha, hbegin, hstop⟩ | hl
  · obtain ⟨j, hj, rfl⟩ := List.mem_iff_getElem.mp ha
    have := stop_le_of_lt_blockAfter (hnone ▸ hj) (List.getElem?_eq_getElem hj)
    omega
  · exact hl

/-- A position that is not a label is inside a block. -/
theorem exists_block {q : ℕ} (hq : q < items.length) (hl : ¬IsLabelAt items q) :
    ∃ (k : ℕ) (b : Block), blocks[k]? = some b ∧ b.begin ≤ q ∧ q < b.stop := by
  rcases h.outside q hq with ⟨b, hb, hin⟩ | hl'
  · obtain ⟨k, hk, rfl⟩ := List.mem_iff_getElem.mp hb
    exact ⟨k, _, List.getElem?_eq_getElem hk, hin⟩
  · exact absurd hl' hl

/-- A label with no block is one that only labels follow, in a section with anything else. -/
theorem isTrailing_iff {k : ℕ} {b : Block} (hb : blocks[k]? = some b) (hlt : b.begin < b.stop)
    {p : ℕ} : isTrailing items p = true ↔ blockAfter blocks p = blocks.length := by
  unfold isTrailing
  rw [List.all_eq_true]
  constructor
  · intro hall
    apply blockAfter_of_stop_le
    intro a ha
    by_contra hgt
    have hstop := h.stop_le a ha
    have hnonempty : a.begin < a.stop := by
      by_cases hone : 1 < blocks.length
      · exact h.nonempty hone a ha
      · have hk := (List.getElem?_eq_some_iff.mp hb).1
        obtain ⟨j, hj, rfl⟩ := List.mem_iff_getElem.mp ha
        obtain rfl : j = k := by omega
        rw [List.getElem?_eq_getElem hj] at hb
        cases hb
        exact hlt
    have hlast : a.stop - 1 < items.length := by omega
    refine h.inside a ha (a.stop - 1) (by omega) (by omega) ?_
    have hmem : items[a.stop - 1] ∈ items.drop p := by
      rw [List.mem_iff_getElem]
      refine ⟨a.stop - 1 - p, by rw [List.length_drop]; omega, ?_⟩
      rw [List.getElem_drop]
      congr 1
      omega
    have := hall _ hmem
    cases hitem : items[a.stop - 1] with
    | label l => exact ⟨l, by rw [List.getElem?_eq_getElem hlast, hitem]⟩
    | _ =>
      rw [hitem] at this
      cases this
  · intro hnone item hitem
    obtain ⟨i, hi, rfl⟩ := List.mem_iff_getElem.mp hitem
    rw [List.length_drop] at hi
    have hlast : blockAfter blocks (p + i) = blocks.length := by
      apply blockAfter_of_stop_le
      intro a ha
      obtain ⟨j, hj, rfl⟩ := List.mem_iff_getElem.mp ha
      have := stop_le_of_lt_blockAfter (hnone ▸ hj) (List.getElem?_eq_getElem hj)
      omega
    obtain ⟨l, hl⟩ := h.isLabelAt_of_no_block hlast (by omega)
    rw [List.getElem_drop]
    rw [List.getElem?_eq_getElem (by omega)] at hl
    rw [Option.some.inj hl]
    rfl

end Partition

/-! ### Scanning a block -/

theorem flagScan_of_stop_le {items : List Item} {q stop : ℕ} (h : stop ≤ q) :
    flagScan items q stop = none := by
  unfold flagScan slice
  rw [List.drop_eq_nil_of_le (by rw [List.length_take]; omega)]
  rfl

theorem flagScan_step {items : List Item} {q stop : ℕ} (hq : q < stop)
    (hstop : stop ≤ items.length) :
    flagScan items q stop = ((items[q]?).bind flagUse).or (flagScan items (q + 1) stop) := by
  have hlen : q < (items.take stop).length := by rw [List.length_take]; omega
  unfold flagScan slice
  rw [List.drop_eq_getElem_cons hlen, List.findSome?_cons, List.getElem_take,
    List.getElem?_eq_getElem (by omega), Option.bind_some]
  cases flagUse items[q] <;> rfl

theorem flagUse_eq_some_false {item : Item} (h : flagUse item = some false) :
    ∃ instruction, item = .instruction instruction ∧
      writesFlags instruction.machine.opcode = true := by
  cases item with
  | instruction instruction =>
    refine ⟨instruction, rfl, ?_⟩
    by_contra hwrites
    by_cases hreads : Isa.readsFlags instruction.machine.opcode = true
    · simp [flagUse, hreads] at h
    · simp [flagUse, hreads, hwrites] at h
  | _ => cases h

theorem blockWritesFlags_of_scan {items : List Item} {b : Block}
    (h : flagScan items b.begin b.stop = some false) : blockWritesFlags items b = true := by
  obtain ⟨item, hitem, huse⟩ := List.exists_of_findSome?_eq_some h
  obtain ⟨instruction, rfl, hwrites⟩ := flagUse_eq_some_false huse
  exact List.any_eq_true.mpr ⟨_, hitem, hwrites⟩

theorem blockWritesFlags_of_scan_none {items : List Item} {b : Block}
    (h : flagScan items b.begin b.stop = none) : blockWritesFlags items b = false := by
  unfold blockWritesFlags
  rw [List.any_eq_false]
  intro item hitem
  have huse := List.findSome?_eq_none_iff.mp h item hitem
  cases item with
  | instruction instruction =>
    intro hwrites
    by_cases hreads : Isa.readsFlags instruction.machine.opcode = true
    · simp [flagUse, hreads] at huse
    · simp [flagUse, hreads, hwrites] at huse
  | _ => simp

/-- No branch writes FLAGS. -/
theorem branch_writesFlags :
    ∀ info ∈ Isa.kOpcodes, info.isBranch = true → info.writesFlags = false := by
  decide

/-! ### Where the graph and the machine part -/

/-- The graph and the machine part at `q`: past the last item, at a RET with a symbol of the
section, or at a branch with an addend to one.  (What a CALL does is unknown to both.) -/
def straysAt (items : List Item) (q : ℕ) : Bool :=
  match items[q]? with
  | none => true
  | some (.instruction instruction) =>
    (Isa.findOpcode instruction.machine.opcode).any (·.isBranch) &&
      instruction.machine.opcode != .CALL &&
      instruction.symbol.any fun reference => (labelIndex items reference.name).isSome &&
        (instruction.machine.opcode == .RET || reference.addend != 0)
  | some _ => false

/-- Where the machine goes, as far as the graph goes with it. -/
def cleanLeave (items : List Item) (q : ℕ) : Option (List ℕ) :=
  if straysAt items q then some [] else pathLeave items q

/-- Some path that leaves the item at `q` strays before anything writes FLAGS. -/
def StraysAfter (items : List Item) (q : ℕ) : Prop :=
  straysAt items q = true ∨ ∃ q', Next (pathLeave items) q q' ∧
    UseFirst (Next (pathLeave items)) (WritesAt items) (fun q => straysAt items q = true) q'

/-- A path strays only where another one, that does not, reads FLAGS first. -/
def Sheltered (items : List Item) (q : ℕ) : Prop :=
  StraysAfter items q → NeededAfter items (cleanLeave items) q

theorem lt_of_not_straysAt {items : List Item} {q : ℕ} (h : straysAt items q = false) :
    q < items.length := by
  by_contra hle
  unfold straysAt at h
  rw [List.getElem?_eq_none (Nat.not_lt.mp hle)] at h
  cases h

/-- The graph goes with the machine where it does not stray. -/
theorem drawnLeave_eq_pathLeave {items : List Item} {q : ℕ} (h : straysAt items q = false) :
    drawnLeave false items q = pathLeave items q := by
  have hq := lt_of_not_straysAt h
  unfold straysAt at h
  unfold drawnLeave pathLeave
  rw [List.getElem?_eq_getElem hq] at h ⊢
  cases hitem : items[q] with
  | instruction instruction =>
    rw [hitem] at h
    dsimp only at h ⊢
    unfold leave
    cases hinfo : Isa.findOpcode instruction.machine.opcode with
    | none => simp only [hinfo]
    | some info =>
      simp only [hinfo]
      by_cases hbranch : info.isBranch = true
      · by_cases hcall : instruction.machine.opcode = .CALL
        · simp [hcall]
        · cases hsymbol : instruction.symbol with
          | none => simp
          | some reference =>
            simp only [hinfo, hsymbol, Option.any_some, hbranch] at h
            cases hp : labelIndex items reference.name with
            | none => simp [drawnTarget, pathTarget, hp]
            | some p =>
              simp [hp, hcall] at h
              simp [drawnTarget, pathTarget, hp, h]
      · simp [hbranch]
  | _ => rfl

/-- The bit that is read out of bounds can only make more of the code unknown. -/
theorem drawnLeave_cases (oob : Bool) (items : List Item) (q : ℕ) :
    drawnLeave oob items q = none ∨ drawnLeave oob items q = drawnLeave false items q := by
  have htarget : ∀ reference, drawnTarget oob items reference = none ∨
      drawnTarget oob items reference = drawnTarget false items reference := by
    intro reference
    unfold drawnTarget
    cases labelIndex items reference.name with
    | none => exact .inl rfl
    | some p =>
      cases oob with
      | false => exact .inr rfl
      | true => cases isTrailing items p <;> simp
  unfold drawnLeave
  cases items[q]? with
  | none => exact .inr rfl
  | some item =>
    cases item with
    | instruction instruction =>
      unfold leave
      cases hinfo : Isa.findOpcode instruction.machine.opcode with
      | none =>
        right
        simp only [hinfo]
      | some info =>
        simp only [hinfo]
        by_cases hbranch : info.isBranch = true
        · by_cases hcall : instruction.machine.opcode = .CALL
          · left
            simp [hbranch, hcall]
          · cases instruction.symbol with
            | none =>
              left
              simp [hbranch]
            | some reference =>
              rcases htarget reference with h | h
              · left
                simp [hbranch, h]
              · right
                simp only [h]
        · right
          simp [hbranch]
    | _ => exact .inr rfl

section Fewer

variable {items : List Item} {go more : ℕ → Option (List ℕ)}
  (h : ∀ q, more q = none ∨ more q = go q ∨ go q = some [])
include h

/-- More edges need no less. -/
theorem needed_of_more {q : ℕ} (hneeded : Needed items go q) : Needed items more q := by
  refine UseFirst.induction ?_ ?_ hneeded
  · intro q huse
    refine UseFirst.here (huse.imp_right fun hnone => ?_)
    rcases h q with hmore | hsame | hempty
    · exact hmore
    · exact hsame.trans hnone
    · rw [hnone] at hempty
      cases hempty
  · intro q q' hwrites hnext hneeded
    obtain ⟨l, hl, hq'⟩ := hnext
    rcases h q with hmore | hsame | hempty
    · exact UseFirst.here (.inr hmore)
    · exact UseFirst.step hwrites ⟨l, hsame.trans hl, hq'⟩ hneeded
    · rw [hl] at hempty
      cases hempty
      cases hq'

theorem neededAfter_of_more {q : ℕ} (hneeded : NeededAfter items go q) :
    NeededAfter items more q := by
  rcases hneeded with hnone | ⟨q', ⟨l, hl, hq'⟩, hneeded⟩
  · rcases h q with hmore | hsame | hempty
    · exact .inl hmore
    · exact .inl (hsame.trans hnone)
    · rw [hnone] at hempty
      cases hempty
  · rcases h q with hmore | hsame | hempty
    · exact .inl hmore
    · exact .inr ⟨q', ⟨l, hsame.trans hl, hq'⟩, needed_of_more h hneeded⟩
    · rw [hl] at hempty
      cases hempty
      cases hq'

end Fewer

/-- A path of the machine that does not stray is one of the graph. -/
theorem needed_of_not_strays {items : List Item} {q : ℕ}
    (hneeded : Needed items (pathLeave items) q)
    (hclean : ¬UseFirst (Next (pathLeave items)) (WritesAt items)
      (fun q => straysAt items q = true) q) :
    Needed items (cleanLeave items) q := by
  have hgoes : ∀ q, ¬UseFirst (Next (pathLeave items)) (WritesAt items)
      (fun q => straysAt items q = true) q → cleanLeave items q = pathLeave items q :=
    fun q hclean => if_neg fun hstrays => hclean (.here hstrays)
  revert hclean
  refine @UseFirst.induction _ _ _ _ (fun q => ¬UseFirst (Next (pathLeave items)) (WritesAt items)
    (fun q => straysAt items q = true) q → Needed items (cleanLeave items) q) ?_ ?_ q hneeded
  · intro q huse hclean
    exact UseFirst.here (huse.imp_right (hgoes q hclean).trans)
  · intro q q' hwrites hnext ih hclean
    obtain ⟨l, hl, hq'⟩ := hnext
    refine UseFirst.step hwrites ⟨l, (hgoes q hclean).trans hl, hq'⟩ (ih fun hstrays => hclean ?_)
    exact UseFirst.step hwrites ⟨l, hl, hq'⟩ hstrays

theorem neededAfter_of_not_strays {items : List Item} {q : ℕ}
    (hneeded : NeededAfter items (pathLeave items) q) (hclean : ¬StraysAfter items q) :
    NeededAfter items (cleanLeave items) q := by
  have hgoes : cleanLeave items q = pathLeave items q := if_neg fun hstrays => hclean (.inl hstrays)
  rcases hneeded with hnone | ⟨q', ⟨l, hl, hq'⟩, hneeded⟩
  · exact .inl (hgoes.trans hnone)
  · refine .inr ⟨q', ⟨l, hgoes.trans hl, hq'⟩, needed_of_not_strays hneeded fun hstrays => ?_⟩
    exact hclean (.inr ⟨q', ⟨l, hl, hq'⟩, hstrays⟩)

/-- A path that comes to the end of the section needs FLAGS. -/
theorem neededAfter_of_strays {items : List Item}
    (hplain : ∀ q < items.length, straysAt items q = false) {q : ℕ} (hq : q < items.length)
    (h : StraysAfter items q) :
    NeededAfter items (pathLeave items) q := by
  rcases h with hstrays | ⟨q', hnext, hstrays⟩
  · rw [hplain q hq] at hstrays
    cases hstrays
  · refine .inr ⟨q', hnext, ?_⟩
    refine UseFirst.induction ?_ (fun a b hwrites hnext h => UseFirst.step hwrites hnext h) hstrays
    intro q hstrays
    refine UseFirst.here (.inr ?_)
    have hend : ¬q < items.length := fun hlt => by
      rw [hplain q hlt] at hstrays
      cases hstrays
    unfold pathLeave
    rw [List.getElem?_eq_none (Nat.not_lt.mp hend)]

/-! ### The last item of a block -/

theorem terminator_eq_some {items : List Item} {begin stop : ℕ} {instruction : Ir.Instruction}
    (h : terminator items begin stop = some instruction) :
    ∃ r, begin ≤ r ∧ r < stop ∧ items[r]? = some (.instruction instruction) := by
  induction stop with
  | zero => cases h
  | succ i ih =>
    unfold terminator at h
    split_ifs at h with hlt
    split at h
    · next found hfound =>
      cases h
      exact ⟨i, by omega, by omega, hfound⟩
    · obtain ⟨r, hr, hri, hitem⟩ := ih h
      exact ⟨r, hr, by omega, hitem⟩

theorem terminator_last {items : List Item} {begin q : ℕ} {instruction : Ir.Instruction}
    (hbegin : begin ≤ q) (h : items[q]? = some (.instruction instruction)) :
    terminator items begin (q + 1) = some instruction := by
  unfold terminator
  rw [if_pos (by omega), h]

theorem info_of_not_endsBlock {opcode : Isa.Opcode} (h : endsBlock opcode = false) :
    ∃ info, Isa.findOpcode opcode = some info ∧ info.isBranch = false ∧
      info.isTerminator = false := by
  unfold endsBlock at h
  cases hinfo : Isa.findOpcode opcode with
  | none =>
    rw [hinfo] at h
    cases h
  | some info =>
    rw [hinfo] at h
    simp only [Bool.or_eq_false_iff] at h
    exact ⟨info, rfl, h.1.1, h.1.2⟩

/-- An item that ends no block is followed by the next one. -/
theorem leave_of_not_endsAt {items : List Item} {q : ℕ} (hq : q < items.length)
    (h : ¬EndsAt items q) (unknown : Isa.Opcode → Bool) (target : SymbolRef → Option ℕ) :
    leave unknown target q items[q] = some [q + 1] := by
  have hget := List.getElem?_eq_getElem hq
  cases hitem : items[q] with
  | instruction instruction =>
    have hends : endsBlock instruction.machine.opcode = false := by
      by_contra hne
      exact h ⟨instruction, by rw [hget, hitem], by simpa using hne⟩
    obtain ⟨info, hinfo, hbranch, hterm⟩ := info_of_not_endsBlock hends
    simp [leave, hinfo, hbranch, hterm]
  | _ => rfl

/-- Control runs on or goes to a target. -/
theorem mem_leave {unknown : Isa.Opcode → Bool} {target : SymbolRef → Option ℕ} {q q' : ℕ}
    {item : Item} {l : List ℕ} (h : leave unknown target q item = some l) (hq' : q' ∈ l) :
    q' = q + 1 ∨ ∃ reference, target reference = some q' := by
  have hfall : ∀ info : Isa.OpcodeInfo, q' ∈ (if info.isTerminator = true then [] else [q + 1]) →
      q' = q + 1 := by
    intro info hq'
    split_ifs at hq'
    · cases hq'
    · exact List.mem_singleton.mp hq'
  cases item with
  | instruction instruction =>
    unfold leave at h
    dsimp only at h
    split at h
    · cases h
      exact Or.inl (List.mem_singleton.mp hq')
    · next info _ =>
      split at h
      · cases h
        exact Or.inl (hfall info hq')
      · split at h
        · cases h
        · split at h
          · cases h
          · next reference _ =>
            obtain ⟨p, hp, rfl⟩ := Option.map_eq_some_iff.mp h
            rcases List.mem_append.mp hq' with hq' | hq'
            · exact Or.inl (hfall info hq')
            · rw [List.mem_singleton] at hq'
              exact Or.inr ⟨reference, hq' ▸ hp⟩
  | _ =>
    cases h
    exact Or.inl (List.mem_singleton.mp hq')

theorem isLabelAt_of_labelIndex {items : List Item} {name : Str} {p : ℕ}
    (h : labelIndex items name = some p) : IsLabelAt items p := by
  obtain ⟨hlen, l, hitem, -⟩ := labelIndex_eq_some h
  exact ⟨l, by rw [List.getElem?_eq_getElem hlen, hitem]⟩

theorem isLabelAt_of_drawnTarget {oob : Bool} {items : List Item} {reference : SymbolRef} {p : ℕ}
    (h : drawnTarget oob items reference = some p) : IsLabelAt items p := by
  unfold drawnTarget at h
  cases hlabel : labelIndex items reference.name with
  | none =>
    rw [hlabel] at h
    cases h
  | some p' =>
    rw [hlabel] at h
    dsimp only at h
    split_ifs at h
    cases h
    exact isLabelAt_of_labelIndex hlabel

theorem drawnLeave_of_not_endsAt {items : List Item} {q : ℕ} (hq : q < items.length)
    (h : ¬EndsAt items q) (oob : Bool) : drawnLeave oob items q = some [q + 1] := by
  unfold drawnLeave
  rw [List.getElem?_eq_getElem hq]
  exact leave_of_not_endsAt hq h _ _

/-! ### The edges of the graph -/

section Edges

variable (oob : Bool) (items : List Item)

theorem drawnLeave_ne_none_of_writesAt {items : List Item} {q : ℕ} (h : WritesAt items q)
    (oob : Bool) : drawnLeave oob items q ≠ none := by
  obtain ⟨item, hitem, huse⟩ := Option.bind_eq_some_iff.mp h
  obtain ⟨instruction, rfl, hwrites⟩ := flagUse_eq_some_false huse
  unfold writesFlags at hwrites
  unfold drawnLeave leave
  rw [hitem]
  cases hinfo : Isa.findOpcode instruction.machine.opcode with
  | none =>
    rw [hinfo] at hwrites
    cases hwrites
  | some info =>
    rw [hinfo] at hwrites
    have hbranch : info.isBranch = false := by
      by_contra hne
      have := branch_writesFlags info (Isa.mem_of_findOpcode hinfo) (by simpa using hne)
      exact absurd hwrites (by simp [this])
    simp [hinfo, hbranch]

/-- The blocks of a section with their successors. -/
def linked : List Block :=
  linkSuccessors items (splitBlocks items).labelBlock (splitBlocks items).blocks

/-- The graph the analysis solves. -/
def graphOf : Liveness.Graph := flagGraph oob items (linked items)

variable {oob items} {k : ℕ} {b : Block}

theorem linkBlock_begin_stop (items : List Item) (k : ℕ) (b : Block)
    (labelBlock : List (Str × ℕ)) (count : ℕ) :
    (linkBlock items labelBlock count k b).begin = b.begin ∧
      (linkBlock items labelBlock count k b).stop = b.stop := by
  unfold linkBlock
  dsimp only
  repeat' first
    | exact ⟨rfl, rfl⟩
    | split

theorem getElem?_linked : (linked items)[k]? = ((splitBlocks items).blocks[k]?).map
    (linkBlock items (splitBlocks items).labelBlock (splitBlocks items).blocks.length k) := by
  unfold linked linkSuccessors
  rw [List.getElem?_mapIdx]

@[simp] theorem length_linked : (linked items).length = (splitBlocks items).blocks.length := by
  simp [linked, linkSuccessors]

@[simp] theorem graphOf_size : (graphOf oob items).size = (splitBlocks items).blocks.length := by
  simp [graphOf, flagGraph]

theorem succ_le_length {j : ℕ}
    (hj : j ∈ (linkBlock items (splitBlocks items).labelBlock (splitBlocks items).blocks.length k
      b).successors) : j ≤ (splitBlocks items).blocks.length := by
  rcases mem_successors hj with ⟨-, rfl, hlt⟩ | ⟨reference, -, hlookup⟩
  · exact hlt.le
  · rw [splitBlocks_labelBlock] at hlookup
    obtain ⟨p, -, rfl⟩ := Option.map_eq_some_iff.mp hlookup
    exact List.findIdx_le_length

variable (hb : (splitBlocks items).blocks[k]? = some b)
include hb

theorem graphOf_gen : (graphOf oob items).gen k = blockReadsFlagsBeforeWriting items b := by
  obtain ⟨hbegin, hstop⟩ := linkBlock_begin_stop items k b
    (splitBlocks items).labelBlock (splitBlocks items).blocks.length
  simp only [graphOf, flagGraph, getElem?_linked, hb, Option.map_some, Option.any_some,
    blockReadsFlagsBeforeWriting, hbegin, hstop]

theorem graphOf_kill : (graphOf oob items).kill k = blockWritesFlags items b := by
  obtain ⟨hbegin, hstop⟩ := linkBlock_begin_stop items k b
    (splitBlocks items).labelBlock (splitBlocks items).blocks.length
  simp only [graphOf, flagGraph, getElem?_linked, hb, Option.map_some, Option.any_some,
    blockWritesFlags, hbegin, hstop]

theorem graphOf_unknown : (graphOf oob items).unknown k =
    (linkBlock items (splitBlocks items).labelBlock (splitBlocks items).blocks.length k
      b).unknownSuccessor := by
  simp [graphOf, flagGraph, getElem?_linked, hb]

theorem graphOf_succ : (graphOf oob items).succ k =
    (linkBlock items (splitBlocks items).labelBlock (splitBlocks items).blocks.length k
      b).successors := by
  simp [graphOf, flagGraph, getElem?_linked, hb]

/-- A block draws the edges of the item at `q`. -/
def Draws (oob : Bool) (items : List Item) (q : ℕ) (block : Block) : Prop :=
  (drawnLeave oob items q = none ↔ block.unknownSuccessor = true ∨
    (oob = true ∧ (splitBlocks items).blocks.length ∈ block.successors)) ∧
  ∀ l, drawnLeave oob items q = some l → ∀ j < (splitBlocks items).blocks.length,
    (j ∈ block.successors ↔ ∃ q' ∈ l, blockAfter (splitBlocks items).blocks q' = j)

omit hb in
theorem length_not_mem_fall (through : Bool) : (splitBlocks items).blocks.length ∉
    (if (through && decide (k + 1 < (splitBlocks items).blocks.length)) = true
      then [k + 1] else []) := by
  split_ifs with hnext
  · obtain ⟨-, hlt⟩ := (Bool.and_eq_true _ _).mp hnext
    rw [List.mem_singleton]
    exact Nat.ne_of_gt (of_decide_eq_true hlt)
  · exact List.not_mem_nil

/-- Running on leads into the next block. -/
theorem mem_fall {q j : ℕ} (hstop : q + 1 = b.stop) (hj : j < (splitBlocks items).blocks.length)
    (ends : Bool) :
    j ∈ (if (!ends && decide (k + 1 < (splitBlocks items).blocks.length)) = true
      then [k + 1] else []) ↔
        ∃ q' ∈ (if ends = true then [] else [q + 1]), blockAfter
          (splitBlocks items).blocks q' = j := by
  have hnext : blockAfter (splitBlocks items).blocks (q + 1) = k + 1 := by
    rw [hstop]
    exact (splitBlocks_partition items).blockAfter_stop hb
  cases ends with
  | true => simp
  | false =>
    by_cases hlt : k + 1 < (splitBlocks items).blocks.length
    · simp [hlt, hnext, eq_comm]
    · simp [hlt, hnext]
      omega

omit hb in
theorem draws_unknown {q : ℕ} {block : Block} (hgo : drawnLeave oob items q = none)
    (hunknown : block.unknownSuccessor = true) : Draws oob items q block := by
  refine ⟨⟨fun _ => .inl hunknown, fun _ => hgo⟩, fun l hl => ?_⟩
  rw [hgo] at hl
  cases hl

/-- Control runs on, or ends here. -/
theorem draws_fall {q : ℕ} {block : Block} (hstop : q + 1 = b.stop) (ends : Bool)
    (hgo : drawnLeave oob items q = some (if ends = true then [] else [q + 1]))
    (hsucc : block.successors =
      if (!ends && decide (k + 1 < (splitBlocks items).blocks.length)) = true then [k + 1] else [])
    (hunknown : block.unknownSuccessor = false) : Draws oob items q block := by
  unfold Draws
  rw [hgo, hsucc, hunknown]
  refine ⟨⟨nofun, ?_⟩, fun l hl j hj => ?_⟩
  · rintro (hfalse | ⟨-, hmem⟩)
    · cases hfalse
    · exact absurd hmem (length_not_mem_fall _)
  · cases hl
    exact mem_fall hb hstop hj ends

/-- Control may also go to a label. -/
theorem draws_target {q p : ℕ} {block : Block} (hbegin : b.begin ≤ q) (hstop : q + 1 = b.stop)
    (ends : Bool) (hgo : drawnLeave oob items q =
      if (isTrailing items p && oob) = true then none
      else some ((if ends = true then [] else [q + 1]) ++ [p]))
    (hsucc : block.successors =
      (if (!ends && decide (k + 1 < (splitBlocks items).blocks.length)) = true
        then [k + 1] else []) ++ [blockAfter (splitBlocks items).blocks p])
    (hunknown : block.unknownSuccessor = false) : Draws oob items q block := by
  have htrailing := (splitBlocks_partition items).isTrailing_iff hb (by omega) (p := p)
  have hend : (splitBlocks items).blocks.length ∈ block.successors ↔ isTrailing items p = true := by
    rw [hsucc, List.mem_append, List.mem_singleton, htrailing]
    exact ⟨fun h => (h.resolve_left (length_not_mem_fall _)).symm, fun h => .inr h.symm⟩
  unfold Draws
  rw [hgo, hunknown, hend]
  constructor
  · split_ifs with hpast
    · obtain ⟨htrailing, hoob⟩ := (Bool.and_eq_true _ _).mp hpast
      exact ⟨fun _ => .inr ⟨hoob, htrailing⟩, fun _ => rfl⟩
    · refine ⟨nofun, ?_⟩
      rintro (hfalse | ⟨hoob, htrailing⟩)
      · cases hfalse
      · exact absurd ((Bool.and_eq_true _ _).mpr ⟨htrailing, hoob⟩) hpast
  · intro l hl j hj
    by_cases hpast : (isTrailing items p && oob) = true
    · rw [if_pos hpast] at hl
      cases hl
    rw [if_neg hpast] at hl
    cases hl
    rw [hsucc, List.mem_append, mem_fall hb hstop hj, List.mem_singleton]
    constructor
    · rintro (⟨q', hq', heq⟩ | heq)
      · exact ⟨q', List.mem_append_left _ hq', heq⟩
      · exact ⟨p, List.mem_append_right _ (List.mem_singleton_self p), heq.symm⟩
    · rintro ⟨q', hq', heq⟩
      rcases List.mem_append.mp hq' with hq' | hq'
      · exact .inl ⟨q', hq', heq⟩
      · rw [List.mem_singleton] at hq'
        exact .inr (hq' ▸ heq.symm)

/-- The last item of a block that ends no block is followed by the next block. -/
theorem draws_of_not_endsAt {q : ℕ} (hstop : q + 1 = b.stop)
    (hends : ¬EndsAt items q) : Draws oob items q (linkBlock items (splitBlocks items).labelBlock
      (splitBlocks items).blocks.length k b) := by
  have hpart := splitBlocks_partition items
  have hmem := List.mem_of_getElem? hb
  have hlen : q < items.length := by
    have := hpart.stop_le b hmem
    omega
  have hplain : linkBlock items (splitBlocks items).labelBlock (splitBlocks items).blocks.length k b
      = { b with
          successors := if k + 1 < (splitBlocks items).blocks.length then [k + 1] else [],
          unknownSuccessor := false } := by
    unfold linkBlock
    cases hlast : terminator items b.begin b.stop with
    | none => simp
    | some instruction =>
      have hnot : endsBlock instruction.machine.opcode = false := by
        by_contra hne
        obtain ⟨r, hr, hrstop, hitem⟩ := terminator_eq_some hlast
        have hrends : EndsAt items r := ⟨instruction, hitem, by simpa using hne⟩
        by_cases hrq : r = q
        · exact hends (hrq ▸ hrends)
        · exact hpart.ends b hmem r hr (by omega) hrends
      obtain ⟨info, hinfo, hbranch, hterm⟩ := info_of_not_endsBlock hnot
      simp [hinfo, hbranch, hterm]
  refine draws_fall hb hstop false (drawnLeave_of_not_endsAt hlen hends oob) ?_ (by rw [hplain])
  rw [hplain]
  simp

variable (oob) in
/-- A block draws the edges of its last item. -/
theorem draws_last {q : ℕ} (hbegin : b.begin ≤ q) (hstop : q + 1 = b.stop) :
    Draws oob items q (linkBlock items (splitBlocks items).labelBlock
      (splitBlocks items).blocks.length k b) := by
  by_cases hends : EndsAt items q
  · -- the last item may transfer control
    obtain ⟨instruction, hitem, hends⟩ := hends
    have hlast : terminator items b.begin b.stop = some instruction := by
      rw [← hstop]
      exact terminator_last hbegin hitem
    have hleave : drawnLeave oob items q = leave (fun opcode => opcode = .CALL)
        (drawnTarget oob items) q (.instruction instruction) := by
      unfold drawnLeave
      rw [hitem]
    unfold leave at hleave
    dsimp only at hleave
    unfold linkBlock
    simp only [hlast, Option.bind_some]
    cases hinfo : Isa.findOpcode instruction.machine.opcode with
    | none =>
      rw [hinfo] at hleave
      exact draws_fall hb hstop false hleave rfl rfl
    | some info =>
      simp only [hinfo] at hleave
      cases hbranch : info.isBranch with
      | false =>
        simp only [hbranch, Bool.not_false, if_true] at hleave
        exact draws_fall hb hstop info.isTerminator hleave (by simp [hbranch]) (by simp [hbranch])
      | true =>
        simp only [hbranch, Bool.not_true, Bool.false_eq_true, if_false] at hleave
        by_cases hcall : instruction.machine.opcode = .CALL
        · simp only [hcall, decide_true, if_true] at hleave
          exact draws_unknown hleave (by simp [hbranch, hcall])
        · simp only [hcall, decide_false, Bool.false_eq_true, if_false] at hleave
          cases hsymbol : instruction.symbol with
          | none =>
            rw [hsymbol] at hleave
            exact draws_unknown hleave (by simp [hbranch, hcall])
          | some reference =>
            simp only [hsymbol, drawnTarget] at hleave
            cases hlabel : labelIndex items reference.name with
            | none =>
              rw [hlabel] at hleave
              exact draws_unknown hleave (by simp [hbranch, hcall, splitBlocks_labelBlock, hlabel])
            | some p =>
              simp only [hlabel] at hleave
              refine draws_target hb hbegin hstop info.isTerminator (p := p) ?_ ?_ ?_
              · rw [hleave]
                cases isTrailing items p && oob with
                | true => rfl
                | false => rfl
              · simp [hbranch, hcall, splitBlocks_labelBlock, hlabel]
              · simp [hbranch, hcall, splitBlocks_labelBlock, hlabel]
  · exact draws_of_not_endsAt hb hstop hends

variable (oob) in
/-- The edges of a block are those of its last item. -/
theorem edges {q : ℕ} (hbegin : b.begin ≤ q) (hstop : q + 1 = b.stop) :
    (drawnLeave oob items q = none ↔ (graphOf oob items).unknown k = true ∨
      (oob = true ∧ (splitBlocks items).blocks.length ∈ (graphOf oob items).succ k)) ∧
    ∀ l, drawnLeave oob items q = some l → ∀ j < (splitBlocks items).blocks.length,
      (j ∈ (graphOf oob items).succ k ↔ ∃ q' ∈ l,
        blockAfter (splitBlocks items).blocks q' = j) := by
  rw [graphOf_unknown hb, graphOf_succ hb]
  exact draws_last oob hb hbegin hstop

/-- A branch goes to a label, which is not inside a block; running on, to the end of the block. -/
theorem le_begin_of_next {q q' : ℕ} (hstop : q + 1 = b.stop)
    (hnext : Next (drawnLeave oob items) q q') {c : Block}
    (hc : (splitBlocks items).blocks[blockAfter (splitBlocks items).blocks q']? = some c) :
    q' ≤ c.begin := by
  have hpart := splitBlocks_partition items
  have hlt := getElem_blockAfter hc
  have hlabel : IsLabelAt items q' → q' ≤ c.begin := by
    intro hl
    by_contra hle
    exact hpart.inside c (List.mem_of_getElem? hc) q' (by omega) hlt hl
  have hfall : q' = q + 1 → q' ≤ c.begin := by
    rintro rfl
    have hafter := hpart.blockAfter_stop hb
    rw [← hstop] at hafter
    rw [hafter] at hc
    have := hpart.stop_le_begin hb hc (Nat.lt_succ_self k)
    omega
  obtain ⟨l, hl, hq'⟩ := hnext
  unfold drawnLeave at hl
  cases hitem : items[q]? with
  | none =>
    rw [hitem] at hl
    cases hl
    cases hq'
  | some item =>
    rw [hitem] at hl
    rcases mem_leave hl hq' with hq' | ⟨reference, htarget⟩
    · exact hfall hq'
    · exact hlabel (isLabelAt_of_drawnTarget htarget)

end Edges

/-! ### Liveness at a position -/

section Positions

variable (oob : Bool) (items : List Item)

/-- FLAGS are live before position `q` of block `k`, by the solution of the block equations. -/
def LiveAt (k : ℕ) (b : Block) (q : ℕ) : Prop :=
  match flagScan items q b.stop with
  | some reads => reads = true
  | none => (graphOf oob items).LiveAfter k

/-- The same for a position in a block or among the labels before it. -/
def LiveHere (q : ℕ) : Prop :=
  ∃ b, (splitBlocks items).blocks[blockAfter (splitBlocks items).blocks q]? = some b ∧
    LiveAt oob items (blockAfter (splitBlocks items).blocks q) b (max q b.begin)

variable {oob items} {k : ℕ} {b : Block}

theorem liveAt_stop : LiveAt oob items k b b.stop ↔ (graphOf oob items).LiveAfter k := by
  unfold LiveAt
  rw [flagScan_of_stop_le le_rfl]

variable (hb : (splitBlocks items).blocks[k]? = some b)
include hb

theorem liveAt_step {q : ℕ} (hq : q < b.stop) : LiveAt oob items k b q ↔
    ReadsAt items q ∨ ¬WritesAt items q ∧ LiveAt oob items k b (q + 1) := by
  have hstop := (splitBlocks_partition items).stop_le b (List.mem_of_getElem? hb)
  unfold LiveAt ReadsAt WritesAt
  rw [flagScan_step hq hstop]
  cases (items[q]?).bind flagUse with
  | none => simp
  | some reads => cases reads <;> simp

/-- A block is live when its beginning is. -/
theorem live_iff : (graphOf oob items).Live k ↔ LiveAt oob items k b b.begin := by
  have hk : k < (graphOf oob items).size := by
    rw [graphOf_size]
    exact (List.getElem?_eq_some_iff.mp hb).1
  have hgen : (graphOf oob items).gen k = true ↔
      flagScan items b.begin b.stop = some true := by
    rw [graphOf_gen hb, blockReadsFlagsBeforeWriting, decide_eq_true_eq]
  have hlive : (graphOf oob items).Live k ↔ (graphOf oob items).gen k = true ∨
      (graphOf oob items).kill k = false ∧ (graphOf oob items).LiveAfter k := by
    constructor
    · intro hlive
      cases hlive with
      | gen _ hgen => exact Or.inl hgen
      | outside hsize _ => omega
      | unknown _ hkill hunknown => exact Or.inr ⟨hkill, Or.inl hunknown⟩
      | succ _ hkill hj hlive => exact Or.inr ⟨hkill, Or.inr ⟨_, hj, hlive⟩⟩
    · rintro (hgen | ⟨hkill, hafter⟩)
      · exact Liveness.Graph.Live.gen hk hgen
      · exact hafter.live hk hkill
  rw [hlive, hgen, graphOf_kill hb]
  unfold LiveAt
  cases hscan : flagScan items b.begin b.stop with
  | none => simp [blockWritesFlags_of_scan_none hscan]
  | some reads =>
    cases reads with
    | true => simp
    | false => simp [blockWritesFlags_of_scan hscan]

theorem liveHere_inside {q : ℕ} (hbegin : b.begin ≤ q) (hstop : q < b.stop) :
    LiveHere oob items q ↔ LiveAt oob items k b q := by
  have hafter := (splitBlocks_partition items).blockAfter_inside hb hbegin hstop
  unfold LiveHere
  rw [hafter, hb]
  constructor
  · rintro ⟨c, hc, hlive⟩
    cases hc
    rwa [max_eq_left hbegin] at hlive
  · intro hlive
    refine ⟨b, rfl, ?_⟩
    rwa [max_eq_left hbegin]

/-- The successors of a block carry the liveness of what its last item leads to. -/
theorem liveAfter_iff {q : ℕ} (hbegin : b.begin ≤ q) (hstop : q + 1 = b.stop) :
    (graphOf oob items).LiveAfter k ↔ drawnLeave oob items q = none ∨
      ∃ q', Next (drawnLeave oob items) q q' ∧ LiveHere oob items q' := by
  obtain ⟨hnone, hsome⟩ := edges oob hb hbegin hstop
  have hhere : ∀ q', Next (drawnLeave oob items) q q' →
      (LiveHere oob items q' ↔
        blockAfter (splitBlocks items).blocks q' < (splitBlocks items).blocks.length ∧
        (graphOf oob items).Live (blockAfter (splitBlocks items).blocks q')) := by
    intro q' hnext
    constructor
    · rintro ⟨c, hc, hlive⟩
      rw [max_eq_right (le_begin_of_next hb hstop hnext hc)] at hlive
      exact ⟨(List.getElem?_eq_some_iff.mp hc).1, (live_iff hc).mpr hlive⟩
    · rintro ⟨hlt, hlive⟩
      have hc := List.getElem?_eq_getElem hlt
      refine ⟨_, hc, ?_⟩
      rw [max_eq_right (le_begin_of_next hb hstop hnext hc)]
      exact (live_iff hc).mp hlive
  constructor
  · rintro (hunknown | ⟨j, hj, hlive⟩)
    · exact Or.inl (hnone.mpr (Or.inl hunknown))
    · by_cases hlt : j < (splitBlocks items).blocks.length
      · cases hgo : drawnLeave oob items q with
        | none => exact Or.inl rfl
        | some l =>
          obtain ⟨q', hq', rfl⟩ := (hsome l hgo j hlt).mp hj
          exact Or.inr ⟨q', ⟨l, hgo, hq'⟩, (hhere q' ⟨l, hgo, hq'⟩).mpr ⟨hlt, hlive⟩⟩
      · left
        apply hnone.mpr
        cases hlive with
        | outside hsize hoob =>
          have hle : j ≤ (splitBlocks items).blocks.length := by
            rw [graphOf_succ hb] at hj
            exact succ_le_length hj
          have heq : j = (splitBlocks items).blocks.length := by omega
          exact Or.inr ⟨hoob, heq ▸ hj⟩
        | gen hsize _ | unknown hsize _ _ | succ hsize _ _ _ =>
          rw [graphOf_size] at hsize
          exact absurd hsize hlt
  · rintro (hgo | ⟨q', hnext, hlive⟩)
    · rcases hnone.mp hgo with hunknown | ⟨hoob, hmem⟩
      · exact Or.inl hunknown
      · exact Or.inr ⟨_, hmem, Liveness.Graph.Live.outside (graphOf_size).le hoob⟩
    · obtain ⟨hlt, hlive⟩ := (hhere q' hnext).mp hlive
      obtain ⟨l, hgo, hq'⟩ := hnext
      exact Or.inr ⟨_, (hsome l hgo _ hlt).mpr ⟨q', hq', rfl⟩, hlive⟩

/-- What needs FLAGS after a position of a block is what its scan or its successors find. -/
theorem leaves_iff {q : ℕ} (hbegin : b.begin ≤ q) (hstop : q < b.stop) :
    (drawnLeave oob items q = none ∨
      ∃ q', Next (drawnLeave oob items) q q' ∧ LiveHere oob items q') ↔
      LiveAt oob items k b (q + 1) := by
  have hpart := splitBlocks_partition items
  have hmem := List.mem_of_getElem? hb
  have hlen := hpart.stop_le b hmem
  by_cases hlast : q + 1 = b.stop
  · rw [← liveAfter_iff hb hbegin hlast, hlast, liveAt_stop]
  · have hgo := drawnLeave_of_not_endsAt (by omega) (hpart.ends b hmem q hbegin (by omega)) oob
    rw [← liveHere_inside hb (by omega) (by omega)]
    constructor
    · rintro (hnone | ⟨q', ⟨l, hl, hq'⟩, hlive⟩)
      · rw [hgo] at hnone
        cases hnone
      · rw [hgo] at hl
        cases hl
        rwa [List.mem_singleton.mp hq'] at hlive
    · intro hlive
      exact Or.inr ⟨q + 1, ⟨_, hgo, List.mem_singleton_self _⟩, hlive⟩

omit hb

/-- A label is live when what follows it is. -/
theorem liveHere_label {q : ℕ} (hl : IsLabelAt items q) (h : LiveHere oob items (q + 1)) :
    LiveHere oob items q := by
  have hpart := splitBlocks_partition items
  obtain ⟨b, hb, hlive⟩ := h
  have hmem := List.mem_of_getElem? hb
  have hstop := getElem_blockAfter hb
  have hbegin : q < b.begin := by
    by_contra hle
    exact hpart.inside b hmem q (by omega) (by omega) hl
  have hafter : blockAfter (splitBlocks items).blocks q =
      blockAfter (splitBlocks items).blocks (q + 1) := by
    apply blockAfter_eq hb (by omega)
    intro j a hj ha
    have hle := stop_le_of_lt_blockAfter hj ha
    have hk := (List.getElem?_eq_some_iff.mp hb).1
    have hlt := hpart.nonempty (by omega) a (List.mem_of_getElem? ha)
    by_contra hgt
    exact hpart.inside a (List.mem_of_getElem? ha) q (by omega) (by omega) hl
  refine ⟨b, hafter ▸ hb, ?_⟩
  rw [hafter, max_eq_right hbegin.le]
  rwa [max_eq_right (by omega)] at hlive

/-- The solution of the block equations covers every path along the drawn edges. -/
theorem liveHere_of_needed {q : ℕ} (h : Needed items (drawnLeave oob items) q) :
    LiveHere oob items q := by
  have hpart := splitBlocks_partition items
  have hinside : ∀ q, q < items.length → ¬IsLabelAt items q →
      (ReadsAt items q ∨ ¬WritesAt items q ∧ (drawnLeave oob items q = none ∨
        ∃ q', Next (drawnLeave oob items) q q' ∧ LiveHere oob items q')) →
      LiveHere oob items q := by
    intro q hlen hl hcase
    obtain ⟨k, b, hb, hbegin, hstop⟩ := hpart.exists_block hlen hl
    rw [liveHere_inside hb hbegin hstop, liveAt_step hb hstop, ← leaves_iff hb hbegin hstop]
    exact hcase
  have hpast : ∀ q, ¬q < items.length → drawnLeave oob items q = some [] := by
    intro q hlen
    unfold drawnLeave
    rw [List.getElem?_eq_none (by omega)]
  refine UseFirst.induction ?_ ?_ h
  · intro q huse
    have hlen : q < items.length := by
      by_contra hlen
      rcases huse with hreads | hnone
      · rw [ReadsAt, List.getElem?_eq_none (by omega)] at hreads
        cases hreads
      · rw [hpast q hlen] at hnone
        cases hnone
    have hl : ¬IsLabelAt items q := by
      intro hl
      obtain ⟨-, hflat, hgo⟩ := isLabelAt_iff_flat hl
      rcases huse with hreads | hnone
      · rw [ReadsAt, hflat] at hreads
        cases hreads
      · rw [hgo] at hnone
        cases hnone
    apply hinside q hlen hl
    rcases huse with hreads | hnone
    · exact Or.inl hreads
    · by_cases hwrites : WritesAt items q
      · exact absurd hnone (drawnLeave_ne_none_of_writesAt hwrites oob)
      · exact Or.inr ⟨hwrites, Or.inl hnone⟩
  · intro q q' hwrites hnext hlive
    have hlen : q < items.length := by
      by_contra hlen
      obtain ⟨l, hgo, hq'⟩ := hnext
      rw [hpast q hlen] at hgo
      cases hgo
      cases hq'
    by_cases hl : IsLabelAt items q
    · obtain ⟨-, -, hgo⟩ := isLabelAt_iff_flat hl
      obtain ⟨l, hgo', hq'⟩ := hnext
      rw [hgo] at hgo'
      cases hgo'
      rw [List.mem_singleton.mp hq'] at hlive
      exact liveHere_label hl hlive
    · exact hinside q hlen hl (Or.inr ⟨hwrites, Or.inr ⟨q', hnext, hlive⟩⟩)

/-- Labels are passed on the way to a block. -/
theorem needed_of_begin {q : ℕ} (hb : (splitBlocks items).blocks[blockAfter
    (splitBlocks items).blocks q]? = some b) (hq : q ≤ b.begin)
    (h : Needed items (drawnLeave oob items) b.begin) : Needed items (drawnLeave oob items) q := by
  have hlabels : ∀ r, q ≤ r → r < b.begin → IsLabelAt items r :=
    fun r hqr hr => (splitBlocks_partition items).isLabelAt_of_lt_begin hb hqr hr
  clear hb
  induction hn : b.begin - q generalizing q with
  | zero =>
    have : q = b.begin := by omega
    rwa [this]
  | succ n ih =>
    obtain ⟨-, hflat, hgo⟩ := isLabelAt_iff_flat (hlabels q le_rfl (by omega))
    refine UseFirst.step ?_ ⟨_, hgo oob, List.mem_singleton_self _⟩
      (ih (by omega) (fun r hqr hr => hlabels r (by omega) hr) (by omega))
    rw [WritesAt, hflat]
    simp

include hb

/-- A block with an edge has an item. -/
theorem begin_lt_stop_of_link (h : (graphOf oob items).unknown k = true ∨
    ∃ j, j ∈ (graphOf oob items).succ k) : b.begin < b.stop := by
  have hpart := splitBlocks_partition items
  by_contra hle
  have hnone : terminator items b.begin b.stop = none := by
    cases hlast : terminator items b.begin b.stop with
    | none => rfl
    | some instruction =>
      obtain ⟨r, hr, hrstop, -⟩ := terminator_eq_some hlast
      omega
  have hone : ¬k + 1 < (splitBlocks items).blocks.length := by
    intro hlt
    exact hle (hpart.nonempty (by omega) b (List.mem_of_getElem? hb))
  rw [graphOf_unknown hb, graphOf_succ hb] at h
  unfold linkBlock at h
  simp [hnone, hone] at h

/-- A block that does not write FLAGS, and after which they are needed, reads them or passes them
through. -/
theorem scan_of_not_kill (hkill : (graphOf oob items).kill k = false)
    (h : NeededAfter items (drawnLeave oob items) (b.stop - 1)) :
    flagScan items b.begin b.stop = some true ∨ flagScan items b.begin b.stop = none ∧
      NeededAfter items (drawnLeave oob items) (b.stop - 1) := by
  rw [graphOf_kill hb] at hkill
  cases hscan : flagScan items b.begin b.stop with
  | none => exact Or.inr ⟨rfl, h⟩
  | some reads =>
    cases reads with
    | true => exact Or.inl rfl
    | false =>
      rw [blockWritesFlags_of_scan hscan] at hkill
      cases hkill

/-- A block that passes FLAGS through, or reads them, needs them. -/
theorem needed_in_block {q : ℕ} (hbegin : b.begin ≤ q) (hstop : q < b.stop)
    (h : flagScan items q b.stop = some true ∨ flagScan items q b.stop = none ∧
      NeededAfter items (drawnLeave oob items) (b.stop - 1)) :
    Needed items (drawnLeave oob items) q := by
  have hpart := splitBlocks_partition items
  have hmem := List.mem_of_getElem? hb
  have hlen := hpart.stop_le b hmem
  induction hn : b.stop - q generalizing q with
  | zero => omega
  | succ n ih =>
    rw [flagScan_step hstop hlen] at h
    by_cases hreads : ReadsAt items q
    · exact UseFirst.here (Or.inl hreads)
    · have hflat : (items[q]?).bind flagUse = none := by
        cases huse : (items[q]?).bind flagUse with
        | none => rfl
        | some reads =>
          rw [huse] at h
          cases reads with
          | true => exact absurd huse hreads
          | false => simp at h
      have hwrites : ¬WritesAt items q := by
        rw [WritesAt, hflat]
        simp
      rw [hflat, Option.none_or] at h
      by_cases hlast : q + 1 = b.stop
      · rw [hlast, flagScan_of_stop_le le_rfl] at h
        rcases h with h | ⟨-, hafter⟩
        · cases h
        · rw [← hlast, Nat.add_sub_cancel] at hafter
          rcases hafter with hnone | ⟨q', hnext, hneeded⟩
          · exact UseFirst.here (Or.inr hnone)
          · exact UseFirst.step hwrites hnext hneeded
      · have hgo := drawnLeave_of_not_endsAt (by omega)
          (hpart.ends b hmem q hbegin (by omega)) oob
        exact UseFirst.step hwrites ⟨_, hgo, List.mem_singleton_self _⟩
          (ih (by omega) (by omega) h (by omega))

/-- The block equations' solution is reached by a path along the drawn edges. -/
theorem needed_of_live (h : (graphOf oob items).Live k) :
    Needed items (drawnLeave oob items) b.begin := by
  have hpart := splitBlocks_partition items
  induction h generalizing b with
  | @gen i hi hgen =>
    rw [graphOf_gen hb, blockReadsFlagsBeforeWriting, decide_eq_true_eq] at hgen
    have hlt : b.begin < b.stop := by
      by_contra hle
      rw [flagScan_of_stop_le (by omega)] at hgen
      cases hgen
    exact needed_in_block hb le_rfl hlt (Or.inl hgen)
  | outside hi _ =>
    rw [graphOf_size] at hi
    exact absurd (List.getElem?_eq_some_iff.mp hb).1 (by omega)
  | @unknown i hi hkill hunknown =>
    have hlt := begin_lt_stop_of_link hb (Or.inl hunknown)
    have hnone := (edges oob hb (q := b.stop - 1) (by omega) (by omega)).1.mpr
      (Or.inl hunknown)
    refine needed_in_block hb le_rfl hlt (scan_of_not_kill hb hkill (Or.inl hnone))
  | @succ i j hi hkill hj hlive ih =>
    have hlt := begin_lt_stop_of_link hb (Or.inr ⟨j, hj⟩)
    obtain ⟨hnone, hsome⟩ := edges oob hb (q := b.stop - 1) (by omega) (by omega)
    refine needed_in_block hb le_rfl hlt (scan_of_not_kill hb hkill ?_)
    cases hgo : drawnLeave oob items (b.stop - 1) with
    | none => exact Or.inl hgo
    | some l =>
      by_cases hjlt : j < (splitBlocks items).blocks.length
      · obtain ⟨q', hq', rfl⟩ := (hsome l hgo j hjlt).mp hj
        have hc := List.getElem?_eq_getElem hjlt
        have hle := le_begin_of_next hb (by omega) ⟨l, hgo, hq'⟩ hc
        exact Or.inr ⟨q', ⟨l, hgo, hq'⟩, needed_of_begin hc hle (ih hc)⟩
      · have hle : j ≤ (splitBlocks items).blocks.length := by
          rw [graphOf_succ hb] at hj
          exact succ_le_length hj
        have heq : j = (splitBlocks items).blocks.length := by omega
        cases hlive with
        | outside hsize hoob =>
          left
          exact hnone.mpr (Or.inr ⟨hoob, heq ▸ hj⟩)
        | gen hsize _ | unknown hsize _ _ | succ hsize _ _ _ =>
          rw [graphOf_size] at hsize
          exact absurd hsize hjlt

omit hb

/-- What the block equations say of a position is what the paths from it say. -/
theorem needed_iff {q : ℕ} : Needed items (drawnLeave oob items) q ↔ LiveHere oob items q := by
  have hpart := splitBlocks_partition items
  have hbefore : ∀ q b, (splitBlocks items).blocks[blockAfter (splitBlocks items).blocks q]? =
      some b → q ≤ b.begin → LiveHere oob items q → Needed items (drawnLeave oob items) q := by
    intro q b hb hle hlive
    obtain ⟨c, hc, hlive⟩ := hlive
    rw [hb] at hc
    cases hc
    rw [max_eq_right hle] at hlive
    exact needed_of_begin hb hle (needed_of_live hb ((live_iff hb).mpr hlive))
  refine ⟨liveHere_of_needed, fun h => ?_⟩
  obtain ⟨b, hb, hlive⟩ := id h
  by_cases hle : q ≤ b.begin
  · exact hbefore q b hb hle h
  · have hbegin : b.begin < q := by omega
    have hstop := getElem_blockAfter hb
    rw [max_eq_left hbegin.le] at hlive
    apply needed_in_block hb hbegin.le hstop
    unfold LiveAt at hlive
    cases hscan : flagScan items q b.stop with
    | some reads =>
      rw [hscan] at hlive
      exact Or.inl (congrArg some hlive)
    | none =>
      rw [hscan] at hlive
      refine Or.inr ⟨rfl, ?_⟩
      rcases (liveAfter_iff hb (q := b.stop - 1) (by omega) (by omega)).mp hlive with
        hnone | ⟨q', hnext, hhere⟩
      · exact Or.inl hnone
      · obtain ⟨c, hc, -⟩ := id hhere
        have hle' := le_begin_of_next hb (by omega) hnext hc
        exact Or.inr ⟨q', hnext, hbefore q' c hc hle' hhere⟩

end Positions

/-! ### What the analysis finds -/

section

variable {oob : Bool} {items : List Item}

@[simp] theorem length_controlFlow_blocks :
    (controlFlow oob items).blocks.length = (splitBlocks items).blocks.length := by
  simp [controlFlow, computeFlagLiveness, linkSuccessors]

/-- The later steps leave the range of a block as it is, and liveness its successors. -/
theorem exists_split_block {k : ℕ} {b : Block} (h : (controlFlow oob items).blocks[k]? = some b) :
    ∃ a, (splitBlocks items).blocks[k]? = some a ∧ b.begin = a.begin ∧ b.stop = a.stop ∧
      b.successors = (linkBlock items (splitBlocks items).labelBlock
        (splitBlocks items).blocks.length k a).successors := by
  unfold controlFlow computeFlagLiveness at h
  dsimp only at h
  rw [List.getElem?_mapIdx] at h
  obtain ⟨c, hc, rfl⟩ := Option.map_eq_some_iff.mp h
  have hlinked := @getElem?_linked items k
  unfold linked at hlinked
  rw [hlinked] at hc
  obtain ⟨a, ha, rfl⟩ := Option.map_eq_some_iff.mp hc
  obtain ⟨hbegin, hstop⟩ := linkBlock_begin_stop items k a (splitBlocks items).labelBlock
    (splitBlocks items).blocks.length
  exact ⟨a, ha, hbegin, hstop, rfl⟩

end

section Analysis

variable {oob : Bool} {items : List Item} {k i : ℕ} {block : Block}
  (hblock : (controlFlow oob items).blocks[k]? = some block) (hbegin : block.begin ≤ i)
  (hstop : i < block.stop)
include hblock hbegin hstop

/-- **The analysis finds FLAGS dead exactly when no path along the drawn edges needs them.** -/
theorem flagsDeadAfter_iff : (controlFlow oob items).flagsDeadAfter k i = true ↔
    ¬NeededAfter items (drawnLeave oob items) i := by
  have hfinal := hblock
  have hsize : k < (splitBlocks items).blocks.length := by
    have := (List.getElem?_eq_some_iff.mp hblock).1
    simpa [controlFlow, computeFlagLiveness, linkSuccessors] using this
  have hb := List.getElem?_eq_getElem hsize
  generalize (splitBlocks items).blocks[k] = b at hb
  obtain ⟨hlinkBegin, hlinkStop⟩ := linkBlock_begin_stop items k b
    (splitBlocks items).labelBlock (splitBlocks items).blocks.length
  have hlink :
      (linkSuccessors items (splitBlocks items).labelBlock (splitBlocks items).blocks)[k]? =
      some (linkBlock items (splitBlocks items).labelBlock
          (splitBlocks items).blocks.length k b) := by
    have hlinked : (linked items)[k]? = _ := getElem?_linked
    rw [hb] at hlinked
    exact hlinked
  simp only [controlFlow, computeFlagLiveness, List.getElem?_mapIdx, hlink, Option.map_some,
    Option.some.injEq] at hblock
  have hblockBegin : block.begin = b.begin := by rw [← hblock, ← hlinkBegin]
  have hblockStop : block.stop = b.stop := by rw [← hblock, ← hlinkStop]
  have hout : block.flagsLiveOut = true ↔ (graphOf oob items).LiveAfter k := by
    rw [← Liveness.Graph.solve_liveOut (by rw [graphOf_size]; exact hsize), ← hblock]
    rfl
  have hneeded : NeededAfter items (drawnLeave oob items) i ↔ LiveAt oob items k b (i + 1) := by
    rw [← leaves_iff hb (hblockBegin ▸ hbegin) (hblockStop ▸ hstop)]
    unfold NeededAfter
    simp only [needed_iff]
  rw [hneeded]
  unfold ControlFlow.flagsDeadAfter LiveAt
  rw [hfinal, ← hblockStop]
  change (match flagScan items (i + 1) block.stop with
    | some reads => !reads
    | none => !block.flagsLiveOut) = true ↔ _
  cases flagScan items (i + 1) block.stop with
  | some reads => cases reads <;> simp
  | none => simp [← hout]

end Analysis

section Soundness

variable {items : List Item} {k i : ℕ} {b : Block} (hb : (splitBlocks items).blocks[k]? = some b)
  (hbegin : b.begin ≤ i) (hstop : i < b.stop)
include hb hbegin hstop

/-- The blocks of the graph are those of the split. -/
theorem dead_iff (oob : Bool) : (controlFlow oob items).flagsDeadAfter k i = true ↔
    ¬NeededAfter items (drawnLeave oob items) i := by
  have hlt : k < (controlFlow oob items).blocks.length := by
    rw [length_controlFlow_blocks]
    exact (List.getElem?_eq_some_iff.mp hb).1
  have hblock := List.getElem?_eq_getElem hlt
  obtain ⟨a, ha, hsameBegin, hsameStop, -⟩ := exists_split_block hblock
  obtain rfl := Option.some.inj (ha.symm.trans hb)
  exact flagsDeadAfter_iff hblock (hsameBegin.trans_le hbegin) (hstop.trans_eq hsameStop.symm)

/-- **FLAGS that are found dead are dead**, whatever is read out of bounds, as far as no path strays
before a write, or one that does not stray reads them first.  In a section whose branches have no
addends and whose RETs have no symbols, this is so only then. -/
theorem flagsDeadAfter_sound :
    (Sheltered items i → ∀ oob, (controlFlow oob items).flagsDeadAfter k i = true →
      ¬NeededAfter items (pathLeave items) i) ∧
    ((∀ q < items.length, straysAt items q = false) →
      ((∀ oob, (controlFlow oob items).flagsDeadAfter k i = true →
        ¬NeededAfter items (pathLeave items) i) ↔ Sheltered items i)) := by
  have henough : Sheltered items i → ∀ oob, (controlFlow oob items).flagsDeadAfter k i = true →
      ¬NeededAfter items (pathLeave items) i := by
    intro hsheltered oob hdead hneeded
    refine (dead_iff hb hbegin hstop oob).mp hdead ?_
    have hclean : NeededAfter items (cleanLeave items) i := by
      by_cases hstrays : StraysAfter items i
      · exact hsheltered hstrays
      · exact neededAfter_of_not_strays hneeded hstrays
    refine neededAfter_of_more (fun q => ?_) hclean
    unfold cleanLeave
    cases hstrays : straysAt items q with
    | true => exact .inr (.inr rfl)
    | false =>
      rw [← drawnLeave_eq_pathLeave hstrays]
      exact (drawnLeave_cases oob items q).imp_right .inl
  refine ⟨henough, fun hplain => ⟨fun hsound hstrays => ?_, henough⟩⟩
  have hlength : i < items.length :=
    hstop.trans_le ((splitBlocks_partition items).stop_le b (List.mem_of_getElem? hb))
  have hneeded := neededAfter_of_strays hplain hlength hstrays
  have hdrawn : NeededAfter items (drawnLeave false items) i := by
    by_contra hnone
    exact hsound false ((dead_iff hb hbegin hstop false).mpr hnone) hneeded
  refine neededAfter_of_more (fun q => ?_) hdrawn
  unfold cleanLeave
  cases hat : straysAt items q with
  | false => exact .inr (.inl (drawnLeave_eq_pathLeave hat).symm)
  | true =>
    -- only past the last item
    have hend : ¬q < items.length := fun hlt => by
      rw [hplain q hlt] at hat
      cases hat
    refine .inr (.inr ?_)
    unfold drawnLeave
    rw [List.getElem?_eq_none (Nat.not_lt.mp hend)]

end Soundness

/-- `again: ADD R1, R2`, `CMP R1, R3`, `JE again`, `HALT`. -/
def loopingSum : List Item := [
  .label { name := str "again" },
  .instruction { machine := { opcode := .ADD, dst := ⟨1⟩, src := ⟨2⟩ } },
  .instruction { machine := { opcode := .CMP, dst := ⟨1⟩, src := ⟨3⟩ } },
  .instruction { machine := { opcode := .JE }, symbol := some { name := str "again" } },
  .instruction { machine := { opcode := .HALT } }]

/-- The CMP writes what the ADD has written. -/
theorem flagsDeadAfter_sound_loopingSum :
    (controlFlow false loopingSum).flagsDeadAfter 0 1 = true ∧
      ¬NeededAfter loopingSum (pathLeave loopingSum) 1 := by
  have hsheltered : Sheltered loopingSum 1 := by
    rintro (hstrays | ⟨q, ⟨l, hl, hq⟩, hstrays⟩)
    · exact absurd hstrays (by decide)
    · obtain rfl : l = [2] := Option.some.inj (hl.symm.trans (by decide))
      obtain rfl := List.mem_singleton.mp hq
      obtain ⟨r, hpath, hr⟩ := hstrays
      rcases Relation.ReflTransGen.cases_head hpath with rfl | ⟨-, ⟨hwrites, -⟩, -⟩
      · exact absurd hr (by decide)
      · exact absurd (show WritesAt loopingSum 2 from rfl) hwrites
  have hdead : (controlFlow false loopingSum).flagsDeadAfter 0 1 = true := by decide
  exact ⟨hdead, (flagsDeadAfter_sound (show (splitBlocks loopingSum).blocks[0]? =
    some { begin := 1, stop := 4 } by decide) (by decide) (by decide)).1 hsheltered false hdead⟩

/-- `ADD R1, R2` at the end of a section. -/
def runsOff : List Item := [.instruction { machine := { opcode := .ADD, dst := ⟨1⟩, src := ⟨2⟩ } }]

/-- Control runs past the last item of the section, into code that may read FLAGS. -/
theorem flagsDeadAfter_runsOff :
    ((controlFlow false runsOff).blocks[0]?.any fun b => b.begin ≤ 0 ∧ 0 < b.stop) = true ∧
      (controlFlow false runsOff).flagsDeadAfter 0 0 = true ∧
      NeededAfter runsOff (pathLeave runsOff) 0 := by
  refine ⟨by decide, by decide, Or.inr ⟨1, ⟨[1], by decide, List.mem_singleton_self _⟩, ?_⟩⟩
  exact UseFirst.here (Or.inr (by decide))

end Optimizer
end MiniTool
