import MiniToolchain.Optimizer.Jumps

/-!
# What the passes have left to do

Each change of a run of the passes is one of a kind that cannot be repeated for ever: a NOP, a jump
or a constant is deleted, a move or a computation becomes a constant, a push and a pop become a move
or nothing.  The instructions that are reached have weights that say how many such changes are left
in them.

## Main definitions

* `weight` — how often the passes can still change an instruction.
* `reached` — the items without the instructions that nothing reaches.
* `workLeft` — a bound for the runs of the passes that a section can take.
* `Keeps` — a slot that weighs nothing is left alone.

## Main results

* `runPasses_cases` — a run of the passes changes nothing, or lowers what is left.
* `keeps_markPasses` — after the first pass, what weighs nothing stays.
-/

namespace MiniTool
namespace Optimizer

open Ir

/-- How often the passes can still change an item that is reached. -/
def weight : Item → ℕ
  | .instruction instruction =>
    match instruction.machine.opcode with
    | .NOP | .MOVI | .LEA | .PUSH => 1
    | .MOV | .POP => 2
    | .JMP => if instruction.symbol.any (·.addend = 0) then 1 else 0
    | .CMP | .TEST => 0
    | opcode => if Isa.isBinaryAlu opcode || Isa.isUnaryAlu opcode then 2 else 0
  | _ => 0

/-- The items without the instructions between a terminator and the next label. -/
def reached (reachable : Bool) : List Item → List Item
  | [] => []
  | .label l :: rest => .label l :: reached true rest
  | .instruction instruction :: rest =>
    if reachable then
      let terminates := (Isa.findOpcode instruction.machine.opcode).any (·.isTerminator)
      .instruction instruction :: reached (!terminates) rest
    else reached false rest
  | item :: rest => item :: reached reachable rest

def totalWeight (items : List Item) : ℕ := (items.map weight).sum

/-- The weight of what is reached, and one for the run that deletes what is not. -/
def workLeft (items : List Item) : ℕ :=
  totalWeight (reached true items) + if reached true items = items then 0 else 1

/-- The weight that is left of a slot. -/
def Slot.weight (slot : Slot) : ℕ := if slot.remove then 0 else Optimizer.weight slot.item

/-- What there is left to do. -/
def weigh (slots : List Slot) : ℕ := (slots.map Slot.weight).sum

theorem weigh_append (as bs : List Slot) : weigh (as ++ bs) = weigh as + weigh bs := by
  unfold weigh
  rw [List.map_append, List.sum_append]

theorem totalWeight_kept (slots : List Slot) : totalWeight (kept slots) = weigh slots := by
  induction slots with
  | nil => rfl
  | cons slot rest ih =>
    have hcons : weigh (slot :: rest) = slot.weight + weigh rest := rfl
    rw [kept_cons, hcons, ← ih]
    unfold Slot.weight
    split_ifs
    · rw [Nat.zero_add]
    · rfl

theorem weight_of_live? {slot : Slot} {instruction : Instruction}
    (h : slot.live? = some instruction) :
    slot.weight = weight (.instruction instruction) := by
  obtain ⟨hremove, hitem⟩ := Slot.live?_eq_some h
  unfold Slot.weight
  rw [hremove, hitem]
  rfl

/-! ### The weights of what the passes change -/

theorem weight_push {instruction : Instruction} (h : instruction.machine.opcode = .PUSH) :
    weight (.instruction instruction) = 1 := by
  unfold weight
  simp only [h]

theorem weight_pop {instruction : Instruction} (h : instruction.machine.opcode = .POP) :
    weight (.instruction instruction) = 2 := by
  unfold weight
  simp only [h]

theorem weight_jump {instruction : Instruction} (h : instruction.machine.opcode = .JMP)
    (hsymbol : instruction.symbol.any (·.addend = 0) = true) :
    weight (.instruction instruction) = 1 := by
  unfold weight
  simp only [h, hsymbol, if_true]

/-- A comparison is never folded. -/
theorem foldInstruction_compare {instruction : Instruction}
    (h : instruction.machine.opcode = .CMP ∨ instruction.machine.opcode = .TEST) (flagsDead : Bool)
    (constants : ConstantMap) : (foldInstruction flagsDead constants instruction).2 = none := by
  unfold foldInstruction
  dsimp only
  rcases h with h | h
  all_goals
    rw [h]
    simp only [reduceCtorEq, or_self, if_false, Isa.isBinaryAlu, Isa.isUnaryAlu, Bool.not_true,
      Bool.false_and, Bool.false_eq_true, if_true, Isa.evaluateBinary, Bool.not_false]
    split_ifs
    · rfl
    all_goals split <;> rfl

theorem weight_of_fold {flagsDead : Bool} {constants constants' : ConstantMap}
    {instruction folded : Instruction}
    (h : foldInstruction flagsDead constants instruction = (constants', some folded)) :
    weight (.instruction instruction) = 2 := by
  obtain ⟨-, halu, -⟩ := foldInstruction_eq_some h
  have hnot : ¬(instruction.machine.opcode = .CMP ∨ instruction.machine.opcode = .TEST) := by
    intro hcompare
    have hnone := foldInstruction_compare hcompare flagsDead constants
    rw [h] at hnone
    cases hnone
  unfold weight
  revert hnot halu
  cases hopcode : instruction.machine.opcode <;> simp [hopcode, Isa.isBinaryAlu, Isa.isUnaryAlu]

theorem weight_pos_of_isIdentity {instruction : Instruction} (h : isIdentity instruction = true) :
    0 < weight (.instruction instruction) := by
  unfold isIdentity at h
  simp only [Bool.and_eq_true, Bool.or_eq_true, decide_eq_true_eq] at h
  unfold weight
  rcases h.2 with ⟨hmov, -⟩ | hnop
  · simp only [hmov, Nat.ofNat_pos]
  · simp only [hnop, Nat.one_pos]

theorem weight_pos_of_pureDefine {instruction : Instruction}
    (h : pureDefine instruction.machine = true) : 0 < weight (.instruction instruction) := by
  obtain ⟨info, -, hpure⟩ := (Option.any_eq_true _ _).mp h
  simp only [Bool.and_eq_true, Bool.or_eq_true, decide_eq_true_eq] at hpure
  unfold weight
  rcases hpure.2 with (hmovi | hmov) | hlea
  · simp only [hmovi, Nat.one_pos]
  · simp only [hmov, Nat.ofNat_pos]
  · simp only [hlea, Nat.one_pos]
/-! ### Passes that change nothing, or say so -/

/-- A slot that weighs nothing is left alone. -/
def Keeps (a b : Slot) : Prop := a.weight = 0 → b = a

theorem Keeps.refl (a : Slot) : Keeps a a := fun _ => rfl

theorem Keeps.trans {a b c : Slot} (hab : Keeps a b) (hbc : Keeps b c) : Keeps a c := by
  intro ha
  obtain rfl := hab ha
  exact hbc ha

theorem Keeps.of_pos {a : Slot} (h : 0 < a.weight) (b : Slot) : Keeps a b :=
  fun hzero => absurd hzero (Nat.ne_of_gt h)

theorem keeps_refl (slots : List Slot) : List.Forall₂ Keeps slots slots :=
  List.forall₂_same.mpr fun a _ => Keeps.refl a

theorem keeps_trans {as bs cs : List Slot} (hab : List.Forall₂ Keeps as bs)
    (hbc : List.Forall₂ Keeps bs cs) : List.Forall₂ Keeps as cs := by
  induction hab generalizing cs with
  | nil => exact hbc
  | cons hone _ ih =>
    obtain - | ⟨hnext, hrest⟩ := hbc
    exact .cons (hone.trans hnext) (ih hrest)

/-- Nothing changed, or something did, which weighs less now and weighed something before. -/
def Simplifies (w w' : Work) : Prop :=
  w' = w ∨ (w'.changed = true ∧ weigh w'.slots < weigh w.slots ∧
    List.Forall₂ Keeps w.slots w'.slots)

namespace Simplifies

theorem refl (w : Work) : Simplifies w w := Or.inl rfl

theorem trans {w w' w'' : Work} (h : Simplifies w w') (h' : Simplifies w' w'') :
    Simplifies w w'' := by
  rcases h with rfl | ⟨hchanged, hlt, hkeeps⟩
  · exact h'
  · rcases h' with rfl | ⟨hchanged', hlt', hkeeps'⟩
    · exact Or.inr ⟨hchanged, hlt, hkeeps⟩
    · exact Or.inr ⟨hchanged', hlt'.trans hlt, keeps_trans hkeeps hkeeps'⟩

theorem keeps {w w' : Work} (h : Simplifies w w') : List.Forall₂ Keeps w.slots w'.slots := by
  rcases h with rfl | ⟨-, -, hkeeps⟩
  · exact keeps_refl _
  · exact hkeeps

theorem weigh_le {w w' : Work} (h : Simplifies w w') : weigh w'.slots ≤ weigh w.slots := by
  rcases h with rfl | ⟨-, hlt, -⟩
  · exact le_rfl
  · exact hlt.le

/-- The rest is simplified, and the slot before it kept. -/
theorem keep {slot : Slot} {rest : List Slot} {stats : OptStats} {changed : Bool} {w : Work}
    (h : Simplifies ⟨rest, stats, changed⟩ w) :
    Simplifies ⟨slot :: rest, stats, changed⟩ { w with slots := slot :: w.slots } := by
  rcases h with rfl | ⟨hchanged, hlt, hkeeps⟩
  · exact Or.inl rfl
  · refine Or.inr ⟨hchanged, ?_, .cons (Keeps.refl slot) hkeeps⟩
    show slot.weight + weigh w.slots < slot.weight + weigh rest
    exact Nat.add_lt_add_left hlt _

/-- The rest is simplified, and the slots before it changed. -/
theorem change (before before' : List Slot) {rest : List Slot} {stats stats' : OptStats}
    {changed : Bool} {w : Work} (h : Simplifies ⟨rest, stats', true⟩ w)
    (hlt : weigh before' < weigh before) (hbefore : List.Forall₂ Keeps before before') :
    Simplifies ⟨before ++ rest, stats, changed⟩ { w with slots := before' ++ w.slots } := by
  have hchanged : w.changed = true := by
    rcases h with rfl | ⟨hchanged, -, -⟩
    · rfl
    · exact hchanged
  refine Or.inr ⟨hchanged, ?_, List.rel_append hbefore h.keeps⟩
  have hrest := h.weigh_le
  dsimp only at hrest ⊢
  rw [weigh_append, weigh_append]
  omega

/-- One slot is changed, and weighs less. -/
theorem modify {w : Work} {i : ℕ} {slot : Slot} {f : Slot → Slot} (hslot : w.slots[i]? = some slot)
    (hlt : (f slot).weight < slot.weight) (stats : OptStats) :
    Simplifies w ⟨w.slots.modify i f, stats, true⟩ := by
  refine Or.inr ⟨rfl, ?_⟩
  dsimp only
  generalize w.slots = slots at hslot
  induction slots generalizing i with
  | nil => cases hslot
  | cons first rest ih =>
    cases i with
    | zero =>
      obtain rfl : first = slot := by simpa using hslot
      refine ⟨?_, .cons (Keeps.of_pos (Nat.zero_lt_of_lt hlt) _) (keeps_refl rest)⟩
      show (f first).weight + weigh rest < first.weight + weigh rest
      omega
    | succ i =>
      obtain ⟨hrest, hkeeps⟩ := ih (by simpa using hslot)
      refine ⟨?_, .cons (Keeps.refl first) hkeeps⟩
      show first.weight + weigh (rest.modify i f) < first.weight + weigh rest
      omega

end Simplifies

theorem peephole_simplifies (stats : OptStats) (changed : Bool) (slots : List Slot) :
    Simplifies ⟨slots, stats, changed⟩ (peephole stats changed slots) := by
  induction stats, changed, slots using peephole.induct with
  | case1 stats changed => exact .refl _
  | case2 stats changed slot => exact .refl _
  | case3 stats changed a b rest first second hsecond hfirst hpair hsame ih =>
    rw [peephole, hfirst, hsecond]
    dsimp only
    rw [if_pos hpair, if_pos hsame]
    have ha : a.weight = 1 := (weight_of_live? hfirst).trans (weight_push hpair.1)
    have hb : b.weight = 2 := (weight_of_live? hsecond).trans (weight_pop hpair.2)
    refine ih.change [a, b] [{ a with remove := true }, { b with remove := true }] ?_ ?_
    · show 0 + (0 + 0) < a.weight + (b.weight + 0)
      omega
    · exact .cons (.of_pos (by omega) _) (.cons (.of_pos (by omega) _) .nil)
  | case4 stats changed a b rest first second hsecond hfirst hpair hdifferent ih =>
    rw [peephole, hfirst, hsecond]
    dsimp only
    rw [if_pos hpair, if_neg hdifferent]
    have hremove := (Slot.live?_eq_some hfirst).1
    have ha : a.weight = 1 := (weight_of_live? hfirst).trans (weight_push hpair.1)
    have hb : b.weight = 2 := (weight_of_live? hsecond).trans (weight_pop hpair.2)
    -- the move weighs one more than the push; the pop goes
    refine ih.change [a, b] [{ a with item := .instruction { first with machine := _ } },
      { b with remove := true }] ?_ ?_
    · show (if a.remove = true then 0 else 2) + (0 + 0) < a.weight + (b.weight + 0)
      rw [hremove, if_neg Bool.false_ne_true]
      omega
    · exact .cons (.of_pos (by omega) _) (.cons (.of_pos (by omega) _) .nil)
  | case5 stats changed a b rest first second hsecond hfirst hpair ih =>
    rw [peephole, hfirst, hsecond]
    dsimp only
    rw [if_neg hpair]
    exact ih.keep
  | case6 stats changed a b rest hnot ih =>
    rw [peephole]
    split
    · next first second hfirst hsecond => exact (hnot first second hfirst hsecond).elim
    · exact ih.keep

theorem jumpToNext_simplifies (stats : OptStats) (changed : Bool) (slots : List Slot) :
    Simplifies ⟨slots, stats, changed⟩ (jumpToNext stats changed slots) := by
  induction slots generalizing stats changed with
  | nil => exact .refl _
  | cons slot rest ih =>
    unfold jumpToNext
    dsimp only
    split_ifs with hgoes
    · obtain ⟨instruction, hlive, hjump⟩ := (Option.any_eq_true _ _).mp hgoes
      obtain ⟨hopcode, hleads⟩ := (Bool.and_eq_true _ _).mp hjump
      have hsymbol : instruction.symbol.any (·.addend = 0) = true := by
        obtain ⟨reference, hreference, htarget⟩ := (Option.any_eq_true _ _).mp hleads
        rw [hreference]
        exact ((Bool.and_eq_true _ _).mp htarget).1
      have hslot : slot.weight = 1 :=
        (weight_of_live? hlive).trans (weight_jump (of_decide_eq_true hopcode) hsymbol)
      refine (ih _ true).change [slot] [{ slot with remove := true }] ?_ ?_
      · show 0 + 0 < slot.weight + 0
        omega
      · exact .cons (.of_pos (by omega) _) .nil
    · exact (ih stats changed).keep

/-- Folding makes a `MOVI` of what weighs more. -/
theorem foldConstant_simplifies (flow : ControlFlow) (blockIndex : ℕ) (state : ConstantMap × Work)
    (i : ℕ) : Simplifies state.2 (foldConstant flow blockIndex state i).2 := by
  unfold foldConstant
  dsimp only
  cases hslot : state.2.slots[i]? with
  | none => exact .refl _
  | some slot =>
    rw [Option.bind_some]
    cases hlive : slot.live? with
    | none => exact .refl _
    | some instruction =>
      dsimp only
      split
      · exact .refl _
      · next constants folded hfold =>
        obtain ⟨-, -, value, rfl, -⟩ := foldInstruction_eq_some hfold
        refine .modify hslot ?_ _
        rw [weight_of_live? hlive, weight_of_fold hfold]
        show (if slot.remove = true then 0 else 1) < 2
        split_ifs <;> decide

theorem removeAt_simplifies {w : Work} {i : ℕ} {instruction : Instruction}
    (h : (w.slots[i]?).bind Slot.live? = some instruction)
    (hpos : 0 < weight (.instruction instruction)) (stats : OptStats) :
    Simplifies w (w.removeAt i stats) := by
  obtain ⟨slot, hslot, hlive⟩ := Option.bind_eq_some_iff.mp h
  refine .modify hslot ?_ stats
  rw [weight_of_live? hlive]
  exact hpos

theorem eliminateIdentity_simplifies (w : Work) (i : ℕ) : Simplifies w (eliminateIdentity w i) := by
  unfold eliminateIdentity
  split_ifs with h
  · obtain ⟨instruction, hlive, hidentity⟩ := (Option.any_eq_true _ _).mp h
    exact removeAt_simplifies hlive (weight_pos_of_isIdentity hidentity) _
  · exact .refl w

theorem eliminateDeadStore_simplifies (block : Block) (w : Work) (i : ℕ) :
    Simplifies w (eliminateDeadStore block w i) := by
  unfold eliminateDeadStore
  dsimp only
  split_ifs with h
  · obtain ⟨instruction, hlive, hdead⟩ := (Option.any_eq_true _ _).mp h
    exact removeAt_simplifies hlive (weight_pos_of_pureDefine ((Bool.and_eq_true _ _).mp hdead).1) _
  · exact .refl w

/-- A loop all of whose turns simplify. -/
theorem foldl_simplifies {α β : Type} {step : α → β → α} (work : α → Work)
    (hstep : ∀ a b, Simplifies (work a) (work (step a b))) (a : α) (bs : List β) :
    Simplifies (work a) (work (bs.foldl step a)) := by
  induction bs generalizing a with
  | nil => exact .refl _
  | cons b bs ih => exact (hstep a b).trans (ih (step a b))

theorem markBlocks_simplifies (flow : ControlFlow) (w : Work) :
    Simplifies w (markBlocks flow w) := by
  have hfold : ∀ w, Simplifies w (foldConstants flow w) := by
    intro w
    refine foldl_simplifies id (fun w block => ?_) w _
    exact foldl_simplifies (fun state : ConstantMap × Work => state.2)
      (foldConstant_simplifies flow block.2) (ConstantMap.empty, w) _
  have hblocks : ∀ step : Block → Work → ℕ → Work, (∀ block w i, Simplifies w (step block w i)) →
      ∀ w, Simplifies w (forBlocks flow step w) := by
    intro step hstep w
    exact foldl_simplifies id (fun w block => foldl_simplifies id (hstep block) w _) w _
  exact ((hfold w).trans (hblocks _ (fun _ => eliminateIdentity_simplifies) _)).trans
    (hblocks _ eliminateDeadStore_simplifies _)

/-! ### The first pass -/

/-- The slots after the first pass. -/
def afterFirst (items : List Item) (stats : OptStats) : Work :=
  unreachable true stats false (items.map fresh)

/-- The first pass leaves what is reached. -/
theorem kept_unreachable (reachable changed : Bool) (stats : OptStats) (items : List Item) :
    kept (unreachable reachable stats changed (items.map fresh)).slots =
      reached reachable items := by
  induction items generalizing reachable changed stats with
  | nil => rfl
  | cons item rest ih =>
    rw [List.map_cons]
    unfold unreachable
    cases item with
    | label l =>
      exact (kept_cons _ _).trans (congrArg (Item.label l :: ·) (ih true changed stats))
    | instruction instruction =>
      cases reachable with
      | false => exact (kept_cons _ _).trans (ih false true _)
      | true =>
        exact (kept_cons _ _).trans
          (congrArg (Item.instruction instruction :: ·) (ih _ changed stats))
    | _ => exact (kept_cons _ _).trans (congrArg (_ :: ·) (ih reachable changed stats))

theorem length_reached_le (reachable : Bool) (items : List Item) :
    (reached reachable items).length ≤ items.length := by
  induction items generalizing reachable with
  | nil => exact le_rfl
  | cons item rest ih =>
    cases item with
    | label l => exact Nat.succ_le_succ (ih true)
    | instruction instruction =>
      cases reachable with
      | false => exact (ih false).trans (Nat.le_succ _)
      | true => exact Nat.succ_le_succ (ih _)
    | _ => exact Nat.succ_le_succ (ih reachable)

theorem not_reached_false (instruction : Instruction) (rest : List Item) :
    reached false (.instruction instruction :: rest) ≠ .instruction instruction :: rest := by
  intro h
  have hle := length_reached_le false rest
  replace h : reached false rest = .instruction instruction :: rest := h
  rw [h] at hle
  exact Nat.not_succ_le_self _ hle

/-- The first pass marks nothing, or says so. -/
theorem unreachable_cases (reachable changed : Bool) (stats : OptStats) (items : List Item) :
    unreachable reachable stats changed (items.map fresh) = ⟨items.map fresh, stats, changed⟩ ∨
      ((unreachable reachable stats changed (items.map fresh)).changed = true ∧
        reached reachable items ≠ items) := by
  have hkeep : ∀ {item : Item} {rest : List Item} {w : Work} {reachable : Bool},
      (w = ⟨rest.map fresh, stats, changed⟩ ∨ (w.changed = true ∧ reached reachable rest ≠ rest)) →
      ({ w with slots := fresh item :: w.slots } =
        (⟨(item :: rest).map fresh, stats, changed⟩ : Work) ∨
        (w.changed = true ∧ item :: reached reachable rest ≠ item :: rest)) := by
    rintro item rest w reachable (rfl | ⟨hchanged, hne⟩)
    · exact Or.inl rfl
    · exact Or.inr ⟨hchanged, fun hsame => hne (List.cons.inj hsame).2⟩
  have hsaid : ∀ (slots : List Slot) (reachable : Bool) (stats : OptStats),
      (unreachable reachable stats true slots).changed = true := by
    intro slots
    induction slots with
    | nil => exact fun _ _ => rfl
    | cons slot rest ih =>
      intro reachable stats
      unfold unreachable
      dsimp only
      split
      · exact ih _ _
      · split_ifs
        · exact ih _ _
        · exact ih _ _
      · exact ih _ _
  induction items generalizing reachable with
  | nil => exact Or.inl rfl
  | cons item rest ih =>
    rw [List.map_cons]
    unfold unreachable
    cases item with
    | label l => exact hkeep (ih true)
    | instruction instruction =>
      cases reachable with
      | false => exact Or.inr ⟨hsaid _ _ _, not_reached_false instruction rest⟩
      | true => exact hkeep (ih _)
    | _ => exact hkeep (ih reachable)

theorem reached_reached (reachable : Bool) (items : List Item) :
    reached reachable (reached reachable items) = reached reachable items := by
  induction items generalizing reachable with
  | nil => rfl
  | cons item rest ih =>
    cases item with
    | label l => exact congrArg (Item.label l :: ·) (ih true)
    | instruction instruction =>
      cases reachable with
      | false => exact ih false
      | true => exact congrArg (Item.instruction instruction :: ·) (ih _)
    | _ => exact congrArg (_ :: ·) (ih reachable)

theorem reached_true {reachable : Bool} {items : List Item} (h : reached reachable items = items) :
    reached true items = items := by
  cases reachable with
  | true => exact h
  | false =>
    induction items with
    | nil => rfl
    | cons item rest ih =>
      cases item with
      | label l => exact h
      | instruction instruction => exact absurd h (not_reached_false instruction rest)
      | _ => exact congrArg (_ :: ·) (ih (List.cons.inj h).2)

/-- Where all that is kept is reached, all that the passes make of it is. -/
theorem reached_kept {as bs : List Slot} (h : List.Forall₂ (fun a b => Follows a b ∧
      (Item.Terminates b.item → Item.Terminates a.item)) as bs) {reachable : Bool}
    (hreached : reached reachable (kept as) = kept as) : reached reachable (kept bs) = kept bs := by
  induction h generalizing reachable with
  | nil => rfl
  | @cons a b as bs hab _ ih =>
    obtain ⟨hfollows, hterminates⟩ := hab
    rw [kept_cons] at hreached ⊢
    by_cases ha : a.remove = true
    · rw [if_pos ha] at hreached
      rw [if_pos (hfollows.removed ha)]
      exact ih hreached
    · rw [if_neg ha] at hreached
      have hother : a.item.isInstruction = false → b = a := hfollows.other
      cases hitem : a.item with
      | instruction instruction =>
        rw [hitem] at hreached
        cases reachable with
        | false => exact absurd hreached (not_reached_false instruction _)
        | true =>
          have hrest := ih (List.cons.inj hreached).2
          by_cases hb : b.remove = true
          · rw [if_pos hb]
            exact reached_true hrest
          · rw [if_neg hb]
            have hinstruction := hfollows.instruction (by rw [hitem]; rfl)
            cases hitem' : b.item with
            | instruction instruction' =>
              refine congrArg (Item.instruction instruction' :: ·) ?_
              cases hends : (Isa.findOpcode instruction'.machine.opcode).any (·.isTerminator) with
              | false => exact reached_true hrest
              | true =>
                -- then the instruction it comes from is a terminator, too
                obtain ⟨i, hi, hends'⟩ := hterminates ⟨instruction', hitem', hends⟩
                rw [hitem] at hi
                cases hi
                rw [hends'] at hrest
                exact hrest
            | _ => exact absurd hinstruction (by rw [hitem']; exact Bool.false_ne_true)
      | label l =>
        rw [hother (by rw [hitem]; rfl), if_neg ha, hitem]
        rw [hitem] at hreached
        exact congrArg (Item.label l :: ·) (ih (List.cons.inj hreached).2)
      | _ =>
        rw [hother (by rw [hitem]; rfl), if_neg ha, hitem]
        rw [hitem] at hreached
        exact congrArg (_ :: ·) (ih (List.cons.inj hreached).2)

/-! ### A run of the passes -/

/-- What the passes after the first make of its slots. -/
theorem Marking.afterFirst {r : Slot → Slot → Prop} (h : Marking r) (oob : Bool) (items : List Item)
    (stats : OptStats) :
    List.Forall₂ r (Optimizer.afterFirst items stats).slots
      (Optimizer.markPasses oob items stats).slots :=
  h.all_trans (h.all_trans (h.toEditing.peephole _ _ _) (h.jumpToNext _ _ _))
    (h.toEditing.markBlocks _ _)

theorem markPasses_simplifies (oob : Bool) (items : List Item) (stats : OptStats) :
    Simplifies (afterFirst items stats) (markPasses oob items stats) :=
  ((peephole_simplifies _ _ _).trans (jumpToNext_simplifies _ _ _)).trans
  (markBlocks_simplifies _ _)

/-- **After the first pass, what weighs nothing stays.** -/
theorem keeps_markPasses (oob : Bool) (items : List Item) (stats : OptStats) :
    List.Forall₂ Keeps (afterFirst items stats).slots (markPasses oob items stats).slots :=
  (markPasses_simplifies oob items stats).keeps

/-- All that a run keeps is reached. -/
theorem reached_markPasses (oob : Bool) (items : List Item) (stats : OptStats) :
    reached true (kept (markPasses oob items stats).slots) = kept
      (markPasses oob items stats).slots := by
  refine reached_kept ((marking_follows.and marking_terminates).afterFirst oob items stats) ?_
  unfold afterFirst
  rw [kept_unreachable, reached_reached]

/-- **A run of the passes changes nothing, or says so and lowers what is left.** -/
theorem runPasses_cases (oob : Bool) (items : List Item) (stats : OptStats) :
    runPasses oob items stats = (items, stats, false) ∨
      ((runPasses oob items stats).2.2 = true ∧
        workLeft (runPasses oob items stats).1 < workLeft items) := by
  have hrest := markPasses_simplifies oob items stats
  have hreached := reached_markPasses oob items stats
  have hkept : kept (afterFirst items stats).slots = reached true items := kept_unreachable ..
  have hleft : workLeft (kept (markPasses oob items stats).slots) =
      weigh (markPasses oob items stats).slots := by
    unfold workLeft
    rw [if_pos hreached, hreached, totalWeight_kept, Nat.add_zero]
  have hbefore : workLeft items =
      weigh (afterFirst items stats).slots + if reached true items = items then 0 else 1 := by
    unfold workLeft
    rw [← hkept, totalWeight_kept]
  have hfirst : afterFirst items stats = ⟨items.map fresh, stats, false⟩ ∨
      ((afterFirst items stats).changed = true ∧ reached true items ≠ items) :=
    unreachable_cases true false stats items
  unfold runPasses
  dsimp only
  rcases hrest with hsame | ⟨hchanged, hlt, -⟩
  · rcases hfirst with hquiet | ⟨hchanged, hne⟩
    · left
      rw [hsame, hquiet]
      dsimp only
      rw [if_neg Bool.false_ne_true, List.map_map]
      exact congrArg (·, stats, false) (List.map_id items)
    · -- only the first pass found something, and it finds nothing more
      right
      rw [if_pos (by rw [hsame]; exact hchanged), hleft, hbefore, hsame, if_neg hne]
      exact ⟨hchanged, Nat.lt_succ_self _⟩
  · right
    rw [if_pos hchanged, hleft, hbefore]
    exact ⟨hchanged, hlt.trans_le (Nat.le_add_right _ _)⟩

end Optimizer
end MiniTool
