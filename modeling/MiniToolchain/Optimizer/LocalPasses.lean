import MiniToolchain.Optimizer.Jumps
import MiniToolchain.Optimizer.Matching
import MiniToolchain.Optimizer.StackPairs

/-!
# The local passes preserve meaning

Code that nothing reaches, stack pairs and jumps to what follows them: marking and rewriting these
does not change what a section does.

## Main definitions

* `Reached` — control can come to the position.
* `PairAt` — a `PUSH` and a `POP` that the second pass takes away.

## Main results

* `refines_unreachable`, `refines_peephole`, `refines_jumpToNext`.
-/

namespace MiniTool
namespace Optimizer

open Ir Vm Vm.VirtualMemory Vm.VirtualMachine

/-- Control comes to a section at its first item or at a label. -/
def IsEntry (items : List Item) (i : ℕ) : Prop := i = 0 ∨ IsLabelAt items i

section

variable {symbol : Str → UInt64} {returnAddress returnAddress' : ℕ → UInt64} {as bs : List Slot}

/-- The passes leave labels where they are. -/
theorem labelIndex_of_follows (h : FollowsAll as bs) (name : Str) :
    labelIndex (bs.map Slot.item) name = labelIndex (as.map Slot.item) name := by
  induction h with
  | nil => rfl
  | @cons a b as bs hab _ ih =>
    unfold labelIndex at ih ⊢
    rw [List.map_cons, List.map_cons, List.findIdx?_cons, List.findIdx?_cons, ih]
    cases ha : a.item with
    | instruction i =>
      have hb := hab.instruction (by rw [ha]; rfl)
      cases hb' : b.item with
      | instruction j => rfl
      | _ => exact absurd hb (by rw [hb']; exact Bool.false_ne_true)
    | _ => rw [hab.other (by rw [ha]; rfl), ha]

/-- The labels of a section are those of the section before the passes. -/
theorem labelAt_of_follows (h : FollowsAll as bs) {p : ℕ} {l : Label} :
    (bs.map Slot.item)[p]? = some (.label l) ↔ (as.map Slot.item)[p]? = some (.label l) := by
  induction h generalizing p with
  | nil => rfl
  | @cons a b as bs hab _ ih =>
    cases p with
    | succ p => exact ih
    | zero =>
      show some b.item = some (.label l) ↔ some a.item = some (.label l)
      refine ⟨fun hb => ?_, fun ha => ?_⟩
      · cases hinstruction : a.item.isInstruction with
        | true =>
          have hb' := hab.instruction hinstruction
          rw [Option.some.inj hb] at hb'
          cases hb'
        | false => rw [← hab.other hinstruction, hb]
      · rw [hab.other (by rw [Option.some.inj ha]; rfl), ha]

theorem Follows.passed {a b : Slot} (h : Follows a b) (ha : a.Passed) : b.Passed := by
  rcases ha with hremove | ⟨l, hl⟩
  · exact .inl (h.removed hremove)
  · exact .inr ⟨l, by rw [h.other (by rw [hl]; rfl), hl]⟩

theorem mapped_of_follows (h : FollowsAll as bs) :
    Mapped (.ofSlots symbol returnAddress as) (.ofSlots symbol returnAddress' bs) id where
  symbol := rfl
  target name := by
    rw [Option.map_id]
    exact labelIndex_of_follows h name
  call _ _ _ _ := rfl

end

/-! ### Code that nothing reaches -/

/-- Control can come to the position: it is a label, or no terminator is in its way. -/
def Reached (items : List Item) (q : ℕ) : Prop := Unreached items q → IsLabelAt items q

section

variable {items : List Item} {q : ℕ}

theorem reached_of_entry (h : IsEntry items q) : Reached items q := by
  rintro ⟨t, hlt, -⟩
  rcases h with rfl | hl
  · exact absurd hlt (Nat.not_lt_zero t)
  · exact hl

/-- Control goes on after what is no terminator. -/
theorem Reached.succ (h : Reached items q)
    (hgoes : ∀ item, items[q]? = some item → ¬Item.Terminates item) : Reached items (q + 1) := by
  rintro ⟨t, hlt, ⟨item, hitem, hterminates⟩, hbetween⟩
  rcases Nat.lt_succ_iff_lt_or_eq.mp hlt with hlt | rfl
  · have hlabel := h ⟨t, hlt, ⟨item, hitem, hterminates⟩, fun k hk hkq => hbetween k hk (by omega)⟩
    exact absurd hlabel (hbetween q hlt (Nat.lt_succ_self q))
  · exact absurd hterminates (hgoes item hitem)

/-- A slot is left as it is, or marked. -/
theorem getElem?_unreachable (reachable : Bool) (stats : OptStats) (changed : Bool)
    {slots : List Slot} {slot : Slot} (h : slots[q]? = some slot) :
    (unreachable reachable stats changed slots).slots[q]? = some slot ∨
      ((unreachable reachable stats changed slots).slots[q]? = some { slot with remove := true } ∧
        slot.item.isInstruction = true) := by
  induction slots generalizing reachable stats changed q with
  | nil => cases h
  | cons first rest ih =>
    unfold unreachable
    dsimp only
    cases q with
    | zero =>
      cases h
      split
      · exact .inl rfl
      · next instruction hitem =>
        split_ifs
        · exact .inr ⟨rfl, by rw [hitem]; rfl⟩
        · exact .inl rfl
      · exact .inl rfl
    | succ q =>
      split
      · exact ih _ _ _ h
      · split_ifs
        · exact ih _ _ _ h
        · exact ih _ _ _ h
      · exact ih _ _ _ h

/-- What is marked is not reached. -/
theorem unreachable_spec {item : Item} (h : items[q]? = some item) (stats : OptStats) :
    (unreachable true stats false (items.map fresh)).slots[q]? = some (fresh item) ∨
      ((unreachable true stats false (items.map fresh)).slots[q]? =
          some { fresh item with remove := true } ∧ ¬Reached items q) := by
  have hfresh : (items.map fresh)[q]? = some (fresh item) := by
    rw [List.getElem?_map, h]
    rfl
  rcases getElem?_unreachable true stats false hfresh with hkept | ⟨hmarked, hinstruction⟩
  · exact .inl hkept
  · refine .inr ⟨hmarked, fun hreached => ?_⟩
    rcases unreached_of_removed hfresh rfl hmarked rfl with hunreached | ⟨hfalse, -⟩
    · rw [List.map_map, show Slot.item ∘ fresh = id from rfl, List.map_id] at hunreached
      obtain ⟨l, hl⟩ := hreached hunreached
      rw [h] at hl
      cases hl
      cases hinstruction
    · cases hfalse

end

section

variable {symbol : Str → UInt64} {returnAddress returnAddress' : ℕ → UInt64} {items : List Item}

theorem place_ofItems {i : ℕ} {item : Item} (h : items[i]? = some item) :
    (Program.ofItems symbol returnAddress items).place i = (fresh item).place :=
  place_of_getElem? (by rw [List.getElem?_map, h]; rfl)

/-- Where control is, and where it may return to. -/
structure Flows (items : List Item) (s : State) : Prop where
  position : s.vm.cpu.halted = false → Reached items s.position
  frames : ∀ f ∈ s.frames, Reached items f.2

theorem items_fresh (items : List Item) : (items.map fresh).map Slot.item = items := by
  rw [List.map_map, show Slot.item ∘ fresh = id from rfl, List.map_id]

theorem item_of_run {i : ℕ} {instruction : Instruction}
    (h : (Program.ofItems symbol returnAddress items).place i = .run instruction) :
    items[i]? = some (.instruction instruction) := by
  have hlive := place_eq_run.mp h
  rw [List.getElem?_map] at hlive
  cases hitem : items[i]? with
  | none =>
    rw [hitem] at hlive
    cases hlive
  | some item =>
    rw [hitem] at hlive
    exact congrArg some (Slot.live?_eq_some hlive : _ ∧ item = .instruction instruction).2

theorem item_of_skip {i : ℕ} (h : (Program.ofItems symbol returnAddress items).place i = .skip) :
    IsLabelAt items i := by
  obtain ⟨slot, hslot, hskip⟩ := place_eq_skip.mp h
  rw [List.getElem?_map] at hslot
  obtain ⟨item, hitem, rfl⟩ := Option.map_eq_some_iff.mp hslot
  rcases hskip with hremove | ⟨l, hl⟩
  · cases hremove
  · exact ⟨l, by rw [hitem, show item = .label l from hl]⟩

theorem not_terminates {i : ℕ} {instruction : Instruction}
    (h : items[i]? = some (.instruction instruction))
    (hgoes : terminates instruction.machine.opcode = false) :
    ∀ item, items[i]? = some item → ¬Item.Terminates item := by
  rintro item hitem ⟨instruction', rfl, hterminates⟩
  rw [h] at hitem
  cases hitem
  exact Bool.false_ne_true (hgoes.symm.trans hterminates)

/-- Control only comes to where it can come. -/
theorem flows_move {s s' : State} {c : ℕ}
    (hinv : Invariant (.ofItems symbol returnAddress items) s) (h : Flows items s)
    (hrun : s.vm.cpu.halted = false) (hmove : Move (.ofItems symbol returnAddress items) s c s') :
    Flows items s' := by
  refine ⟨fun hrun' => ?_, fun f hf => ?_⟩
  · have hhere := h.position hrun
    rcases goes_of_move hmove with hhalted | hgoes
    · exact absurd (hrun'.symm.trans hhalted) Bool.false_ne_true
    · generalize s'.position = i at hgoes
      cases hgoes with
      | skip hplace =>
        obtain ⟨l, hl⟩ := item_of_skip hplace
        refine hhere.succ ?_
        rintro item hitem ⟨instruction, rfl, -⟩
        rw [hl] at hitem
        cases hitem
      | next hplace hgoes => exact hhere.succ (not_terminates (item_of_run hplace) hgoes)
      | @jump _ reference _ hplace hbranch hret hsymbol haddend htarget =>
        have hlabel : labelIndex items reference.name = some i := by
          rw [← items_fresh items]
          exact htarget
        exact fun _ => isLabelAt_of_labelIndex hlabel
      | @ret _ f hplace hret hsymbol hframe =>
        obtain ⟨call, hcall, hop⟩ := hinv.frames f hframe
        exact (h.frames f hframe).succ (not_terminates (item_of_run hcall) (by rw [hop]; rfl))
  · rcases frames_of_move hmove f hf with hf | hf
    · exact h.frames f hf
    · rw [hf]
      exact h.position hrun

/-- **The first pass preserves meaning.** -/
theorem refines_unreachable (stats : OptStats) :
    Refines (.ofItems symbol returnAddress items)
      (.ofSlots symbol returnAddress (unreachable true stats false (items.map fresh)).slots) id
      (IsEntry items) := by
  have hmapped : Mapped (.ofItems symbol returnAddress items)
      (.ofSlots symbol returnAddress (unreachable true stats false (items.map fresh)).slots) id :=
    mapped_of_follows (marking_follows.unreachable true stats false (items.map fresh))
  refine refines_of_simulates (R := fun s t =>
    (Invariant (.ofItems symbol returnAddress items) s ∧ Flows items s) ∧ Same id s t) ?_ ?_ ?_
  · intro vm i hstack hi
    exact ⟨⟨invariant_enter _ hstack i, fun _ => reached_of_entry hi,
      fun f hf => absurd hf List.not_mem_nil⟩, linked_enter _ _ _ _ _⟩
  · rintro s t c s' ⟨⟨hinv, hflows⟩, hsame⟩ hrun hmove
    have hkeep := And.intro (invariant_move hinv hmove) (flows_move hinv hflows hrun hmove)
    have hplace : (Program.ofSlots symbol returnAddress
          (unreachable true stats false (items.map fresh)).slots).place s.position =
        (Program.ofItems symbol returnAddress items).place s.position := by
      cases hitem : items[s.position]? with
      | none =>
        have hstop : (Program.ofItems symbol returnAddress items).place s.position = .stop :=
          place_of_length_le (by rw [List.length_map]; exact List.getElem?_eq_none_iff.mp hitem)
        exact absurd hstop hmove.place_ne_stop
      | some item =>
        rw [place_ofItems hitem]
        rcases unreachable_spec hitem stats with hkept | ⟨-, hnot⟩
        · exact place_of_getElem? hkept
        · exact absurd (hflows.position hrun) hnot
    obtain ⟨d, hd, t', hreaches, hsame'⟩ := same_of_place hmapped hinv hsame hrun hplace hmove
    exact ⟨d, hd, t', hreaches, hkeep, hsame'⟩
  · rintro s t ⟨-, hsame⟩ hhalted
    exact ⟨hsame.close.halted.trans hhalted, hsame.sameResult fun _ => trivial⟩

end

/-! ### Stack pairs -/

/-- A `PUSH` and a `POP` follow each other. -/
structure PairAt (slots : List Slot) (q : ℕ) (first second : Instruction) : Prop where
  front : (slots[q]?).bind Slot.live? = some first
  back : (slots[q + 1]?).bind Slot.live? = some second
  push : first.machine.opcode = .PUSH
  pop : second.machine.opcode = .POP

/-- The position is not in the middle of a pair. -/
def Clear (slots : List Slot) (i : ℕ) : Prop :=
  ∀ k first second, i = k + 1 → ¬PairAt slots k first second

/-- The slot of the `PUSH` after the pass. -/
def rewrittenSlot (slot : Slot) (first second : Instruction) : Slot :=
  match rewritePair first.machine second.machine with
  | none => { slot with remove := true }
  | some machine => { slot with item := .instruction { first with machine } }

/-- What the second pass makes of the slot at a position. -/
inductive PeepholeAt (slots : List Slot) (q : ℕ) (slot : Slot) : Option Slot → Prop
  | kept (hnone : ∀ first second, ¬PairAt slots q first second) (hclear : Clear slots q) :
    PeepholeAt slots q slot (some slot)
  | front {first second : Instruction} (h : PairAt slots q first second) :
    PeepholeAt slots q slot (some (rewrittenSlot slot first second))
  | back {k : ℕ} {first second : Instruction} (hk : q = k + 1) (h : PairAt slots k first second) :
    PeepholeAt slots q slot (some { slot with remove := true })

theorem pairAt_cons {a : Slot} {slots : List Slot} {q : ℕ} {first second : Instruction} :
    PairAt (a :: slots) (q + 1) first second ↔ PairAt slots q first second :=
  ⟨fun h => ⟨h.front, h.back, h.push, h.pop⟩, fun h => ⟨h.front, h.back, h.push, h.pop⟩⟩

/-- What does not begin a pair does not change what comes after it. -/
theorem PeepholeAt.cons {slots : List Slot} {q : ℕ} {slot : Slot} {result : Option Slot}
    (h : PeepholeAt slots q slot result) {a : Slot}
    (ha : ∀ first second, ¬PairAt (a :: slots) 0 first second) :
    PeepholeAt (a :: slots) (q + 1) slot result := by
  cases h with
  | kept hnone hclear =>
    refine .kept (fun first second h => hnone first second (pairAt_cons.mp h)) ?_
    intro k first second hk hpair
    cases k with
    | zero => exact ha first second hpair
    | succ k => exact hclear k first second (Nat.succ.inj hk) (pairAt_cons.mp hpair)
  | front h => exact .front (pairAt_cons.mpr h)
  | back hk h => exact .back (congrArg (· + 1) hk) (pairAt_cons.mpr h)

/-- A pair, and what comes after it. -/
theorem PeepholeAt.cons_pair {a b : Slot} {rest : List Slot} {first second : Instruction} {q : ℕ}
    {slot : Slot} {result : Option Slot} (hpair : PairAt (a :: b :: rest) 0 first second)
    (h : PeepholeAt rest q slot result) : PeepholeAt (a :: b :: rest) (q + 2) slot result := by
  have hb : ∀ first second, ¬PairAt (b :: rest) 0 first second := by
    intro first' second' hpair'
    have hsame : some second = some first' := hpair.back.symm.trans hpair'.front
    cases hsame
    exact absurd (hpair.pop.symm.trans hpair'.push) Isa.Opcode.noConfusion
  cases h with
  | kept hnone hclear =>
    refine .kept (fun first second h => hnone first second (pairAt_cons.mp (pairAt_cons.mp h))) ?_
    intro k first second hk hpair
    rcases k with _ | _ | k
    · omega
    · exact hb first second (pairAt_cons.mp hpair)
    · exact hclear k first second (by omega) (pairAt_cons.mp (pairAt_cons.mp hpair))
  | front h => exact .front (pairAt_cons.mpr (pairAt_cons.mpr h))
  | back hk h => exact .back (congrArg (· + 2) hk) (pairAt_cons.mpr (pairAt_cons.mpr h))

theorem peephole_spec {slots : List Slot} {q : ℕ} {slot : Slot} (h : slots[q]? = some slot)
    (stats : OptStats) (changed : Bool) :
    PeepholeAt slots q slot (peephole stats changed slots).slots[q]? := by
  induction stats, changed, slots using Optimizer.peephole.induct generalizing q slot with
  | case1 stats changed => cases h
  | case2 stats changed only =>
    rw [Optimizer.peephole, h]
    have hnone : ∀ k first second, ¬PairAt [only] k first second := by
      intro k first second hpair
      have hback := hpair.back
      cases hback
    exact .kept (hnone q) fun k first second _ => hnone k first second
  | case3 stats changed a b rest first second hsecond hfirst hop hsame ih =>
    have hpair : PairAt (a :: b :: rest) 0 first second := ⟨hfirst, hsecond, hop.1, hop.2⟩
    rw [Optimizer.peephole, hfirst, hsecond]
    simp only [hop, hsame, and_self, if_true]
    rcases q with _ | _ | q
    · cases h
      have hfront : PeepholeAt (a :: b :: rest) 0 a _ := .front hpair
      unfold rewrittenSlot rewritePair at hfront
      rw [if_pos hsame] at hfront
      exact hfront
    · cases h
      exact .back rfl hpair
    · exact (ih h).cons_pair hpair
  | case4 stats changed a b rest first second hsecond hfirst hop hdiff ih =>
    have hpair : PairAt (a :: b :: rest) 0 first second := ⟨hfirst, hsecond, hop.1, hop.2⟩
    rw [Optimizer.peephole, hfirst, hsecond]
    simp only [hop, hdiff, and_self, if_true, if_false]
    rcases q with _ | _ | q
    · cases h
      have hfront : PeepholeAt (a :: b :: rest) 0 a _ := .front hpair
      unfold rewrittenSlot rewritePair at hfront
      rw [if_neg hdiff] at hfront
      exact hfront
    · cases h
      exact .back rfl hpair
    · exact (ih h).cons_pair hpair
  | case5 stats changed a b rest first second hsecond hfirst hop ih =>
    rw [Optimizer.peephole, hfirst, hsecond]
    simp only [hop, if_false]
    have hnone : ∀ first' second', ¬PairAt (a :: b :: rest) 0 first' second' := by
      intro first' second' hpair
      have hfront : some first = some first' := hfirst.symm.trans hpair.front
      have hback : some second = some second' := hsecond.symm.trans hpair.back
      cases hfront
      cases hback
      exact hop ⟨hpair.push, hpair.pop⟩
    cases q with
    | zero =>
      cases h
      exact .kept hnone fun k first second hk => absurd hk.symm (Nat.succ_ne_zero k)
    | succ q => exact (ih h).cons hnone
  | case6 stats changed a b rest hnot ih =>
    rw [Optimizer.peephole]
    split
    · next first second hfirst hsecond =>
      exact absurd hsecond fun hsecond => hnot first second hfirst hsecond
    · have hnone : ∀ first second, ¬PairAt (a :: b :: rest) 0 first second :=
        fun first second hpair => hnot first second hpair.front hpair.back
      cases q with
      | zero =>
        cases h
        exact .kept hnone fun k first second hk => absurd hk.symm (Nat.succ_ne_zero k)
      | succ q => exact (ih h).cons hnone

section

variable {symbol : Str → UInt64} {returnAddress : ℕ → UInt64} {slots : List Slot}

theorem clear_of_label {i : ℕ} (h : IsLabelAt (slots.map Slot.item) i) : Clear slots i := by
  rintro k first second rfl hpair
  obtain ⟨l, hl⟩ := h
  rw [List.getElem?_map] at hl
  obtain ⟨slot, hslot, hitem⟩ := Option.map_eq_some_iff.mp hl
  have hback := hpair.back
  rw [hslot] at hback
  have hinstruction := (Slot.live?_eq_some hback).2
  rw [hitem] at hinstruction
  cases hinstruction

theorem clear_of_entry {i : ℕ} (h : IsEntry (slots.map Slot.item) i) : Clear slots i := by
  rcases h with rfl | hl
  · intro k first second hk
    exact absurd hk.symm (Nat.succ_ne_zero k)
  · exact clear_of_label hl

/-- Only a `PUSH` leads into the middle of a pair. -/
theorem clear_move {s s' : State} {c : ℕ}
    (hinv : Invariant (.ofSlots symbol returnAddress slots) s)
    (hnone : ∀ first second, ¬PairAt slots s.position first second)
    (hmove : Move (.ofSlots symbol returnAddress slots) s c s') : Clear slots s'.position := by
  rcases position_of_move hmove with hnext | ⟨name, htarget⟩ | ⟨f, hf, hnext⟩
  · intro k first second hk hpair
    rw [hnext] at hk
    exact hnone first second ((Nat.succ.inj hk) ▸ hpair)
  · exact clear_of_label (isLabelAt_of_labelIndex htarget)
  · obtain ⟨call, hcall, hop⟩ := hinv.frames f hf
    intro k first second hk hpair
    rw [hnext] at hk
    have hsame : k = f.2 := (Nat.succ.inj hk).symm
    have hfront := hpair.front
    rw [hsame, place_eq_run.mp hcall] at hfront
    cases hfront
    have hpush := hpair.push
    rw [hop] at hpush
    cases hpush

/-- What takes the place of a pair is executed. -/
theorem move_rewritten {p q : Program} {s₀ t : State} {slot : Slot} {first second : Instruction}
    {replaced : VirtualMachine} (hmapped : Mapped p q id) (hinv : Invariant p s₀)
    (hrun : s₀.vm.cpu.halted = false) (hsymbol : first.isSymbolic = false)
    (hremove : slot.remove = false)
    (hfront : q.place s₀.position = (rewrittenSlot slot first second).place) (hsame : Same id s₀ t)
    (hrewritten : executeRewritten s₀.vm first.machine second.machine 0 = (.ok (), replaced)) :
    ∃ d ≤ 1, ∃ t', (meaning q).Reaches t d t' ∧
      Same id { s₀ with position := s₀.position + 1, vm := replaced } t' := by
  have hrun' : t.vm.cpu.halted = false := hsame.close.halted.trans hrun
  unfold executeRewritten at hrewritten
  unfold rewrittenSlot at hfront
  cases hpair : rewritePair first.machine second.machine with
  | none =>
    rw [hpair] at hrewritten hfront
    cases hrewritten
    have hskip : Move q t 0 (t.goto (t.position + 1)) := by
      refine .skip ?_
      rw [hsame.position]
      exact hfront
    exact ⟨0, Nat.zero_le 1, _, hskip.reaches hrun', hsame.goto (by rw [hsame.position]; rfl)⟩
  | some machine =>
    rw [hpair] at hrewritten hfront
    have hmov : machine.opcode = .MOV := by
      unfold rewritePair at hpair
      split_ifs at hpair
      cases hpair
      rfl
    have hplace : q.place s₀.position = .run { first with machine } := by
      rw [hfront]
      unfold Slot.place
      rw [hremove]
      rfl
    have hmachine : p.resolve { first with machine } = machine :=
      (resolve_of_takesSymbol p { first with machine }
        (fun hyes => absurd (hsymbol.symm.trans hyes) Bool.false_ne_true) (by rw [hmov]; rfl)).2
    have hstores : ∀ x, ¬s₀.vm.stores machine x := by
      intro x
      simp [stores, hmov, pushes]
    have hspecified : s₀.Specified (p.resolve { first with machine }) := by
      rw [hmachine]
      exact ⟨fun x hx => by simp [loads, hmov] at hx, fun hpop => by simp [hmov] at hpop⟩
    obtain ⟨t', hmove, hlinked⟩ := plain_kept hmapped hinv hsame hplace rfl (fun _ _ => trivial)
      (fun _ _ => trivial) (by rw [hmov]; rfl)
      (fun hyes => absurd (hsymbol.symm.trans hyes) Bool.false_ne_true) hspecified
      (by rw [hmachine]; exact hrewritten)
    refine ⟨1, le_rfl, t', hmove.reaches hrun', ?_⟩
    have hhidden : {x | x ∈ s₀.hidden ∧ ¬s₀.vm.stores (p.resolve { first with machine }) x} =
        s₀.hidden := by
      rw [hmachine]
      ext x
      exact and_iff_left (hstores x)
    rw [hhidden] at hlinked
    exact hlinked.mono (fun _ _ => .inl trivial) fun _ => .inl trivial

/-- What takes the place of a pair does what the pair does, but for the bytes below the stack
pointer. -/
theorem move_pair {q : Program} {s₀ s s' t : State} {c : ℕ} {slot : Slot}
    {first second : Instruction} (hmapped : Mapped (.ofSlots symbol returnAddress slots) q id)
    (hinv : Invariant (.ofSlots symbol returnAddress slots) s₀) (hrun : s₀.vm.cpu.halted = false)
    (hpair : PairAt slots s₀.position first second) (hslot : slots[s₀.position]? = some slot)
    (hfront : q.place s₀.position = (rewrittenSlot slot first second).place)
    (hback : q.place (s₀.position + 1) = .skip) (hsame : Same id s₀ t)
    (hpush : Move (.ofSlots symbol returnAddress slots) s₀ 1 s)
    (hpop : Move (.ofSlots symbol returnAddress slots) s c s') :
    ∃ d ≤ c, ∃ t', (meaning q).Reaches t d t' ∧ Same id s' t' := by
  have hinv₁ := invariant_move hinv hpush
  have hinv₂ := invariant_move hinv₁ hpop
  obtain ⟨-, hsymbol, hspecified, vm, hexecute, rfl⟩ :=
    hpush.eq_of_plain (place_eq_run.mpr hpair.front) (by rw [hpair.push]; rfl)
  obtain ⟨rfl, hsymbol', hspecified', vm', hexecute', rfl⟩ := hpop.eq_of_plain
    (place_eq_run.mpr hpair.back) (by rw [hpair.pop]; rfl)
  obtain ⟨hnone, hresolve⟩ := resolve_of_takesSymbol
    (.ofSlots symbol returnAddress slots) first hsymbol (by rw [hpair.push]; rfl)
  obtain ⟨-, hresolve'⟩ := resolve_of_takesSymbol (.ofSlots symbol returnAddress slots) second
    hsymbol' (by rw [hpair.pop]; rfl)
  rw [hresolve] at hexecute
  rw [hresolve'] at hexecute'
  have hboth : executePair s₀.vm first.machine second.machine 0 0 = (.ok (), vm') := by
    unfold executePair
    rw [hexecute]
    exact hexecute'
  obtain ⟨memory, replaced, hrewritten, rfl, hdiffer, -⟩ :=
    executeRewritten_of_executePair hpair.push hpair.pop hboth
  have hlive : slot.live? = some first := by
    have hfrontLive := hpair.front
    rw [hslot] at hfrontLive
    exact hfrontLive
  obtain ⟨d, hd, t₁, hreaches, hsame₁⟩ := move_rewritten hmapped hinv hrun hnone
    (Slot.live?_eq_some hlive).1 hfront hsame hrewritten
  have hpushed : vm.cpu.halted = s₀.vm.cpu.halted := halted_of_execute (by rw [hpair.push]; rfl)
    (by rw [hpair.push]; exact Isa.Opcode.noConfusion)
    (by rw [hpair.push]; exact Isa.Opcode.noConfusion) hexecute
  have hpopped : ({ replaced with memory } : VirtualMachine).cpu.halted = vm.cpu.halted :=
    halted_of_execute (by rw [hpair.pop]; rfl)
    (by rw [hpair.pop]; exact Isa.Opcode.noConfusion)
    (by rw [hpair.pop]; exact Isa.Opcode.noConfusion) hexecute'
  have hrun₁ : t₁.vm.cpu.halted = false :=
    hsame₁.close.halted.trans (hpopped.trans (hpushed.trans hrun))
  have hskip : Move q t₁ 0 (t₁.goto (t₁.position + 1)) := by
    refine .skip ?_
    rw [hsame₁.position]
    exact hback
  refine ⟨d + 0, hd, _, hreaches.trans (hskip.reaches hrun₁), ?_⟩
  -- the stack pointer is where it was
  have hdown : vm.cpu.sp = s₀.vm.cpu.sp - 8 ∧ vm.cpu.sp.toNat + 8 = s₀.vm.cpu.sp.toNat := by
    rcases toNat_sp_of_execute (by rw [hpair.push]; rfl) hexecute with
      ⟨-, hsp, hnat⟩ | ⟨hpop, -⟩ | ⟨hno, -⟩
    · exact ⟨hsp, hnat⟩
    · exact absurd (hpair.push.symm.trans hpop) Isa.Opcode.noConfusion
    · rw [hpair.push] at hno
      cases hno
  have hup : replaced.cpu.sp.toNat = s₀.vm.cpu.sp.toNat := by
    rcases toNat_sp_of_execute (by rw [hpair.pop]; rfl) hexecute' with
      ⟨hpush', -⟩ | ⟨-, -, hnat⟩ | ⟨-, hno, -⟩
    · exact absurd (hpair.pop.symm.trans hpush') Isa.Opcode.noConfusion
    · exact hnat.trans hdown.2
    · rw [hpair.pop] at hno
      cases hno
  have hhidden : {x | x ∈ {x | x ∈ s₀.hidden ∧
        ¬s₀.vm.stores ((Program.ofSlots symbol returnAddress slots).resolve first) x} ∧
      ¬vm.stores ((Program.ofSlots symbol returnAddress slots).resolve second) x} = s₀.hidden := by
    rw [hresolve, hresolve']
    ext x
    refine ⟨fun hx => hx.1.1, fun hx => ⟨⟨hx, ?_⟩, ?_⟩⟩
    · have habove := hinv.hidden x hx
      have hlow := hdown.2
      simp only [stores, hpair.push, pushes, ← hdown.1, InRange]
      simp
      omega
    · simp [stores, hpair.pop, pushes]
  refine ⟨?_, hsame₁.frames, hsame₁.hidden.trans hhidden.symm, ?_⟩
  · show t₁.position + 1 = _
    rw [hsame₁.position]
    rfl
  · have hclose := hsame₁.close
    rw [hhidden]
    refine ⟨hclose.frame, hclose.memory.trans (AgreeOutside.of_differAt hdiffer ?_).symm,
      hclose.registers, hclose.flags⟩
    rintro x ⟨⟨hlow, hhigh⟩, -⟩
    rw [← hdown.1] at hlow hhigh
    have hbottom := hinv₁.stack.low
    have hlimit : replaced.stackLimit.toNat = kStackTop.toNat - kStackSize.toNat := by
      rw [show replaced.stackLimit = _ from hinv₂.stack.limit]
      rfl
    refine .inr ⟨?_, ?_⟩
    · rw [hlimit]
      exact hbottom.trans hlow
    · rw [hup, ← hdown.2]
      exact hhigh

/-- What becomes of a pair. -/
theorem pair_places {q : ℕ} {first second : Instruction} (hpair : PairAt slots q first second)
    (hclear : Clear slots q) (stats : OptStats) (changed : Bool) :
    ∃ slot, slots[q]? = some slot ∧
      (peephole stats changed slots).slots[q]? = some (rewrittenSlot slot first second) ∧
      ∃ slot' : Slot, (peephole stats changed slots).slots[q + 1]? =
        some { slot' with remove := true } := by
  have hfront := hpair.front
  have hback := hpair.back
  cases hslot : slots[q]? with
  | none =>
    rw [hslot] at hfront
    cases hfront
  | some slot =>
    cases hslot' : slots[q + 1]? with
    | none =>
      rw [hslot'] at hback
      cases hback
    | some slot' =>
      have hspec := peephole_spec hslot stats changed
      have hspec' := peephole_spec hslot' stats changed
      refine ⟨slot, rfl, ?_, slot', ?_⟩
      · generalize (peephole stats changed slots).slots[q]? = result at hspec
        cases hspec with
        | kept hnone => exact absurd hpair (hnone first second)
        | front h =>
          have hfirst := Option.some.inj (h.front.symm.trans hpair.front)
          have hsecond := Option.some.inj (h.back.symm.trans hpair.back)
          rw [hfirst, hsecond]
        | back hk h => exact absurd h (hclear _ _ _ hk)
      · generalize (peephole stats changed slots).slots[q + 1]? = result at hspec'
        cases hspec' with
        | kept _ hclear' => exact absurd hpair (hclear' q first second rfl)
        | front h =>
          have hsame := Option.some.inj (h.front.symm.trans hpair.back)
          exact absurd (hpair.pop.symm.trans (hsame ▸ h.push)) Isa.Opcode.noConfusion
        | back => rfl

/-- **The second pass preserves meaning.** -/
theorem refines_peephole (stats : OptStats) (changed : Bool) :
    Refines (.ofSlots symbol returnAddress slots)
      (.ofSlots symbol returnAddress (peephole stats changed slots).slots) id
      (IsEntry (slots.map Slot.item)) := by
  have hfollows : FollowsAll slots (peephole stats changed slots).slots :=
    marking_follows.peephole stats changed slots
  have hmapped : Mapped (.ofSlots symbol returnAddress slots)
      (.ofSlots symbol returnAddress (peephole stats changed slots).slots) id :=
    mapped_of_follows hfollows
  refine refines_of_simulates (R := fun s t =>
    (Invariant (.ofSlots symbol returnAddress slots) s ∧ Clear slots s.position ∧ Same id s t) ∨
      ∃ s₀ first second, Invariant (.ofSlots symbol returnAddress slots) s₀ ∧
        s₀.vm.cpu.halted = false ∧ Clear slots s₀.position ∧ PairAt slots s₀.position first second ∧
        Same id s₀ t ∧ Move (.ofSlots symbol returnAddress slots) s₀ 1 s) ?_ ?_ ?_
  · intro vm i hstack hi
    exact .inl ⟨invariant_enter _ hstack i, clear_of_entry hi, linked_enter _ _ _ _ _⟩
  · rintro s t c s'
      (⟨hinv, hclear, hsame⟩ | ⟨s₀, first, second, hinv, hrun₀, hclear, hpair, hsame, hpush⟩) hrun
      hmove
    · have hkeep := invariant_move hinv hmove
      cases hslot : slots[s.position]? with
      | none =>
        exact absurd (place_of_length_le (List.getElem?_eq_none_iff.mp hslot)) hmove.place_ne_stop
      | some slot =>
        have hspec := peephole_spec hslot stats changed
        generalize hresult : (peephole stats changed slots).slots[s.position]? = result at hspec
        cases hspec with
        | kept hnone hclear' =>
          obtain ⟨d, hd, t', hreaches, hsame'⟩ := same_of_place hmapped hinv hsame hrun
            ((place_of_getElem? hresult).trans (place_of_getElem? hslot).symm) hmove
          exact ⟨d, hd, t', hreaches, .inl ⟨hkeep, clear_move hinv hnone hmove, hsame'⟩⟩
        | @front first second hpair =>
          obtain ⟨rfl, -⟩ := hmove.eq_of_plain (place_eq_run.mpr hpair.front)
            (by rw [hpair.push]; rfl)
          exact ⟨0, Nat.zero_le 1, t, .refl t, .inr ⟨s, first, second, hinv, hrun, hclear, hpair,
            hsame, hmove⟩⟩
        | back hk hpair => exact absurd hpair (hclear _ _ _ hk)
    · obtain ⟨slot, hslot, hfront, slot', hback⟩ := pair_places hpair hclear stats changed
      obtain ⟨d, hd, t', hreaches, hsame'⟩ := move_pair hmapped hinv hrun₀ hpair hslot
        (place_of_getElem? hfront) (place_eq_skip.mpr ⟨_, hback, .inl rfl⟩) hsame hpush hmove
      refine ⟨d, hd, t', hreaches, .inl ⟨invariant_move (invariant_move hinv hpush) hmove, ?_,
        hsame'⟩⟩
      refine clear_move (invariant_move hinv hpush) (fun first' second' hpair' => ?_) hmove
      obtain ⟨-, -, -, vm, -, rfl⟩ := hpush.eq_of_plain (place_eq_run.mpr hpair.front)
        (by rw [hpair.push]; rfl)
      have hsame : second = first' := Option.some.inj (hpair.back.symm.trans hpair'.front)
      exact absurd (hpair.pop.symm.trans (hsame ▸ hpair'.push)) Isa.Opcode.noConfusion
  · rintro s t (⟨-, -, hsame⟩ | ⟨s₀, first, second, hinv, hrun₀, hclear, hpair, hsame, hpush⟩)
      hhalted
    · exact ⟨hsame.close.halted.trans hhalted, hsame.sameResult fun _ => trivial⟩
    · -- a `PUSH` does not stop the machine
      exfalso
      obtain ⟨-, -, -, vm, hexecute, rfl⟩ := hpush.eq_of_plain (place_eq_run.mpr hpair.front)
        (by rw [hpair.push]; rfl)
      have hop : ((Program.ofSlots symbol returnAddress slots).resolve first).opcode = .PUSH := by
        rw [Program.resolve_opcode, hpair.push]
      have hkept := halted_of_execute (by rw [hop]; rfl) (by rw [hop]; exact Isa.Opcode.noConfusion)
        (by rw [hop]; exact Isa.Opcode.noConfusion) hexecute
      exact Bool.false_ne_true (hrun₀.symm.trans (hkept.symm.trans hhalted))

end

/-! ### Jumps to what follows -/

/-- No two labels have one name. -/
def DistinctLabels (items : List Item) : Prop :=
  ∀ (i j : ℕ) (l l' : Label), items[i]? = some (.label l) → items[j]? = some (.label l') →
    l.name = l'.name → i = j

theorem DistinctLabels.labelIndex_eq {items : List Item} (h : DistinctLabels items)
    {p : ℕ} {l : Label} (hp : items[p]? = some (.label l)) : labelIndex items l.name = some p := by
  cases hindex : labelIndex items l.name with
  | none =>
    obtain ⟨hlt, hitem⟩ := List.getElem?_eq_some_iff.mp hp
    unfold labelIndex at hindex
    rw [List.findIdx?_eq_none_iff] at hindex
    have hnot := hindex (.label l) (hitem ▸ List.getElem_mem hlt)
    simp at hnot
  | some q =>
    obtain ⟨hq, l', hl', hname⟩ := labelIndex_eq_some hindex
    rw [h q p l' l (by rw [List.getElem?_eq_getElem hq, hl']) hp hname]

theorem DistinctLabels.of_follows {as bs : List Slot} (h : DistinctLabels (as.map Slot.item))
    (hfollows : FollowsAll as bs) : DistinctLabels (bs.map Slot.item) :=
  fun i j l l' hi hj hname => h i j l l' ((labelAt_of_follows hfollows).mp hi)
    ((labelAt_of_follows hfollows).mp hj) hname

/-- A jump that the third pass marks, in a section with these slots. -/
def JumpsOn (slots : List Slot) (q : ℕ) : Prop :=
  ∃ slot instruction reference, slots[q]? = some slot ∧ slot.live? = some instruction ∧
    instruction.machine.opcode = .JMP ∧ instruction.symbol = some reference ∧
    reference.addend = 0 ∧ LeadsOn slots q reference.name

theorem JumpsOn.cons {slots : List Slot} {q : ℕ} (h : JumpsOn slots q) (first : Slot) :
    JumpsOn (first :: slots) (q + 1) := by
  obtain ⟨slot, instruction, reference, hslot, hlive, hop, hsymbol, haddend, p, l, hlt, hp, hname,
    hbetween⟩ := h
  refine ⟨slot, instruction, reference, hslot, hlive, hop, hsymbol, haddend, p + 1, l,
    Nat.succ_lt_succ hlt, hp, hname, ?_⟩
  intro k hk hkp
  obtain ⟨k, rfl⟩ : ∃ j, k = j + 1 := ⟨k - 1, by omega⟩
  exact hbetween k (by omega) (by omega)

/-- The third pass marks jumps to what follows them, and nothing else. -/
theorem jumpToNext_spec {slots : List Slot} {q : ℕ} {slot : Slot} (h : slots[q]? = some slot)
    (stats : OptStats) (changed : Bool) :
    (jumpToNext stats changed slots).slots[q]? = some slot ∨
      ((jumpToNext stats changed slots).slots[q]? = some { slot with remove := true } ∧
        JumpsOn slots q) := by
  induction slots generalizing stats changed q with
  | nil => cases h
  | cons first rest ih =>
    unfold jumpToNext
    dsimp only
    cases q with
    | zero =>
      cases h
      split_ifs with hgoes
      · refine .inr ⟨rfl, ?_⟩
        obtain ⟨instruction, hlive, hjump⟩ := (Option.any_eq_true _ _).mp hgoes
        obtain ⟨hop, hleads⟩ := (Bool.and_eq_true _ _).mp hjump
        obtain ⟨reference, hsymbol, hleads⟩ := (Option.any_eq_true _ _).mp hleads
        obtain ⟨haddend, hleads⟩ := (Bool.and_eq_true _ _).mp hleads
        obtain ⟨p, l, hp, hname, hbetween⟩ := exists_of_leadsTo hleads
        refine ⟨_, instruction, reference, rfl, hlive, of_decide_eq_true hop, hsymbol,
          of_decide_eq_true haddend, p + 1, l, Nat.succ_pos p, hp, hname, ?_⟩
        intro k hk hkp
        obtain ⟨k, rfl⟩ : ∃ j, k = j + 1 := ⟨k - 1, by omega⟩
        exact hbetween k (by omega)
      · exact .inl rfl
    | succ q =>
      split_ifs
      · exact (ih h _ _).imp_right fun hmarked => ⟨hmarked.1, hmarked.2.cons first⟩
      · exact (ih h _ _).imp_right fun hmarked => ⟨hmarked.1, hmarked.2.cons first⟩

/-- A jump goes to its label. -/
theorem Move.eq_of_jmp {p : Program} {s s' : State} {c : ℕ} {instruction : Instruction}
    {reference : SymbolRef} (h : Move p s c s') (hplace : p.place s.position = .run instruction)
    (hop : instruction.machine.opcode = .JMP) (hsymbol : instruction.symbol = some reference) :
    c = 1 ∧ ∃ t, p.target reference.name = some t ∧ s' = s.goto t := by
  cases h with
  | skip hat => exact Place.noConfusion (hplace.symm.trans hat)
  | plain hat hbranch =>
    rw [hplace] at hat
    cases hat
    rw [hop] at hbranch
    cases hbranch
  | fall hat hbranch hret htaken =>
    rw [hplace] at hat
    cases hat
    rw [hop] at htaken
    cases htaken
  | jump hat hbranch hcall htaken hsymbol' haddend htarget =>
    rw [hplace] at hat
    cases hat
    rw [hsymbol] at hsymbol'
    cases hsymbol'
    exact ⟨rfl, _, htarget, rfl⟩
  | call hat hcall =>
    rw [hplace] at hat
    cases hat
    rw [hop] at hcall
    cases hcall
  | ret hat hret =>
    rw [hplace] at hat
    cases hat
    rw [hop] at hret
    cases hret

section

variable {symbol : Str → UInt64} {returnAddress : ℕ → UInt64} {slots : List Slot}

/-- **The third pass preserves meaning.** -/
theorem refines_jumpToNext (hdistinct : DistinctLabels (slots.map Slot.item)) (stats : OptStats)
    (changed : Bool) (entry : ℕ → Prop) :
    Refines (.ofSlots symbol returnAddress slots)
      (.ofSlots symbol returnAddress (jumpToNext stats changed slots).slots) id entry := by
  have hfollows : FollowsAll slots (jumpToNext stats changed slots).slots :=
    marking_follows.jumpToNext stats changed slots
  have hmapped : Mapped (.ofSlots symbol returnAddress slots)
      (.ofSlots symbol returnAddress (jumpToNext stats changed slots).slots) id :=
    mapped_of_follows hfollows
  refine refines_of_simulates (R := fun s t =>
    Invariant (.ofSlots symbol returnAddress slots) s ∧ Same id s t) ?_ ?_ ?_
  · intro vm i hstack _
    exact ⟨invariant_enter _ hstack i, linked_enter _ _ _ _ _⟩
  · rintro s t c s' ⟨hinv, hsame⟩ hrun hmove
    have hkeep := invariant_move hinv hmove
    cases hslot : slots[s.position]? with
    | none =>
      exact absurd (place_of_length_le (List.getElem?_eq_none_iff.mp hslot)) hmove.place_ne_stop
    | some slot =>
      rcases jumpToNext_spec hslot stats changed with hkept | ⟨hmarked, hjumps⟩
      · obtain ⟨d, hd, t', hreaches, hsame'⟩ := same_of_place hmapped hinv hsame hrun
          ((place_of_getElem? hkept).trans (place_of_getElem? hslot).symm) hmove
        exact ⟨d, hd, t', hreaches, hkeep, hsame'⟩
      · obtain ⟨slot', instruction, reference, hslot', hlive, hop, hsymbol, haddend, hleads⟩ :=
          hjumps
        have hplace : (Program.ofSlots symbol returnAddress slots).place s.position =
            .run instruction := place_eq_run.mpr (by rw [hslot']; exact hlive)
        obtain ⟨rfl, target, htarget, rfl⟩ := hmove.eq_of_jmp hplace hop hsymbol
        obtain ⟨p, l, hlt, hp, hname, hbetween⟩ := hleads
        have hlabel : labelIndex (slots.map Slot.item) reference.name = some p := by
          rw [← hname]
          exact hdistinct.labelIndex_eq (by rw [List.getElem?_map, hp]; rfl)
        have hsomewhere : some target = some p := htarget.symm.trans hlabel
        refine ⟨0, Nat.zero_le 1, t.goto p, ?_, hkeep, hsame.goto (Option.some.inj hsomewhere).symm⟩
        refine reaches_of_skips (hsame.close.halted.trans hrun) ?_ ?_
        · rw [hsame.position]
          exact hlt.le
        · intro k hk hkp
          rw [hsame.position] at hk
          rcases Nat.eq_or_lt_of_le hk with heq | hlt'
          · rw [← heq]
            exact place_eq_skip.mpr ⟨_, hmarked, .inl rfl⟩
          · obtain ⟨between, hat, hpassed⟩ := hbetween k hlt' hkp
            obtain ⟨between', hat', hfollow⟩ := exists_related hfollows hat
            exact place_eq_skip.mpr ⟨between', hat', hfollow.passed hpassed⟩
  · rintro s t ⟨-, hsame⟩ hhalted
    exact ⟨hsame.close.halted.trans hhalted, hsame.sameResult fun _ => trivial⟩

end

end Optimizer
end MiniTool
