import MiniToolchain.Optimizer.DeadStores
import MiniToolchain.Optimizer.FixedPoint
import MiniToolchain.Optimizer.Jumps

/-!
# The optimizer preserves meaning

Every pass preserves meaning, and so does deleting what the passes have marked; a run of the passes
is all of them, one after the other, and the optimizer is at most eight runs.

## Main definitions

* `Settled` — what ends a block has not been rewritten.

## Main results

* `refines_kept` — deleting what is marked preserves meaning.
* `refines_markPasses` — the passes preserve meaning, one after the other.
* `refines_optimizeItems`, `run_preserves_meaning` — the optimizer.
-/

namespace MiniTool
namespace Optimizer

open Ir Vm Vm.VirtualMemory Vm.VirtualMachine

/-! ### Deleting what is marked -/

section

variable {symbol : Str → UInt64} {returnAddress returnAddress' : ℕ → UInt64} {items : List Item}
  {slots : List Slot}

theorem labelIndex_kept_slots (h : FollowsAll (items.map fresh) slots) (name : Str) :
    labelIndex (kept slots) name =
      (labelIndex (slots.map Slot.item) name).map (newPosition slots) := by
  rw [labelIndex_of_follows h, items_fresh]
  exact labelIndex_kept h name

theorem mapped_kept (h : FollowsAll (items.map fresh) slots) :
    Mapped (.ofSlots symbol returnAddress slots) (.ofItems symbol returnAddress' (kept slots))
      (newPosition slots) where
  symbol := rfl
  target name := by
    show labelIndex (((kept slots).map fresh).map Slot.item) name = _
    rw [items_fresh]
    exact labelIndex_kept_slots h name
  call c instruction hplace hcall := by
    obtain ⟨slot, hslot, hlive⟩ := Option.bind_eq_some_iff.mp (place_eq_run.mp hplace)
    rw [newPosition_succ hslot, (Slot.live?_eq_some hlive).1]
    rfl

/-- **Deleting what is marked preserves meaning.** -/
theorem refines_kept (h : FollowsAll (items.map fresh) slots) (entry : ℕ → Prop) :
    Refines (.ofSlots symbol returnAddress slots) (.ofItems symbol returnAddress' (kept slots))
      (newPosition slots) entry := by
  have hmapped : Mapped (.ofSlots symbol returnAddress slots)
      (.ofItems symbol returnAddress' (kept slots)) (newPosition slots) := mapped_kept h
  refine refines_of_simulates (R := fun s t =>
    Invariant (.ofSlots symbol returnAddress slots) s ∧ Same (newPosition slots) s t) ?_ ?_ ?_
  · intro vm i hstack _
    exact ⟨invariant_enter _ hstack i, linked_enter _ _ _ _ _⟩
  · rintro s t c s' ⟨hinv, hsame⟩ hrun hmove
    have hinv' := invariant_move hinv hmove
    have hrun' : t.vm.cpu.halted = false := hsame.close.halted.trans hrun
    cases hslot : slots[s.position]? with
    | none =>
      exact absurd (place_of_length_le (List.getElem?_eq_none_iff.mp hslot)) hmove.place_ne_stop
    | some slot =>
      have hplace : (Program.ofSlots symbol returnAddress slots).place s.position = slot.place :=
        place_of_getElem? hslot
      have hsucc := newPosition_succ hslot
      cases hremove : slot.remove with
      | true =>
        -- nothing corresponds to a removed item
        have hskip : slot.place = .skip := by
          unfold Slot.place
          rw [if_pos hremove]
        obtain ⟨rfl, rfl⟩ := hmove.eq_of_skip (hplace.trans hskip)
        rw [hremove, if_pos rfl, Nat.add_zero] at hsucc
        exact ⟨0, le_rfl, t, .refl t, hinv', hsame.goto (hsame.position.trans hsucc.symm)⟩
      | false =>
        rw [hremove, if_neg Bool.false_ne_true] at hsucc
        have hfresh : fresh slot.item = slot := by rw [fresh, ← hremove]
        have hplace' : (Program.ofItems symbol returnAddress' (kept slots)).place
            (newPosition slots s.position) = slot.place := by
          rw [place_ofItems (getElem?_kept hslot hremove), hfresh]
        cases hat : slot.place with
        | stop => exact absurd (hplace.trans hat) hmove.place_ne_stop
        | skip =>
          obtain ⟨rfl, rfl⟩ := hmove.eq_of_skip (hplace.trans hat)
          have hskip : Move (.ofItems symbol returnAddress' (kept slots)) t 0
              (t.goto (t.position + 1)) := .skip (by rw [hsame.position, hplace', hat])
          exact ⟨0, le_rfl, _, hskip.reaches hrun', hinv',
            hsame.goto (by rw [hsame.position]; exact hsucc.symm)⟩
        | run instruction =>
          obtain ⟨t', hmove', hsame'⟩ := same_kept hmapped hinv hsame (hplace.trans hat)
            (hplace'.trans hat) hsucc hmove
          exact ⟨c, le_rfl, t', hmove'.reaches hrun', hinv', hsame'⟩
  · rintro s t ⟨-, hsame⟩ hhalted
    exact ⟨hsame.close.halted.trans hhalted, hsame.sameResult fun _ => trivial⟩

/-- Return addresses do not matter. -/
theorem refines_returnAddress (entry : ℕ → Prop) :
    Refines (.ofItems symbol returnAddress items)
      (.ofItems symbol returnAddress' items) id entry := by
  have hmapped : Mapped (.ofItems symbol returnAddress items) (.ofItems symbol returnAddress' items)
      id := mapped_of_follows (marking_follows.all_refl _)
  refine refines_of_simulates (R := fun s t =>
    Invariant (.ofItems symbol returnAddress items) s ∧ Same id s t) ?_ ?_ ?_
  · intro vm i hstack _
    exact ⟨invariant_enter _ hstack i, linked_enter _ _ _ _ _⟩
  · rintro s t c s' ⟨hinv, hsame⟩ hrun hmove
    obtain ⟨d, hd, t', hreaches, hsame'⟩ := same_of_place hmapped hinv hsame hrun rfl hmove
    exact ⟨d, hd, t', hreaches, invariant_move hinv hmove, hsame'⟩
  · rintro s t ⟨-, hsame⟩ hhalted
    exact ⟨hsame.close.halted.trans hhalted, hsame.sameResult fun _ => trivial⟩

end

/-! ### Where labels go -/

section

variable {items : List Item} {slots : List Slot} {i : ℕ}

/-- A label stays a label. -/
theorem isLabelAt_kept (h : FollowsAll (items.map fresh) slots) (hl : IsLabelAt items i) :
    IsLabelAt (kept slots) (newPosition slots i) := by
  obtain ⟨l, hl⟩ := hl
  obtain ⟨slot, hslot, hfollow⟩ := exists_related h (k := i) (by
    rw [List.getElem?_map, hl, Option.map_some])
  obtain rfl : slot = fresh (.label l) := hfollow.other rfl
  exact ⟨l, getElem?_kept hslot rfl⟩

theorem isEntry_kept (h : FollowsAll (items.map fresh) slots) (hi : IsEntry items i) :
    IsEntry (kept slots) (newPosition slots i) := by
  rcases hi with rfl | hl
  · exact .inl rfl
  · exact .inr (isLabelAt_kept h hl)

/-- No two labels get one name. -/
theorem DistinctLabels.kept (hdistinct : DistinctLabels items)
    (h : FollowsAll (items.map fresh) slots) : DistinctLabels (Optimizer.kept slots) := by
  intro i j l l' hi hj hname
  obtain ⟨a, slot, hslot, -, hitem, rfl⟩ := exists_position hi
  obtain ⟨b, slot', hslot', -, hitem', rfl⟩ := exists_position hj
  have hdistinct' : DistinctLabels (slots.map Slot.item) := by
    refine DistinctLabels.of_follows ?_ h
    rwa [items_fresh]
  have hab : a = b := hdistinct' a b l l' (by rw [List.getElem?_map, hslot, Option.map_some, hitem])
    (by rw [List.getElem?_map, hslot', Option.map_some, hitem']) hname
  rw [hab]

/-- Where an item ends up after two runs of the passes. -/
theorem newPosition_compose {next : List Slot}
    (hlength : next.length = (Optimizer.kept slots).length) (k : ℕ) :
    newPosition (compose slots next) k = newPosition next (newPosition slots k) := by
  induction slots generalizing next k with
  | nil =>
    obtain rfl : next = [] := List.length_eq_zero_iff.mp hlength
    simp [compose, newPosition]
  | cons first rest ih =>
    cases k with
    | zero => simp [newPosition]
    | succ k =>
      rw [kept_cons] at hlength
      unfold compose
      rw [newPosition_cons]
      by_cases hremove : first.remove = true
      · rw [if_pos hremove] at hlength ⊢
        rw [newPosition_cons, if_pos hremove, ih hlength, Nat.add_zero, Nat.add_zero]
      · rw [if_neg hremove] at hlength ⊢
        rw [if_neg hremove]
        cases next with
        | nil => cases hlength
        | cons slot' next =>
          dsimp only
          rw [newPosition_cons, newPosition_cons, ih (Nat.succ.inj hlength)]

theorem newPosition_fresh (items : List Item) {k : ℕ} (hk : k ≤ items.length) :
    newPosition (items.map fresh) k = k := by
  induction items generalizing k with
  | nil =>
    rw [Nat.le_zero.mp hk]
    rfl
  | cons item items ih =>
    cases k with
    | zero => rfl
    | succ k =>
      rw [List.map_cons, newPosition_cons, ih (Nat.succ_le_succ_iff.mp hk)]
      rfl

theorem le_length_of_isEntry (h : IsEntry items i) : i ≤ items.length := by
  rcases h with rfl | ⟨l, hl⟩
  · exact Nat.zero_le _
  · exact (List.getElem?_eq_some_iff.mp hl).1.le

end

/-! ### A run of the passes -/

section

variable {symbol : Str → UInt64} {returnAddress returnAddress' : ℕ → UInt64} {items : List Item}

/-- What may be executed at the end of a block has not been rewritten. -/
def Settled (a b : Slot) : Prop := ∀ instruction, b.live? = some instruction →
  endsBlock instruction.machine.opcode = true → a.live? = some instruction

theorem editing_settled : Editing Settled where
  refl _ _ h _ := h
  trans hab hbc instruction h hend := hab instruction (hbc instruction h hend) hend
  remove _ _ _ h _ := by cases h
  rewrite := by
    intro a i j hlive _ hop _ instruction h hend
    have hj : j = instruction := by
      have hitem := (Slot.live?_eq_some h).2
      exact Item.instruction.inj hitem
    rw [← hj] at hend
    rcases hop with hop | hop
    · rw [hop] at hend
      cases hend
    · rw [hop] at hend
      cases hend

/-- What ends blocks before the passes over them ends them afterwards. -/
theorem endsBlocks_of_settled {oob : Bool} {slots slots' : List Slot}
    (h : List.Forall₂ Settled slots slots') :
    EndsBlocks (controlFlow oob (slots.map Slot.item)).blocks slots' := by
  intro b hb i slot instruction hbegin hstop hslot hlive
  by_contra hend
  obtain ⟨hi, hget⟩ := List.getElem?_eq_some_iff.mp hslot
  have hi' : i < slots.length := by rw [h.length_eq]; exact hi
  have hsettled : Settled slots[i] slots'[i] := h.get hi' hi
  rw [hget] at hsettled
  have hlive' := hsettled instruction hlive (Bool.eq_true_of_not_eq_false hend)
  refine controlFlow_partition.ends b hb i hbegin hstop
    ⟨instruction, ?_, Bool.eq_true_of_not_eq_false hend⟩
  rw [List.getElem?_map, List.getElem?_eq_getElem hi', Option.map_some,
    (Slot.live?_eq_some hlive').2]

theorem isEntry_of_follows {as bs : List Slot} (h : FollowsAll as bs) {i : ℕ}
    (hi : IsEntry (as.map Slot.item) i) : IsEntry (bs.map Slot.item) i := by
  rcases hi with rfl | ⟨l, hl⟩
  · exact .inl rfl
  · exact .inr ⟨l, (labelAt_of_follows h).mpr hl⟩

/-- **The passes that need no graph preserve meaning.** -/
theorem refines_markLocal (hdistinct : DistinctLabels items) (stats : OptStats) :
    Refines (.ofItems symbol returnAddress items)
      (.ofSlots symbol returnAddress (markLocal items stats).slots) id (IsEntry items) := by
  have hunreachable := @refines_unreachable symbol returnAddress items stats
  have hfirst := marking_follows.unreachable true stats false (items.map fresh)
  unfold markLocal
  dsimp only
  generalize unreachable true stats false (items.map fresh) = w₁ at hunreachable hfirst
  have hpeephole := @refines_peephole symbol returnAddress w₁.slots w₁.stats w₁.changed
  have hsecond := marking_follows.peephole w₁.stats w₁.changed w₁.slots
  generalize peephole w₁.stats w₁.changed w₁.slots = w₂ at hpeephole hsecond
  have hdistinct' : DistinctLabels (w₂.slots.map Slot.item) := by
    refine DistinctLabels.of_follows ?_ (marking_follows.all_trans hfirst hsecond)
    rwa [items_fresh]
  refine (hunreachable.trans hpeephole fun i hi => ?_).trans
    (refines_jumpToNext hdistinct' w₂.stats w₂.changed (IsEntry items)) fun i hi => hi
  have hfresh := items_fresh items
  rw [← hfresh] at hi
  exact isEntry_of_follows hfirst hi

/-- **The passes over the blocks preserve meaning.** -/
theorem refines_markBlocks (hdistinct : DistinctLabels items) (stats : OptStats) (oob : Bool) :
    Refines (.ofSlots symbol returnAddress (markLocal items stats).slots)
      (.ofSlots symbol returnAddress (markBlocks
        (controlFlow oob ((markLocal items stats).slots.map Slot.item))
      (markLocal items stats)).slots) id
        (IsEntry ((markLocal items stats).slots.map Slot.item)) := by
  have hfold := @refines_foldConstants symbol returnAddress oob items stats hdistinct
  have hsettled := editing_settled.foldConstants
    (controlFlow oob ((markLocal items stats).slots.map Slot.item)) (markLocal items stats)
  have hpartition := @controlFlow_partition oob ((markLocal items stats).slots.map Slot.item)
  have hends := fun w => @endsBlocks_of_settled oob (markLocal items stats).slots w
  unfold markBlocks
  dsimp only
  generalize controlFlow oob ((markLocal items stats).slots.map Slot.item) = flow at *
  generalize foldConstants flow (markLocal items stats) = w at hfold hsettled ⊢
  have hsettled' := editing_settled.all_trans hsettled
    (editing_settled.forBlocks flow (fun _ => editing_settled.eliminateIdentity) w)
  exact (hfold.trans
    (refines_identities flow (IsEntry ((markLocal items stats).slots.map Slot.item))) fun i hi =>
      hi).trans (refines_deadStores hpartition.begin_le hpartition.sorted (hends _ hsettled')
      (IsEntry ((markLocal items stats).slots.map Slot.item))) fun i hi => hi

theorem refines_markPasses (hdistinct : DistinctLabels items) (stats : OptStats) (oob : Bool) :
    Refines (.ofItems symbol returnAddress items)
      (.ofSlots symbol returnAddress (markPasses oob items stats).slots) id (IsEntry items) := by
  have hfollows : FollowsAll (items.map fresh) (markLocal items stats).slots :=
    marking_follows.all_trans (marking_follows.all_trans
      (marking_follows.unreachable true stats false (items.map fresh))
      (marking_follows.peephole _ _ _)) (marking_follows.jumpToNext _ _ _)
  refine (refines_markLocal hdistinct stats).trans (refines_markBlocks hdistinct stats oob)
    fun i hi => ?_
  rw [← items_fresh items] at hi
  exact isEntry_of_follows hfollows hi

/-! ### All runs -/

/-- **Repeating the passes preserves meaning.** -/
theorem refines_optimizeItems (hdistinct : DistinctLabels items) (oob : ℕ → Bool) (n : ℕ)
    (stats : OptStats) :
    Refines (.ofItems symbol returnAddress items)
      (.ofItems symbol returnAddress' (optimizeItems oob n items stats).1)
      (newPosition (trace oob n items stats)) (IsEntry items) := by
  induction n generalizing items stats with
  | zero =>
    refine (refines_returnAddress (IsEntry items)).congr fun i hi => ?_
    exact (newPosition_fresh items (le_length_of_isEntry hi)).symm
  | succ n ih =>
    have hfollows := markPasses_follows (oob n) items stats
    have hmark := @refines_markPasses symbol returnAddress items hdistinct stats (oob n)
    unfold optimizeItems runPasses trace
    dsimp only
    by_cases hchanged : (markPasses (oob n) items stats).changed = true
    · rw [if_pos hchanged, if_pos hchanged, if_pos hchanged]
      have hnext := hmark.trans (@refines_kept symbol returnAddress returnAddress _ _ hfollows
        (IsEntry items)) fun i hi => hi
      have hlength := length_of_follows (trace_follows oob n
        (kept (markPasses (oob n) items stats).slots) (markPasses (oob n) items stats).stats)
      rw [List.length_map] at hlength
      refine (hnext.trans (ih (hdistinct.kept hfollows) _) fun i hi => ?_).congr fun i hi => ?_
      · exact isEntry_kept hfollows hi
      · exact (newPosition_compose hlength.symm i).symm
    · rw [if_neg hchanged, if_neg hchanged, if_neg hchanged]
      have hsame : (markPasses (oob n) items stats).slots.map Slot.item = items := by
        rcases runPasses_cases (oob n) items stats with hcases | ⟨hcases, -⟩
        · have hitems := congrArg Prod.fst hcases
          unfold runPasses at hitems
          dsimp only at hitems
          rwa [if_neg hchanged] at hitems
        · exact absurd hcases hchanged
      rw [hsame]
      refine (refines_returnAddress (IsEntry items)).congr fun i hi => ?_
      exact (newPosition_fresh items (le_length_of_isEntry hi)).symm

end

/-! ### Modules -/

/-- What the optimizer makes of a section. -/
theorem getElem?_optimizeSections (oob : ℕ → Bool) {sections : List Section} {k : ℕ} {s : Section}
    (h : sections[k]? = some s) (stats : OptStats) :
    ∃ stats', (optimizeSections oob stats sections).1[k]? = some
      (if s.kind = .text then
        { s with items := (optimizeItems oob kMaxIterations s.items stats').1 }
        else s) := by
  induction sections generalizing k stats with
  | nil => cases h
  | cons first rest ih =>
    unfold optimizeSections
    cases k with
    | zero =>
      cases h
      refine ⟨stats, ?_⟩
      by_cases hkind : s.kind = .text
      · rw [if_pos hkind, if_pos hkind]
        rfl
      · rw [if_neg hkind, if_neg hkind]
        rfl
    | succ k =>
      by_cases hkind : first.kind = .text
      · rw [if_pos hkind]
        exact ih h _
      · rw [if_neg hkind]
        exact ih h _

/-- What the optimizer makes of a section of a module: its items, optimized, or nothing at all. -/
theorem getElem?_run (oob : ℕ → Bool) (level : OptLevel) {m : Module} {k : ℕ} {s : Section}
    (h : m.sections[k]? = some s) : ∃ s', (run oob level m).1.sections[k]? = some s' ∧
      (s'.items = s.items ∨
        ∃ stats, s'.items = (optimizeItems oob kMaxIterations s.items stats).1) := by
  unfold run
  dsimp only
  by_cases hlevel : level ≠ .O0
  · rw [if_pos hlevel]
    obtain ⟨stats, hstats⟩ :=
      getElem?_optimizeSections oob h { instructionsBefore := m.instructionCount }
    refine ⟨_, hstats, ?_⟩
    split_ifs with hkind
    · exact .inr ⟨stats, rfl⟩
    · exact .inl rfl
  · rw [if_neg hlevel]
    exact ⟨s, h, .inl rfl⟩

/-- **The optimizer preserves meaning.**  Whatever addresses the symbols and the calls have, a run
of an optimized section that starts at its beginning, or at a label, halts with the same result
after no more instructions. -/
theorem run_preserves_meaning (oob : ℕ → Bool) (level : OptLevel) {m : Module} {k : ℕ} {s : Section}
    (hs : m.sections[k]? = some s) (hdistinct : DistinctLabels s.items) :
    ∃ s' φ, (run oob level m).1.sections[k]? = some s' ∧ φ 0 = 0 ∧
      (∀ name, labelIndex s'.items name = (labelIndex s.items name).map φ) ∧
      ∀ symbol returnAddress returnAddress',
        Refines (.ofItems symbol returnAddress s.items) (.ofItems symbol returnAddress' s'.items) φ
          (IsEntry s.items) := by
  obtain ⟨s', hs', hsame | ⟨stats, hitems⟩⟩ := getElem?_run oob level hs
  · refine ⟨s', id, hs', rfl, fun name => ?_, fun symbol returnAddress returnAddress' => ?_⟩
    · rw [hsame, Option.map_id]
      rfl
    · rw [hsame]
      exact refines_returnAddress _
  · refine ⟨s', newPosition (trace oob kMaxIterations s.items stats), hs', rfl, fun name => ?_,
      fun symbol returnAddress returnAddress' => ?_⟩
    · rw [hitems, ← kept_trace]
      exact labelIndex_kept (trace_follows oob kMaxIterations s.items stats) name
    · rw [hitems]
      exact refines_optimizeItems hdistinct oob kMaxIterations stats

end Optimizer
end MiniTool
