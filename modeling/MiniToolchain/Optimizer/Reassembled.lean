import MiniToolchain.Assembler.Success
import MiniToolchain.Optimizer.EndToEnd

/-!
# The optimized module is assembled again

The optimizer leaves instructions out and makes others of them, so that the code gets no longer,
every label stays, and nothing refers to a name that nothing has referred to before.  So a module
that is assembled is still assembled when it has been optimized.

## Main results

* `kept_orderedSections` — the sections that are assembled, before and after.
* `endOf_le_of_thins` — the code gets no longer.
* `assembles_run` — there is no error in the optimized module if there is none in the module.
-/

namespace MiniTool
namespace Optimizer

open Ir Assembler Assembler.AssemblyContext

/-! ### Instructions -/

/-- What the passes make can be encoded. -/
theorem closed_encodable : Closed fun i => ∃ w, Isa.encode (placeholder i) = .ok w where
  move := by
    rintro i j ⟨w, hw⟩ ⟨w', hw'⟩ hpush hpop
    obtain ⟨info, hinfo, hcanonical, -⟩ := Isa.encode_eq_ok_iff.mp hw
    obtain ⟨info', hinfo', hcanonical', -⟩ := Isa.encode_eq_ok_iff.mp hw'
    rw [(placeholder_fields i).1, hpush] at hinfo
    cases hinfo
    -- a `PUSH` has no immediate
    have himm : (placeholder (toMov i j)).imm = 0 := by
      have hsame : (placeholder (toMov i j)).imm = (placeholder i).imm := by
        unfold placeholder toMov Instruction.isSymbolic
        dsimp only
        split_ifs <;> rfl
      rw [hsame]
      exact hcanonical.imm rfl
    obtain ⟨hopcode, hdst, hsrc⟩ := placeholder_fields (toMov i j)
    have hfirst : (placeholder (toMov i j)).src = (placeholder i).dst :=
      hsrc.trans (placeholder_fields i).2.1.symm
    have hsecond : (placeholder (toMov i j)).dst = (placeholder j).dst :=
      hdst.trans (placeholder_fields j).2.1.symm
    have hmov : Isa.findOpcode (placeholder (toMov i j)).opcode = Isa.findOpcode .MOV :=
      congrArg Isa.findOpcode hopcode
    refine Isa.exists_encode ⟨_, hmov, ?_⟩
    refine ⟨?_, ?_, nofun, nofun, fun _ => himm, nofun, nofun⟩
    · rw [hsecond]
      exact hcanonical'.dstValid
    · rw [hfirst]
      exact hcanonical.dstValid
  value := by
    rintro i value ⟨w, hw⟩ hplain hfits
    obtain ⟨info, -, hcanonical, -⟩ := Isa.encode_eq_ok_iff.mp hw
    have hsame : placeholder (toMovi i value) = (toMovi i value).machine := by
      refine if_neg fun hsymbolic => ?_
      have hnot : (toMovi i value).isSymbolic = false := hplain
      rw [hnot] at hsymbolic
      cases hsymbolic
    have hdst : (placeholder i).dst = i.machine.dst := (placeholder_fields i).2.1
    rw [hsame]
    have hsrc : Isa.registerIndex (toMovi i value).machine.src < 16 := by
      show Isa.registerIndex .R0 < 16
      decide
    refine Isa.exists_encode ⟨_, rfl, ?_, hsrc, nofun, fun _ => rfl, nofun, fun _ _ => ?_, nofun⟩
    · show Isa.registerIndex i.machine.dst < 16
      rw [← hdst]
      exact hcanonical.dstValid
    · exact (Isa.signedImm_iff _).mp hfits

/-- What the passes make refers to no other names. -/
theorem closed_itemNames (p : Str → Prop) :
    Closed fun i => ∀ n ∈ itemNames (.instruction i), p n where
  move hi _ _ _ := hi
  value hi _ _ := hi

/-! ### Sections -/

/-- Lists made from related options. -/
theorem forall₂_filterMap {κ α β : Type} {R : α → β → Prop} {f : κ → Option α} {g : κ → Option β}
    {ks : List κ} (h : ∀ k ∈ ks, Option.Rel R (f k) (g k)) :
    List.Forall₂ R (ks.filterMap f) (ks.filterMap g) := by
  induction ks with
  | nil => exact .nil
  | cons k ks ih =>
    obtain ⟨hone, hrest⟩ := List.forall_mem_cons.mp h
    rw [List.filterMap_cons, List.filterMap_cons]
    revert hone
    generalize f k = a
    generalize g k = b
    intro hone
    cases hone with
    | some hab => exact .cons hab (ih hrest)
    | none => exact ih hrest

/-- The first section of a kind is kept. -/
theorem rel_findSection {sections sections' : List Section}
    (h : List.Forall₂ SectionKept sections sections') (kind : SectionKind) :
    Option.Rel SectionKept (sections.find? fun s => s.kind = kind)
      (sections'.find? fun s => s.kind = kind) := by
  induction h with
  | nil => exact .none
  | @cons s s' rest rest' hone _ ih =>
    by_cases hs : s.kind = kind
    · rw [List.find?_cons_of_pos (by simpa using hs),
        List.find?_cons_of_pos (by simpa [hone.kind] using hs)]
      exact .some hone
    · rw [List.find?_cons_of_neg (by simpa using hs),
        List.find?_cons_of_neg (by simpa [hone.kind] using hs)]
      exact ih

/-- A section that has something other than instructions is not empty afterwards. -/
theorem SectionKept.isEmpty_eq {s s' : Section} (h : SectionKept s s')
    (hlabel : s.kind = .text → ∃ l, .label l ∈ s.items) :
    s'.items.isEmpty = s.items.isEmpty := by
  by_cases hkind : s.kind = .text
  · obtain ⟨l, hl⟩ := hlabel hkind
    have hl' : .label l ∈ s'.items := (h.items rfl).mpr hl
    rw [List.isEmpty_eq_false_iff.mpr (List.ne_nil_of_mem hl),
      List.isEmpty_eq_false_iff.mpr (List.ne_nil_of_mem hl')]
  · rw [h.other hkind]

section

variable {m : Module} {oob : ℕ → Bool} {level : OptLevel}

/-- The sections that are assembled, before and after. -/
theorem kept_orderedSections
    (hlabel : ∀ s ∈ m.sections, s.kind = .text → ∃ l, .label l ∈ s.items) :
    List.Forall₂ SectionKept (orderedSections m) (orderedSections (run oob level m).1) := by
  refine forall₂_filterMap fun kind _ => ?_
  have hrel := rel_findSection (run_accounted oob level m).2.2.2.1 kind
  have hmem : ∀ s, m.findSection kind = some s → s ∈ m.sections := fun s hs =>
    List.mem_of_find?_eq_some hs
  have hfind : ∀ m : Module, (m.sections.find? fun s => s.kind = kind) = m.findSection kind :=
    fun _ => rfl
  rw [hfind, hfind] at hrel
  revert hrel hmem
  generalize m.findSection kind = a
  generalize (run oob level m).1.findSection kind = b
  intro hrel hmem
  cases hrel with
  | none => exact .none
  | @some s s' hone =>
    have hempty := hone.isEmpty_eq (hlabel s (hmem s rfl))
    rw [Option.filter_some, Option.filter_some, hempty]
    split_ifs
    · exact .some hone
    · exact .none

/-! ### Labels -/

/-- The name of a label. -/
def labelName : Item → Option Str
  | .label l => some l.name
  | _ => none

/-- The names of the labels, section by section. -/
theorem names_labelSymbols (m : Module) : (labelSymbols m).map Symbol.name =
    (orderedSections m).flatMap fun s => s.items.filterMap labelName := by
  have hsection : ∀ entry : Section × ℕ,
      (sectionLabels entry).map Symbol.name = entry.1.items.filterMap labelName := by
    intro entry
    have hitems : (placed entry.1.items).map Prod.snd = entry.1.items := Emission.map_snd_placed 0 _
    conv_rhs => rw [← hitems]
    unfold sectionLabels
    rw [List.filterMap_map, List.map_filterMap]
    refine List.filterMap_congr fun p _ => ?_
    obtain ⟨offset, item⟩ := p
    cases item <;> rfl
  unfold labelSymbols
  rw [List.map_flatMap]
  have hfst : (orderedSections m).zipIdx.map Prod.fst = orderedSections m := List.zipIdx_map_fst 0 _
  conv_rhs => rw [← hfst]
  rw [List.flatMap_map]
  exact List.flatMap_congr fun entry _ => hsection entry

theorem SectionKept.labelNames {s s' : Section} (h : SectionKept s s') :
    s'.items.filterMap labelName = s.items.filterMap labelName := by
  have hfilter : ∀ items : List Item, items.filterMap labelName =
      (items.filter fun item => !item.isInstruction).filterMap labelName := by
    intro items
    rw [List.filterMap_filter]
    refine List.filterMap_congr fun item _ => ?_
    cases item <;> rfl
  rw [hfilter s'.items, h.filter_other, ← hfilter]

/-- Every label stays, in its place among the labels. -/
theorem names_labelSymbols_run
    (hlabel : ∀ s ∈ m.sections, s.kind = .text → ∃ l, .label l ∈ s.items) :
    (labelSymbols (run oob level m).1).map Symbol.name = (labelSymbols m).map Symbol.name := by
  have hsame : ∀ {xs ys : List Section}, List.Forall₂ SectionKept xs ys →
      (ys.flatMap fun s => s.items.filterMap labelName) =
        xs.flatMap fun s => s.items.filterMap labelName := by
    intro xs ys hall
    induction hall with
    | nil => rfl
    | cons hone _ ih => rw [List.flatMap_cons, List.flatMap_cons, ih, hone.labelNames]
  rw [names_labelSymbols, names_labelSymbols]
  exact hsame (kept_orderedSections hlabel)

theorem labelOf_eq_none_iff {n : Str} :
    labelOf m n = none ↔ n ∉ (labelSymbols m).map Symbol.name := by
  unfold labelOf
  rw [List.find?_eq_none, List.mem_map]
  simp

/-! ### The length of the code -/

/-- The code gets no longer. -/
theorem endOf_le_of_thins {n : ℕ} {items items' : List Item} (h : Thins n items items')
    (hplain : PlainText items) {a b : ℕ} (hle : a ≤ b) :
    Emission.endOf Item.advance a items' ≤ Emission.endOf Item.advance b items := by
  induction h generalizing a b with
  | nil => exact hle
  | @other n as bs item hother _ ih =>
    obtain ⟨hitem, hrest⟩ := List.forall_mem_cons.mp hplain
    rw [Emission.endOf_cons, Emission.endOf_cons]
    refine ih hrest ?_
    rcases hitem with ⟨l, rfl⟩ | ⟨i, rfl⟩
    · exact hle
    · cases hother
  | instruction _ _ ih =>
    rw [Emission.endOf_cons, Emission.endOf_cons]
    exact ih (List.forall_mem_cons.mp hplain).2 (Nat.add_le_add_right hle _)
  | drop _ ih =>
    rw [Emission.endOf_cons]
    exact ih (List.forall_mem_cons.mp hplain).2 (hle.trans (Nat.le_add_right _ _))

theorem SectionKept.endOf_le {s s' : Section} (h : SectionKept s s')
    (hplain : s.kind = .text → PlainText s.items) : endOf s'.items ≤ endOf s.items := by
  by_cases hkind : s.kind = .text
  · obtain ⟨n, hthins⟩ := h.thins
    exact endOf_le_of_thins hthins (hplain hkind) le_rfl
  · rw [h.other hkind]

/-! ### The module -/

/-- A section that is assembled afterwards was assembled before. -/
theorem exists_kept (hlabel : ∀ s ∈ m.sections, s.kind = .text → ∃ l, .label l ∈ s.items)
    {s' : Section} (hs' : s' ∈ orderedSections (run oob level m).1) :
    ∃ s ∈ orderedSections m, SectionKept s s' := by
  have hkept := @kept_orderedSections m oob level hlabel
  obtain ⟨k, hk, rfl⟩ := List.mem_iff_getElem.mp hs'
  have hlength := hkept.length_eq
  exact ⟨_, List.getElem_mem (by omega), hkept.get (by omega) hk⟩

/-- What is referred to afterwards was referred to before. -/
theorem exists_of_itemNames (hwell : m.WellFormed)
    (hlabel : ∀ s ∈ m.sections, s.kind = .text → ∃ l, .label l ∈ s.items)
    {s' : Section} (hs' : s' ∈ orderedSections (run oob level m).1) {item : Item}
    (hitem : item ∈ s'.items) {n : Str} (hn : n ∈ itemNames item) :
    ∃ s ∈ orderedSections m, ∃ item ∈ s.items, n ∈ itemNames item := by
  obtain ⟨s, hs, hkept⟩ := exists_kept hlabel hs'
  cases hinstruction : item.isInstruction with
  | false => exact ⟨s, hs, item, (hkept.items hinstruction).mp hitem, hn⟩
  | true =>
    cases item with
    | instruction i =>
      refine (closed_itemNames fun n => ∃ s ∈ orderedSections m, ∃ item ∈ s.items,
        n ∈ itemNames item).instructions_run oob level ?_ s' (mem_of_mem_orderedSections hs') i
          hitem n hn
      intro s hs i hi n hn
      exact ⟨s, mem_orderedSections hwell hs (List.ne_nil_of_mem hi), _, hi, hn⟩
    | _ => cases hinstruction

/-- **There is no error in the optimized module** if there is none in the module. -/
theorem assembles_run {memory : ℕ} (hwell : m.WellFormed)
    (hplain : ∀ s ∈ m.sections, s.kind = .text → PlainText s.items)
    (hlabel : ∀ s ∈ m.sections, s.kind = .text → ∃ l, .label l ∈ s.items)
    (h : Assembles memory m) : Assembles memory (run oob level m).1 := by
  obtain ⟨hglobals, hexterns, hweaks, -⟩ := run_accounted oob level m
  have hdeclared : declaredNames (run oob level m).1 = declaredNames m := by
    unfold declaredNames
    rw [hglobals, hexterns, hweaks]
  have hnames := @names_labelSymbols_run m oob level hlabel
  have hlabelOf : ∀ n, labelOf (run oob level m).1 n = none ↔ labelOf m n = none := by
    intro n
    rw [labelOf_eq_none_iff, labelOf_eq_none_iff, hnames]
  refine ⟨?_, ?_, by rw [hnames]; exact h.labels, fun n hn => ?_, ?_⟩
  · intro s' hs'
    obtain ⟨s, hs, hkept⟩ := exists_kept hlabel hs'
    exact (hkept.endOf_le (hplain s (mem_of_mem_orderedSections hs))).trans (h.fits s hs)
  · intro s' hs' item hitem
    cases item with
    | instruction i =>
      refine closed_encodable.instructions_run oob level ?_ s' (mem_of_mem_orderedSections hs') i
        hitem
      intro s hs i hi
      exact h.encodable s (mem_orderedSections hwell hs (List.ne_nil_of_mem hi)) _ hi
    | _ => trivial
  · rw [hexterns] at hn
    exact (hlabelOf n).mpr (h.externs n hn)
  · intro s' hs' item hitem n hn hlocal
    obtain ⟨s, hs, item, hitem, hn⟩ := exists_of_itemNames hwell hlabel hs' hitem hn
    rw [hdeclared, ne_eq, hlabelOf]
    exact h.locals s hs item hitem n hn hlocal

end

end Optimizer
end MiniTool
