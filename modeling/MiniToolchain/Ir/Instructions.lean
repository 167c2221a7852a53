import MiniToolchain.Ir.Lower
import MiniToolchain.Lib.Bounds

/-!
# The instructions of a lowered file

Lowering makes one instruction of each instruction statement, and no others.

## Main definitions

* `Module.Has` — the instruction is in the module.
* `Lowers` — the instruction a statement is lowered to.

## Main results

* `has_of_lower` — the instructions of a lowered file are those of its statements.
-/

namespace MiniTool
namespace Ir

open Ast Diag

/-- The instruction is in the module. -/
def Module.Has (m : Module) (i : Instruction) : Prop :=
  ∃ s ∈ m.sections, .instruction i ∈ s.items

/-- The statement is lowered to the instruction. -/
def Lowers (statement : Statement) (i : Instruction) : Prop :=
  ∃ node info, statement = .instruction node ∧ Isa.findMnemonic node.mnemonic = some info ∧
    lowerInstruction info node = some i

section

variable {m : Module} {l l' : Lowerer} {i : Instruction}

theorem has_sectionFor (m : Module) (kind : SectionKind) (i : Instruction) :
    (m.sectionFor kind).Has i ↔ m.Has i := by
  unfold Module.sectionFor
  cases m.findSection kind with
  | some s => exact Iff.rfl
  | none =>
    constructor
    · rintro ⟨s, hs, hi⟩
      rcases List.mem_append.mp hs with hs | hs
      · exact ⟨s, hs, hi⟩
      · rw [List.mem_singleton.mp hs] at hi
        cases hi
    · rintro ⟨s, hs, hi⟩
      exact ⟨s, List.mem_append_left _ hs, hi⟩

theorem has_push (m : Module) (kind : SectionKind) (item : Item) (i : Instruction) :
    (m.push kind item).Has i ↔ m.Has i ∨ item = .instruction i := by
  rw [← has_sectionFor m kind i]
  have hexists := Module.WellFormed.exists_section (m := m) kind
  unfold Module.push
  dsimp only
  generalize m.sectionFor kind = m' at hexists ⊢
  -- the section that gets the item
  have hlt : (m'.sections.findIdx fun s => decide (s.kind = kind)) < m'.sections.length := by
    obtain ⟨s, hs, hkind⟩ := hexists
    exact List.findIdx_lt_length_of_exists ⟨s, hs, decide_eq_true hkind⟩
  generalize (m'.sections.findIdx fun s => decide (s.kind = kind)) = k at hlt ⊢
  have hsplit := List.take_append_drop k m'.sections
  rw [List.drop_eq_getElem_cons hlt] at hsplit
  have hlength : (m'.sections.take k).length = k := List.length_take_of_le hlt.le
  have hmodify := Bounds.modify_append_cons (m'.sections.take k) m'.sections[k]
    (m'.sections.drop (k + 1)) fun s => { s with items := s.items ++ [item] }
  rw [hlength, hsplit] at hmodify
  have hmem : ∀ s, s ∈ m'.sections ↔
      s ∈ m'.sections.take k ∨ s = m'.sections[k] ∨ s ∈ m'.sections.drop (k + 1) := by
    intro s
    conv_lhs => rw [← hsplit]
    rw [List.mem_append, List.mem_cons]
  have hpushed : ∀ s, s ∈ (m'.sections.modify k fun s => { s with items := s.items ++ [item] }) ↔
      s ∈ m'.sections.take k ∨ s = { m'.sections[k] with items := m'.sections[k].items ++ [item] } ∨
        s ∈ m'.sections.drop (k + 1) := by
    intro s
    rw [hmodify, List.mem_append, List.mem_cons]
  constructor
  · rintro ⟨s, hs, hi⟩
    rcases (hpushed s).mp hs with hs | rfl | hs
    · exact Or.inl ⟨s, (hmem s).mpr (Or.inl hs), hi⟩
    · rcases List.mem_append.mp hi with hi | hi
      · exact Or.inl ⟨_, List.getElem_mem hlt, hi⟩
      · exact Or.inr (List.mem_singleton.mp hi).symm
    · exact Or.inl ⟨s, (hmem s).mpr (Or.inr (Or.inr hs)), hi⟩
  · rintro (⟨s, hs, hi⟩ | rfl)
    · rcases (hmem s).mp hs with hs | rfl | hs
      · exact ⟨s, (hpushed s).mpr (Or.inl hs), hi⟩
      · exact ⟨_, (hpushed _).mpr (Or.inr (Or.inl rfl)), List.mem_append_left _ hi⟩
      · exact ⟨s, (hpushed s).mpr (Or.inr (Or.inr hs)), hi⟩
    · exact ⟨_, (hpushed _).mpr (Or.inr (Or.inl rfl)),
        List.mem_append_right _ (List.mem_singleton_self _)⟩

/-! ### Directives -/

theorem isInstruction_of_mem_dataItems {location : SourceLocation} {width : UInt32}
    (operands : List Operand) (pending : List UInt8) :
    ∀ item ∈ dataItems location width pending operands, item.isInstruction = false := by
  have hflush : ∀ pending, ∀ item ∈ flush location pending, item.isInstruction = false := by
    intro pending item hitem
    unfold flush at hitem
    split_ifs at hitem
    · cases hitem
    · rw [List.mem_singleton.mp hitem]
      rfl
  induction operands generalizing pending with
  | nil => exact hflush pending
  | cons operand rest ih =>
    unfold dataItems
    split_ifs
    · intro item hitem
      rcases List.mem_append.mp hitem with hitem | hitem
      · rcases List.mem_append.mp hitem with hitem | hitem
        · exact hflush pending item hitem
        · rw [List.mem_singleton.mp hitem]
          rfl
      · exact ih [] item hitem
    · exact ih _

/-- An item that is no instruction. -/
theorem has_push_other (m : Module) (kind : SectionKind) {item : Item}
    (hitem : item.isInstruction = false) (i : Instruction) :
    (m.push kind item).Has i ↔ m.Has i := by
  rw [has_push]
  refine or_iff_left ?_
  rintro rfl
  cases hitem

theorem has_emitInitialised (l : Lowerer) (location : SourceLocation) (what : String)
    {items : List Item} (hitems : ∀ item ∈ items, item.isInstruction = false) (i : Instruction) :
    (l.emitInitialised location what items).module.Has i ↔ l.module.Has i := by
  unfold Lowerer.emitInitialised
  split_ifs
  · exact Iff.rfl
  · unfold Lowerer.emitAll
    induction items generalizing l with
    | nil => exact Iff.rfl
    | cons item items ih =>
      obtain ⟨hitem, hrest⟩ := List.forall_mem_cons.mp hitems
      rw [List.foldl_cons]
      by_cases hbss : (l.emit item).currentKind = .bss
      · exact absurd hbss (by assumption)
      · exact (ih (l.emit item) hrest hbss).trans (has_push_other _ _ hitem i)

theorem has_lowerDirective {directive : DirectiveNode} (h : lowerDirective l directive = some l')
    (i : Instruction) : l'.module.Has i ↔ l.module.Has i := by
  unfold lowerDirective at h
  split at h
  · obtain ⟨first, -, rfl⟩ := Option.map_eq_some_iff.mp h
    cases sectionKindFromName first.symbol with
    | none => exact Iff.rfl
    | some kind => exact has_sectionFor _ kind i
  · cases h
    exact Iff.rfl
  · cases h
    exact Iff.rfl
  · cases h
    exact Iff.rfl
  · cases h
    exact has_emitInitialised _ _ _ (isInstruction_of_mem_dataItems _ _) i
  · cases h
    exact has_emitInitialised _ _ _ (isInstruction_of_mem_dataItems _ _) i
  · cases h
    exact has_emitInitialised _ _ _ (isInstruction_of_mem_dataItems _ _) i
  · cases h
    exact has_emitInitialised _ _ _ (isInstruction_of_mem_dataItems _ _) i
  · split_ifs at h
    · cases h
      exact has_emitInitialised _ _ _ (fun _ hitem => absurd hitem List.not_mem_nil) i
    · obtain ⟨first, -, rfl⟩ := Option.map_eq_some_iff.mp h
      exact has_emitInitialised _ _ _ (fun _ hitem => by rw [List.mem_singleton.mp hitem]; rfl) i
  · obtain ⟨first, -, rfl⟩ := Option.map_eq_some_iff.mp h
    exact has_push_other _ _ rfl i
  · obtain ⟨first, -, rfl⟩ := Option.map_eq_some_iff.mp h
    dsimp only
    split_ifs
    · exact has_emitInitialised _ _ _ (fun _ hitem => by rw [List.mem_singleton.mp hitem]; rfl) i
    · exact has_push_other _ _ rfl i

/-! ### Statements -/

/-- A statement adds its instruction. -/
theorem has_lowerStatement {statement : Statement} (h : lowerStatement l statement = some l')
    (hok : l'.failed = false) (i : Instruction) :
    l'.module.Has i ↔ l.module.Has i ∨ Lowers statement i := by
  have hnone : (∀ node, statement ≠ .instruction node) → ¬Lowers statement i :=
    fun hne ⟨node, _, heq, _⟩ => hne node heq
  cases statement with
  | label node =>
    cases h
    rw [or_iff_left (hnone nofun)]
    exact has_push_other _ _ rfl i
  | directive node =>
    rw [or_iff_left (hnone nofun)]
    exact has_lowerDirective h i
  | instruction node =>
    change lowerInstructionNode l node = some l' at h
    unfold lowerInstructionNode at h
    cases hinfo : Isa.findMnemonic node.mnemonic with
    | none =>
      rw [hinfo] at h
      cases h
      cases hok
    | some info =>
      rw [hinfo] at h
      dsimp only at h
      split_ifs at h
      · cases h
        cases hok
      · obtain ⟨instruction, hlower, rfl⟩ := Option.map_eq_some_iff.mp h
        refine (has_push _ _ _ i).trans (or_congr_right ?_)
        constructor
        · rintro heq
          cases heq
          exact ⟨node, info, rfl, hinfo, hlower⟩
        · rintro ⟨node', info', heq, hinfo', hlower'⟩
          cases heq
          cases hinfo.symm.trans hinfo'
          cases hlower.symm.trans hlower'
          rfl

end

/-- **The instructions of a lowered file** are those of its statements. -/
theorem has_of_lower {program : Program} {sourceName : Str}
    {diagnostics diagnostics' : DiagnosticEngine} {m : Module} (haccepts : Sema.Accepts program)
    (h : lower program sourceName diagnostics = .ok (m, diagnostics')) (i : Instruction) :
    m.Has i ↔ ∃ statement ∈ program.statements, Lowers statement i := by
  have hrun : ∀ (statements : List Statement) (l l' : Lowerer),
      (∀ statement ∈ statements, Sema.checkStatement statement = []) →
      statements.foldlM lowerStatement l = some l' → l'.failed = false →
      l.failed = false ∧
        (l'.module.Has i ↔ l.module.Has i ∨ ∃ statement ∈ statements, Lowers statement i) := by
    intro statements
    induction statements with
    | nil =>
      intro l l' _ hfold hok
      cases hfold
      exact ⟨hok, by simp⟩
    | cons statement rest ih =>
      intro l l' hchecks hfold hok
      obtain ⟨hcheck, hrest⟩ := List.forall_mem_cons.mp hchecks
      rw [List.foldlM_cons] at hfold
      obtain ⟨next, hstep, hfold⟩ := Option.bind_eq_some_iff.mp hfold
      obtain ⟨hok', hhas⟩ := ih next l' hrest hfold hok
      refine ⟨(lowerStatement_good hcheck hstep hok').1, ?_⟩
      rw [hhas, has_lowerStatement hstep hok', or_assoc, List.exists_mem_cons_iff]
  have hstart : ¬(startLowerer sourceName diagnostics).module.Has i := by
    rintro ⟨s, hs, hi⟩
    rw [List.mem_singleton.mp hs] at hi
    cases hi
  unfold lower at h
  split at h
  · cases h
  · next l hfold =>
    split_ifs at h with hfailed
    cases h
    have hend :=
      (hrun program.statements _ l (fun _ hs => Sema.accepted_statement haccepts hs) hfold
        (by simpa using hfailed)).2
    rw [hend]
    exact or_iff_right hstart

end Ir
end MiniTool
