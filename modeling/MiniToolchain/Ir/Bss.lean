import MiniToolchain.Ir.Lower

/-!
# What `.bss` holds

Lowering rejects what would put initialised bytes in `.bss`, whether or not analysis has accepted
the file.

## Main definitions

* `Lowered` — the modules that lowering returns.
* `Module.ZeroFilled` — nothing in `.bss` has bytes other than zero.

## Main results

* `zeroFilled_of_lowered` — what lowering returns is so.
-/

namespace MiniTool
namespace Ir

open Ast Diag

/-- The module lowered from a file, whatever analysis says of it. -/
def Lowered (m : Module) : Prop :=
  ∃ program sourceName diagnostics diagnostics',
    lower program sourceName diagnostics = .ok (m, diagnostics')

theorem FrontEnd.lowered {m : Module} (h : FrontEnd m) : Lowered m := by
  obtain ⟨program, sourceName, diagnostics, diagnostics', -, hlower⟩ := h
  exact ⟨program, sourceName, diagnostics, diagnostics', hlower⟩

/-- The item stands for zeros, or for nothing. -/
def Item.Zero : Item → Prop
  | .label _ | .align _ => True
  | .space s => s.fill = 0
  | _ => False

/-- Nothing in `.bss` has bytes other than zero. -/
def Module.ZeroFilled (m : Module) : Prop :=
  ∀ s ∈ m.sections, s.kind = .bss → ∀ item ∈ s.items, item.Zero

section

variable {m : Module} {l l' : Lowerer}

theorem Module.ZeroFilled.sectionFor (h : m.ZeroFilled) (kind : SectionKind) :
    (m.sectionFor kind).ZeroFilled := by
  unfold Module.sectionFor
  cases m.findSection kind with
  | some s => exact h
  | none =>
    intro s hs hbss item hitem
    rcases List.mem_append.mp hs with hs | hs
    · exact h s hs hbss item hitem
    · rw [List.mem_singleton.mp hs] at hitem
      cases hitem

theorem Module.ZeroFilled.push (h : m.ZeroFilled) {kind : SectionKind} {item : Item}
    (hitem : kind = .bss → item.Zero) : (m.push kind item).ZeroFilled := by
  intro s hs hbss other hother
  rcases mem_sections_push hs with hs | ⟨s', hs', hkind, rfl⟩
  · exact h.sectionFor kind s hs hbss other hother
  · rcases List.mem_append.mp hother with hother | hother
    · exact h.sectionFor kind s' hs' hbss other hother
    · rw [List.mem_singleton.mp hother]
      exact hitem (hkind.symm.trans hbss)

theorem zeroFilled_emitInitialised (h : l.module.ZeroFilled) (location : SourceLocation)
    (what : String) (items : List Item) :
    (l.emitInitialised location what items).module.ZeroFilled := by
  unfold Lowerer.emitInitialised
  split_ifs with hbss
  · exact h
  · unfold Lowerer.emitAll
    induction items generalizing l with
    | nil => exact h
    | cons item items ih => exact ih (h.push fun hkind => absurd hkind hbss) hbss

/-- A statement, accepted or not. -/
theorem zeroFilled_lowerStatement {statement : Statement} (h : l.module.ZeroFilled)
    (hstep : lowerStatement l statement = some l') : l'.module.ZeroFilled := by
  cases statement with
  | label node =>
    cases hstep
    exact h.push fun _ => trivial
  | instruction node =>
    change lowerInstructionNode l node = some l' at hstep
    unfold lowerInstructionNode at hstep
    split at hstep
    · cases hstep
      exact h
    · split_ifs at hstep with hkind
      · cases hstep
        exact h
      · -- an instruction is in `.text`
        obtain ⟨instruction, -, rfl⟩ := Option.map_eq_some_iff.mp hstep
        refine h.push fun hbss => ?_
        rw [hbss] at hkind
        exact absurd (by decide) hkind
  | directive node =>
    change lowerDirective l node = some l' at hstep
    unfold lowerDirective at hstep
    split at hstep
    · obtain ⟨first, -, rfl⟩ := Option.map_eq_some_iff.mp hstep
      cases sectionKindFromName first.symbol with
      | none => exact h
      | some kind => exact h.sectionFor kind
    · cases hstep
      exact h
    · cases hstep
      exact h
    · cases hstep
      exact h
    · cases hstep
      exact zeroFilled_emitInitialised h _ _ _
    · cases hstep
      exact zeroFilled_emitInitialised h _ _ _
    · cases hstep
      exact zeroFilled_emitInitialised h _ _ _
    · cases hstep
      exact zeroFilled_emitInitialised h _ _ _
    · split_ifs at hstep
      · cases hstep
        exact zeroFilled_emitInitialised h _ _ _
      · obtain ⟨first, -, rfl⟩ := Option.map_eq_some_iff.mp hstep
        exact zeroFilled_emitInitialised h _ _ _
    · obtain ⟨first, -, rfl⟩ := Option.map_eq_some_iff.mp hstep
      exact h.push fun _ => trivial
    · obtain ⟨first, -, rfl⟩ := Option.map_eq_some_iff.mp hstep
      dsimp only
      split_ifs with hfill
      · exact zeroFilled_emitInitialised h _ _ _
      · -- the fill is zero
        exact h.push fun _ => not_not.mp hfill

end

/-- **Lowering puts nothing but zeros in `.bss`.** -/
theorem zeroFilled_of_lowered {m : Module} (h : Lowered m) : m.ZeroFilled := by
  obtain ⟨program, sourceName, diagnostics, diagnostics', hlower⟩ := h
  unfold lower at hlower
  have hempty : Module.ZeroFilled { sourceName } := fun s hs => absurd hs List.not_mem_nil
  have hstart : (startLowerer sourceName diagnostics).module.ZeroFilled := hempty.sectionFor .text
  have hrun : ∀ (statements : List Statement) (l l' : Lowerer), l.module.ZeroFilled →
      statements.foldlM lowerStatement l = some l' → l'.module.ZeroFilled := by
    intro statements
    induction statements with
    | nil =>
      intro l l' hl hfold
      cases hfold
      exact hl
    | cons statement rest ih =>
      intro l l' hl hfold
      rw [List.foldlM_cons] at hfold
      obtain ⟨next, hstep, hrest⟩ := Option.bind_eq_some_iff.mp hfold
      exact ih next l' (zeroFilled_lowerStatement hl hstep) hrest
  split at hlower
  · cases hlower
  · next l hfold =>
    split_ifs at hlower
    cases hlower
    exact hrun program.statements _ l hstart hfold

/-- A module of the form that lowering gives is so, whoever makes it. -/
theorem zeroFilled_of_wellFormed {m : Module} (h : m.WellFormed) : m.ZeroFilled := by
  intro s hs hbss item hitem
  have hitemWf := h.items s hs item hitem
  rw [hbss] at hitemWf
  cases item with
  | instruction i => cases hitemWf.1
  | bytes b => exact absurd rfl hitemWf
  | symbolValue v => exact absurd rfl hitemWf.1
  | space s =>
    by_contra hfill
    exact hitemWf hfill rfl
  | label l => trivial
  | align a => trivial

end Ir
end MiniTool
