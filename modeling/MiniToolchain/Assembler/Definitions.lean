import MiniToolchain.Assembler.Reordered
import MiniToolchain.Linker.Resolution

/-!
# The definitions behind the references of a link

What the linker does with global, weak and local definitions, for the objects the assembler makes.

## Main definitions

* `ReferencesResolved` — every reference gets the address of the right definition.

## Main results

* `symbols_resolved` — when a name is a duplicate, and what the references to it get otherwise.
-/

namespace MiniTool
namespace Assembler

open Object Linker

/-- When a relocation is applied, it gets the address of the definition that its object keeps to
itself if there is one; else that of the definition which stands for the name; and 0 for a name
without a definition. -/
def ReferencesResolved (objects : List ObjectFile) (layout : Layout) : Prop :=
  ∀ symbols, resolveSymbols layout objects = .ok symbols → ∀ i object r current,
    Reached symbols objects layout i object r current →
      ∀ s, object.symbols.symbols[r.symbol]? = some s →
        (s.defined = true ∧ s.binding = .local →
          Linker.targetOf current symbols i object s = addressOf layout i object s) ∧
        (¬(s.defined = true ∧ s.binding = .local) → DefinedIn objects s.name →
          ∃ j t definer, Takes objects s.name j t ∧ t.binding ≠ .local ∧
            objects[j]? = some definer ∧
            Linker.targetOf current symbols i object s = addressOf layout j definer t) ∧
        (¬(s.defined = true ∧ s.binding = .local) → ¬DefinedIn objects s.name →
          Linker.targetOf current symbols i object s = .ok 0)

theorem failureCode_eq_duplicate {α : Type} {outcome : Except LinkError α} :
    failureCode outcome = some .duplicateSymbol ↔
      ∃ e, outcome = .error e ∧ ReportsDuplicate e := by
  cases outcome with
  | ok a =>
    constructor
    · intro h
      cases h
    · rintro ⟨e, h, -⟩
      cases h
  | error e =>
    cases e with
    | outOfRange =>
      constructor
      · intro h
        cases h
      · rintro ⟨e, h, he⟩
        cases h
        exact absurd he not_reportsDuplicate_outOfRange
    | failed d =>
      constructor
      · intro h
        exact ⟨_, rfl, d, rfl, Option.some.inj h⟩
      · rintro ⟨e, h, d', hd, hcode⟩
        cases h
        cases hd
        exact congrArg some hcode

theorem referencesResolved_of_linkable {objects : List ObjectFile} {layout : Layout}
    (h : ∀ o ∈ objects, Linkable o) : ReferencesResolved objects layout := by
  intro symbols hresolve i object r current hreached s hs
  obtain ⟨hobject, -⟩ := hreached.mem
  have hmem := List.mem_of_getElem? hs
  refine ⟨?_, ?_, ?_⟩
  · intro hprivate
    unfold Linker.targetOf
    rw [if_pos hprivate, addressOf_of_patched hreached.patched]
  · intro hshared hdefined
    obtain ⟨j, t, definer, htakes, hdefiner, htarget⟩ :=
      (takes_of_targetOf h hresolve hobject hmem hshared).1 hdefined
    refine ⟨j, t, definer, htakes, ?_, hdefiner, htarget⟩
    rcases htakes.best with ⟨hbinding, -⟩ | ⟨hbinding, -⟩
    · rw [hbinding]
      decide
    · rw [hbinding]
      decide
  · intro hshared hnot
    exact (takes_of_targetOf h hresolve hobject hmem hshared).2 hnot

/-- **Symbol resolution.**  A link reports a duplicate symbol exactly when some name has two global
definitions.  Otherwise a reference gets its object's own local definition, or the only global
definition of the name, or the first weak one; never a local definition of another object. -/
theorem symbols_resolved {objects : List ObjectFile} {options : LinkOptions} {layout : Layout}
    (hassembled : ∀ o ∈ objects, FromAssembler o)
    (hmerge : mergeSections options objects = .ok layout) :
    (failureCode (link objects options) = some .duplicateSymbol ↔
      ∃ name, 2 ≤ (globalDefinitions objects name).length) ∧
    ReferencesResolved objects layout := by
  have hlinkable : ∀ o ∈ objects, Linkable o := fun o ho => linkable_of_assembled (hassembled o ho)
  refine ⟨?_, referencesResolved_of_linkable hlinkable⟩
  rw [failureCode_eq_duplicate, reportsDuplicate_iff hlinkable hmerge, not_noConflicts_iff]

/-- Two files that define `_start`, and one that refers to it. -/
theorem symbols_resolved_start : ∃ layout,
    mergeSections {} [startObject, pointerObject (str "_start"), endObject] = .ok layout ∧
    (failureCode (link [startObject, pointerObject (str "_start"), endObject] {}) =
        some .duplicateSymbol ↔
      ∃ name, 2 ≤ (globalDefinitions [startObject, pointerObject (str "_start"), endObject]
        name).length) ∧
    ReferencesResolved [startObject, pointerObject (str "_start"), endObject] layout := by
  have hassembled : ∀ o ∈ [startObject, pointerObject (str "_start"), endObject],
      FromAssembler o := by
    intro o ho
    rcases List.mem_cons.mp ho with rfl | ho
    · exact fromAssembler_start
    rcases List.mem_cons.mp ho with rfl | ho
    · exact fromAssembler_pointer (Or.inr rfl)
    · rw [List.mem_singleton.mp ho]
      exact fromAssembler_end
  have hok : (mergeSections {} [startObject, pointerObject (str "_start"), endObject]).isOk =
      true := by decide
  cases hmerge : mergeSections {} [startObject, pointerObject (str "_start"), endObject] with
  | error e =>
    rw [hmerge] at hok
    cases hok
  | ok layout => exact ⟨layout, rfl, symbols_resolved hassembled hmerge⟩

end Assembler
end MiniTool
