import MiniToolchain.Assembler.Emit

/-!
# What the assembler produces

The object of a module, without the two passes: every section is its items laid out one after
another, every label is a symbol at the offset of its item, every use of a name is a relocation of
the field it stands in, and a name has one symbol whatever uses it.

## Main definitions

* `symbolOf` — the symbol a module gives a name.
* `Assembled` — the object is the one the module describes.

## Main results

* `assembled_of_assemble` — what the assembler returns is the object of its module.
-/

namespace MiniTool
namespace Assembler

open Object AssemblyContext

/-- The names the relocations of a module refer to. -/
def referencedNames (m : Ir.Module) : List Str :=
  (sectionReferences (orderedSections m).zipIdx).map fun r => r.symbol.name

/-- The symbol of a label, before `.global` and `.weak`. -/
def labelOf (m : Ir.Module) (n : Str) : Option Symbol := (labelSymbols m).find? fun s => s.name = n

/-- The symbol a module gives a name: where its label is, or one that is not defined if the module
only declares or uses the name. -/
def symbolOf (m : Ir.Module) (n : Str) : Option Symbol :=
  match labelOf m n with
  | some s => some (withBinding (bindingOf m n .local) s)
  | none =>
    if n ∈ declaredNames m ∨ n ∈ referencedNames m then
      some { name := n, binding := bindingOf m n .external }
    else none

/-- The object is the one the module describes. -/
structure Assembled (m : Ir.Module) (o : ObjectFile) : Prop where
  version : o.version = kObjectVersion
  sections : o.sections = (orderedSections m).zipIdx.map emitted
  sourceFiles : o.sourceFiles = [m.sourceName]
  debugInfo : o.debugInfo = sectionDebugEntries (orderedSections m).zipIdx
  relocations : List.Forall₂ (Relocates o.symbols) (sectionReferences (orderedSections m).zipIdx)
    o.relocations
  find : ∀ n, o.symbols.find n = symbolOf m n
  fits : ∀ source ∈ orderedSections m, endOf source.items ≤ kMaxSize
  encodable : ∀ source ∈ orderedSections m, ∀ item ∈ source.items, Encodable item
  labels : ((labelSymbols m).map Symbol.name).Nodup
  externs : ∀ n ∈ m.externs, labelOf m n = none

theorem defined_of_mem_labelSymbols {m : Ir.Module} {s : Symbol} (h : s ∈ labelSymbols m) :
    s.defined = true ∧ s.binding = .local := by
  obtain ⟨entry, -, hs⟩ := List.mem_flatMap.mp h
  obtain ⟨p, -, hp⟩ := List.mem_filterMap.mp hs
  unfold labelSymbol at hp
  split at hp
  · cases hp
    exact ⟨rfl, rfl⟩
  · cases hp

theorem labelOf_eq_some {m : Ir.Module} {n : Str} {s : Symbol} (h : labelOf m n = some s) :
    s ∈ labelSymbols m ∧ s.name = n :=
  ⟨List.mem_of_find?_eq_some h, by simpa using List.find?_some h⟩

/-- The symbols after the labels, the directives and the references. -/
theorem find_eq_symbolOf {m : Ir.Module} {labels declared final : SymbolTable}
    (hlabels : labels.symbols = labelSymbols m)
    (hdeclared : ∀ n, declared.find n =
      if n ∈ declaredNames m then some (withBinding (bindingOf m n .local) (labels.findOrNew n))
      else labels.find n)
    (hfinal : Touched promote (referencedNames m) declared final) (n : Str) :
    final.find n = symbolOf m n := by
  have hfind : labels.find n = labelOf m n := by
    unfold SymbolTable.find labelOf
    rw [hlabels]
  have hnew : labels.findOrNew n = (labelOf m n).getD { name := n } := by
    unfold SymbolTable.findOrNew
    rw [hfind]
  have hold : declared.findOrNew n =
      if n ∈ declaredNames m then withBinding (bindingOf m n .local) (labels.findOrNew n)
      else labels.findOrNew n := by
    unfold SymbolTable.findOrNew
    rw [hdeclared]
    split_ifs
    · rfl
    · rfl
  rw [hfinal.find, hold, hdeclared, hnew, hfind]
  unfold symbolOf
  cases hlabel : labelOf m n with
  | some s =>
    obtain ⟨hdefined, hlocal⟩ := defined_of_mem_labelSymbols (labelOf_eq_some hlabel).1
    simp only [Option.getD_some]
    -- a reference leaves a defined symbol alone
    by_cases hd : n ∈ declaredNames m
    · have hpromote : promote (withBinding (bindingOf m n .local) s) = _ :=
        promote_of_defined hdefined
      simp only [if_pos hd]
      rw [hpromote, ite_self]
    · simp only [if_neg hd]
      rw [promote_of_defined hdefined, ite_self, bindingOf_of_not_declared hd,
        withBinding, ← hlocal]
  | none =>
    simp only [Option.getD_none]
    by_cases hd : n ∈ declaredNames m
    · -- it leaves a declared symbol alone, too
      obtain ⟨hbinding, hnotLocal⟩ := bindingOf_of_declared hd .local
      have hpromote : promote (withBinding (bindingOf m n .external) { name := n }) = _ :=
        promote_of_binding hnotLocal
      simp only [hd, true_or, if_true, hbinding]
      rw [hpromote, ite_self]
      rfl
    · simp only [hd, if_false, false_or, bindingOf_of_not_declared hd]
      rfl

/-- **What the assembler returns is the object of its module.** -/
theorem assembled_of_assemble {memory : ℕ} {m : Ir.Module}
    {diagnostics diagnostics' : Diag.DiagnosticEngine} {o : ObjectFile}
    (h : assemble memory m diagnostics = .ok (o, diagnostics')) : Assembled m o := by
  unfold assemble at h
  obtain ⟨c, hemit, h⟩ := Checked.bind_eq_ok.mp h
  split_ifs at h with hfailed
  cases h
  have hok : c.failed = false := by simpa using hfailed
  unfold AssemblyContext.emit at hemit
  -- the second pass tells that the first one did not wrap
  have hsizes := sizes_of_emitSections hemit hok
  have hentry : ∀ {source}, source ∈ orderedSections m →
      ∃ index, (source, index) ∈ (orderedSections m).zipIdx := by
    intro source hsource
    obtain ⟨i, hi⟩ := List.mem_iff_getElem?.mp hsource
    exact ⟨i, List.mem_zipIdx_iff_getElem?.mpr hi⟩
  have hfits : ∀ source ∈ orderedSections m, endOf source.items ≤ kMaxSize := by
    intro source hsource
    obtain ⟨index, hmem⟩ := hentry hsource
    exact (hsizes _ hmem).1.trans capacity_le
  have hencodable : ∀ source ∈ orderedSections m, ∀ item ∈ source.items, Encodable item := by
    intro source hsource
    obtain ⟨index, hmem⟩ := hentry hsource
    exact (hsizes _ hmem).2
  have hok₂ := Checked.of_foldlM (p := fun c : AssemblyContext => c.failed = false)
    (fun _ _ _ => failed_emitSection) hemit hok
  obtain ⟨hok₁, hexterns, hobject₂, -, hdeclared⟩ := applyBindings_spec hok₂
  obtain ⟨labels, hlabels, hobject₁⟩ := layoutAndDefineSymbols_spec
    (fun source hsource => (hfits source hsource).trans_lt (by decide)) hok₁
  rw [hobject₁] at hobject₂ hdeclared hexterns
  generalize hc₂ : AssemblyContext.applyBindings _ m = c₂ at *
  have hemitted :=
    @emitSections_spec memory (orderedSections m) c₂ c [] (by rw [hobject₂]; rfl) hemit hok
  obtain ⟨added, hadded, hrelocations⟩ := hemitted.relocations
  have hstart : c₂.object.relocations = [] := by rw [hobject₂]
  have hnames := labels.nodup
  rw [hlabels] at hnames
  have hframe := hemitted.frame
  refine ⟨?_, ?_, ?_, ?_, ?_, ?_, hfits, hencodable, hnames, ?_⟩
  · rw [hframe, hobject₂]
  · rw [hframe]
    rfl
  · rw [hframe, hobject₂]
  · rw [hframe, hobject₂]
    rfl
  · rw [hadded, hstart]
    exact hrelocations
  · exact find_eq_symbolOf hlabels hdeclared hemitted.touched
  · intro n hn
    have hundefined := hexterns n hn
    cases hlabel : labelOf m n with
    | none => rfl
    | some s =>
      have hfind : labels.find n = some s := by
        unfold SymbolTable.find
        rw [hlabels]
        exact hlabel
      unfold SymbolTable.findOrNew at hundefined
      rw [hfind] at hundefined
      have hdefined := (defined_of_mem_labelSymbols (labelOf_eq_some hlabel).1).1
      rw [Option.getD_some, hdefined] at hundefined
      cases hundefined

/-! ### Relocations and references -/

theorem mem_sectionReferences {entries : List (Ir.Section × ℕ)} {reference : Reference} :
    reference ∈ sectionReferences entries ↔
      ∃ entry ∈ entries, ∃ p ∈ placed entry.1.items, referenceOf entry.2 p.1 p.2 =
        some reference := by
  unfold sectionReferences referencesOf
  simp only [List.mem_flatMap, List.mem_filterMap]

namespace Assembled

variable {m : Ir.Module} {o : ObjectFile}

theorem exists_reference (h : Assembled m o) {r : Relocation} (hr : r ∈ o.relocations) :
    ∃ reference ∈ sectionReferences (orderedSections m).zipIdx,
      Relocates o.symbols reference r := by
  obtain ⟨i, hi, rfl⟩ := List.mem_iff_getElem.mp hr
  obtain ⟨hlength, hget⟩ := List.forall₂_iff_get.mp h.relocations
  exact ⟨_, List.get_mem _ ⟨i, by omega⟩, hget i (by omega) hi⟩

theorem exists_relocation (h : Assembled m o) {reference : Reference}
    (hreference : reference ∈ sectionReferences (orderedSections m).zipIdx) :
    ∃ r ∈ o.relocations, Relocates o.symbols reference r := by
  obtain ⟨i, hi, rfl⟩ := List.mem_iff_getElem.mp hreference
  obtain ⟨hlength, hget⟩ := List.forall₂_iff_get.mp h.relocations
  exact ⟨_, List.get_mem _ ⟨i, by omega⟩, hget i hi (by omega)⟩

end Assembled

end Assembler
end MiniTool
