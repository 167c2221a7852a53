import MiniToolchain.Assembler.Linked
import MiniToolchain.Ir.Bss

/-!
# The two passes agree

The first pass adds up sizes, the second one appends bytes.  They agree on where every item is, also
in a run that reports errors: an instruction that cannot be encoded still takes its bytes.

## Main definitions

* `Translated` — the modules lowering gives, optimised or not.
* `firstPass`, `secondPass` — the states in which the passes get to an item.
* `Proceeds` — what no step of either pass undoes, and what none of them reports.
* `Agrees` — the passes agree on a section.

## Main results

* `offset_eq_length` — the offset of an item is the number of bytes before it.
* `passes_agree` — the passes agree on every section, and the second one gets to its end.
-/

namespace MiniTool
namespace Assembler

open Object AssemblyContext

/-! ### Symbols that are placed -/

/-- A symbol that has a place keeps it. -/
def Placed (t t' : SymbolTable) : Prop :=
  ∀ name s, t.find name = some s → s.defined = true →
    ∃ s', t'.find name = some s' ∧ s'.defined = true ∧ s'.sectionId = s.sectionId ∧
      s'.value = s.value

theorem Placed.refl (t : SymbolTable) : Placed t t :=
  fun _ s hs hdefined => ⟨s, hs, hdefined, rfl, rfl⟩

theorem Placed.trans {t t' t'' : SymbolTable} (h : Placed t t') (h' : Placed t' t'') :
    Placed t t'' := by
  intro name s hs hdefined
  obtain ⟨s', hs', hdefined', hsection, hvalue⟩ := h name s hs hdefined
  obtain ⟨s'', hs'', hdefined'', hsection', hvalue'⟩ := h' name s' hs' hdefined'
  exact ⟨s'', hs'', hdefined'', hsection'.trans hsection, hvalue'.trans hvalue⟩

theorem find_findOrAdd (t : SymbolTable) (name n : Str) :
    (t.findOrAdd name).2.find n = if n = name then some (t.findOrNew name) else t.find n := by
  obtain ⟨hget, -, hother⟩ := t.findOrAdd_spec name
  split_ifs with hn
  · have hfind := (SymbolTable.find_of_getElem? hget).1
    rw [SymbolTable.findOrNew_name] at hfind
    rw [hn]
    exact hfind
  · exact hother n hn

theorem findOrNew_of_find {t : SymbolTable} {name : Str} {s : Symbol} (h : t.find name = some s) :
    t.findOrNew name = s := by
  unfold SymbolTable.findOrNew
  rw [h]
  rfl

theorem Placed.findOrAdd (t : SymbolTable) (name : Str) : Placed t (t.findOrAdd name).2 := by
  intro n s hs hdefined
  refine ⟨s, ?_, hdefined, rfl, rfl⟩
  rw [find_findOrAdd]
  split_ifs with hn
  · subst hn
    rw [findOrNew_of_find hs]
  · exact hs

/-- An update that leaves a placed symbol where it is. -/
theorem Placed.update (t : SymbolTable) (name : Str) (f : Symbol → Symbol)
    (hf : ∀ s, (f s).name = s.name)
    (hkeep : (t.findOrNew name).defined = true → (f (t.findOrNew name)).defined = true ∧
      (f (t.findOrNew name)).sectionId = (t.findOrNew name).sectionId ∧
      (f (t.findOrNew name)).value = (t.findOrNew name).value) :
    Placed t ((t.findOrAdd name).2.modify (t.findOrAdd name).1 f hf) := by
  intro n s hs hdefined
  rw [SymbolTable.find_update]
  split_ifs with hn
  · subst hn
    rw [findOrNew_of_find hs] at hkeep ⊢
    exact ⟨f s, rfl, hkeep hdefined⟩
  · exact ⟨s, hs, hdefined, rfl, rfl⟩

/-! ### Steps -/

/-- What no step of the assembler undoes: places of symbols and what was reported.  And none of them
reports an internal error. -/
structure Proceeds (c c' : AssemblyContext) : Prop where
  placed : Placed c.object.symbols c'.object.symbols
  reports : ∃ more, c'.diagnostics.diagnostics = c.diagnostics.diagnostics ++ more ∧
    ∀ d ∈ more, d.code ≠ .internalError

namespace Proceeds

variable {c c' c'' : AssemblyContext}

theorem refl (c : AssemblyContext) : Proceeds c c :=
  ⟨.refl _, [], (List.append_nil _).symm, fun _ hd => absurd hd List.not_mem_nil⟩

theorem trans (h : Proceeds c c') (h' : Proceeds c' c'') : Proceeds c c'' := by
  refine ⟨h.placed.trans h'.placed, ?_⟩
  obtain ⟨more, hmore, hclean⟩ := h.reports
  obtain ⟨more', hmore', hclean'⟩ := h'.reports
  refine ⟨more ++ more', by rw [hmore', hmore, List.append_assoc], fun d hd => ?_⟩
  rcases List.mem_append.mp hd with hd | hd
  · exact hclean d hd
  · exact hclean' d hd

/-- A step that reports nothing. -/
theorem of_placed (hplaced : Placed c.object.symbols c'.object.symbols)
    (hsame : c'.diagnostics = c.diagnostics) : Proceeds c c' :=
  ⟨hplaced, [], by rw [hsame, List.append_nil], fun _ hd => absurd hd List.not_mem_nil⟩

theorem error (c : AssemblyContext) (location : SourceLocation) {code : Diag.ErrorCode}
    (hcode : code ≠ .internalError) (message : String) :
    Proceeds c (c.error location code message) := by
  refine ⟨.refl _, [Diag.error code location message], rfl, fun d hd => ?_⟩
  rw [List.mem_singleton.mp hd]
  exact hcode

theorem defineLabel (c : AssemblyContext) (label : Ir.Label) (index : ℕ) (offset : UInt64) :
    Proceeds c (c.defineLabel label index offset) := by
  unfold AssemblyContext.defineLabel
  dsimp only
  rw [c.object.symbols.symbolAt_findOrAdd label.name]
  by_cases hdefined : (c.object.symbols.findOrNew label.name).defined = true
  · rw [if_pos hdefined]
    have hadd : Proceeds c (c.setSymbols (c.object.symbols.findOrAdd label.name).2) :=
      of_placed (.findOrAdd _ _) rfl
    exact hadd.trans (error _ _ (by decide) _)
  · rw [if_neg hdefined]
    refine of_placed ?_ rfl
    apply Placed.update
    · intro symbol
      rfl
    · exact fun h => absurd h hdefined

theorem setBinding (binding : SymbolBinding) (c : AssemblyContext) (name : Str) :
    Proceeds c (AssemblyContext.setBinding binding c name) :=
  of_placed (.update c.object.symbols name (withBinding binding) (fun _ => rfl)
    fun h => ⟨h, rfl, rfl⟩) rfl

theorem declareExtern (c : AssemblyContext) (name : Str) : Proceeds c (c.declareExtern name) := by
  unfold AssemblyContext.declareExtern
  dsimp only
  split_ifs
  · have hadd : Proceeds c (c.setSymbols (c.object.symbols.findOrAdd name).2) :=
      of_placed (.findOrAdd _ _) rfl
    exact hadd.trans (error _ _ (by decide) _)
  · exact of_placed (.update c.object.symbols name (withBinding .external) (fun _ => rfl)
      fun h => ⟨h, rfl, rfl⟩) rfl

theorem referenceSymbol (c : AssemblyContext) (reference : Ir.SymbolRef)
    (location : SourceLocation) : Proceeds c (c.referenceSymbol reference location).2 := by
  unfold AssemblyContext.referenceSymbol
  dsimp only
  split_ifs
  · have hadd : Proceeds c (c.setSymbols (c.object.symbols.findOrAdd reference.name).2) :=
      of_placed (.findOrAdd _ _) rfl
    exact hadd.trans (error _ _ (by decide) _)
  · exact of_placed (.update c.object.symbols reference.name (withBinding .external) (fun _ => rfl)
      fun h => ⟨h, rfl, rfl⟩) rfl
  · exact of_placed (.findOrAdd _ _) rfl

/-- A loop whose turns do. -/
theorem foldl {α : Type} {step : AssemblyContext → α → AssemblyContext}
    (hstep : ∀ c x, Proceeds c (step c x)) (xs : List α) (c : AssemblyContext) :
    Proceeds c (xs.foldl step c) := by
  induction xs generalizing c with
  | nil => exact refl c
  | cons x xs ih => exact (hstep c x).trans (ih (step c x))

theorem applyBindings (c : AssemblyContext) (m : Ir.Module) : Proceeds c (c.applyBindings m) :=
  (foldl (setBinding .global) m.globals c).trans
    ((foldl (setBinding .weak) m.weaks _).trans (foldl declareExtern m.externs _))

end Proceeds

/-! ### The first pass -/

section

variable {index : ℕ} {c : AssemblyContext} {cursor : Cursor} {items : List Ir.Item}

theorem sections_defineLabel (c : AssemblyContext) (label : Ir.Label) (index : ℕ)
    (offset : UInt64) :
    (c.defineLabel label index offset).object.sections = c.object.sections := by
  unfold AssemblyContext.defineLabel
  dsimp only
  by_cases hdefined : ((c.object.symbols.findOrAdd label.name).2.symbolAt
      (c.object.symbols.findOrAdd label.name).1).defined = true
  · rw [if_pos hdefined]
    rfl
  · rw [if_neg hdefined]
    rfl

theorem proceeds_layoutItem (index : ℕ) (state : AssemblyContext × Cursor) (item : Ir.Item) :
    Proceeds state.1 (layoutItem index state item).1 ∧
      (layoutItem index state item).1.object.sections = state.1.object.sections := by
  obtain ⟨c, cursor⟩ := state
  cases item with
  | label label => exact ⟨.defineLabel c label index cursor.offset, sections_defineLabel _ _ _ _⟩
  | _ => exact ⟨.refl c, rfl⟩

theorem proceeds_layoutItems (index : ℕ) (items : List Ir.Item) (state : AssemblyContext × Cursor) :
    Proceeds state.1 (items.foldl (layoutItem index) state).1 ∧
      (items.foldl (layoutItem index) state).1.object.sections = state.1.object.sections := by
  induction items generalizing state with
  | nil => exact ⟨.refl _, rfl⟩
  | cons item items ih =>
    obtain ⟨hone, hsections⟩ := proceeds_layoutItem index state item
    obtain ⟨hrest, hsections'⟩ := ih (layoutItem index state item)
    exact ⟨hone.trans hrest, hsections'.trans hsections⟩

theorem proceeds_layoutSection (c : AssemblyContext) (entry : Ir.Section × ℕ) :
    Proceeds c (c.layoutSection entry) := by
  unfold AssemblyContext.layoutSection
  exact (proceeds_layoutItems entry.2 entry.1.items (c, _)).1.trans
    (.of_placed (.refl _) rfl)

/-- What the first pass does at an item of a section stays. -/
theorem proceeds_of_layoutItems {c c₀ : AssemblyContext} {source : Ir.Section} {index : ℕ}
    {before : List Ir.Item} {item : Ir.Item} {after : List Ir.Item} {cursor : Cursor}
    (hitems : source.items = before ++ item :: after)
    (hbefore : before.foldl (layoutItem index)
      (c, { maxAlignment := (c.object.sections.getD index {}).alignment }) = (c₀, cursor)) :
    Proceeds (layoutItem index (c₀, cursor) item).1 (c.layoutSection (source, index)) := by
  unfold AssemblyContext.layoutSection
  dsimp only
  rw [hitems, List.foldl_append, hbefore, List.foldl_cons]
  exact (proceeds_layoutItems index after (layoutItem index (c₀, cursor) item)).1.trans
    (.of_placed (.refl _) rfl)

/-- A section gets the size that has been added up for it; the others keep theirs. -/
theorem sections_layoutSection (c : AssemblyContext) (source : Ir.Section) (index k : ℕ) :
    (c.layoutSection (source, index)).object.sections[k]?.map Section.size =
      if k = index then (c.object.sections[k]?).map fun _ =>
        (source.items.foldl (layoutItem index)
          (c, { maxAlignment := (c.object.sections.getD index {}).alignment })).2.offset
      else c.object.sections[k]?.map Section.size := by
  unfold AssemblyContext.layoutSection
  dsimp only
  have hkeep := (proceeds_layoutItems index source.items
    (c, { maxAlignment := (c.object.sections.getD index {}).alignment })).2
  unfold AssemblyContext.modifySection
  dsimp only
  rw [hkeep, List.getElem?_modify]
  split_ifs with heq hne hne
  · cases c.object.sections[k]? <;> rfl
  · exact absurd heq.symm hne
  · exact absurd hne.symm heq
  · cases c.object.sections[k]? <;> rfl

/-- The sections before some others keep their sizes. -/
theorem sizes_layoutSections_lt {sources : List Ir.Section} {n k : ℕ} (hk : k < n)
    (c : AssemblyContext) :
    ((sources.zipIdx n).foldl layoutSection c).object.sections[k]?.map Section.size =
      c.object.sections[k]?.map Section.size := by
  induction sources generalizing c n with
  | nil => rfl
  | cons source sources ih =>
    rw [List.zipIdx_cons, List.foldl_cons, ih (by omega), sections_layoutSection, if_neg (by omega)]

/-- The sizes after the first pass. -/
theorem sizes_layoutSections {sources : List Ir.Section} {source : Ir.Section} {n k : ℕ}
    (hsize : ∀ source ∈ sources, endOf source.items < 2 ^ 64)
    (hmem : (source, k) ∈ sources.zipIdx n) (c : AssemblyContext) :
    ((sources.zipIdx n).foldl layoutSection c).object.sections[k]?.map Section.size =
      c.object.sections[k]?.map fun _ => UInt64.ofNat (endOf source.items) := by
  induction sources generalizing c n with
  | nil => cases hmem
  | cons first sources ih =>
    obtain ⟨hfirst, hrest⟩ := List.forall_mem_cons.mp hsize
    rw [List.zipIdx_cons] at hmem
    rw [List.zipIdx_cons, List.foldl_cons]
    rcases List.mem_cons.mp hmem with heq | hmem
    · cases heq
      have hitems := layoutItems_eq k source.items c (c.object.sections.getD k {}).alignment hfirst
      have hcursor : (source.items.foldl (layoutItem k)
          (c, { maxAlignment := (c.object.sections.getD k {}).alignment })).2.offset =
            UInt64.ofNat (endOf source.items) := congrArg (fun state => state.2.offset) hitems
      rw [sizes_layoutSections_lt (by omega), sections_layoutSection, if_pos rfl, hcursor]
    · -- a later section has a larger number
      have hlater : n + 1 ≤ k := (List.mem_zipIdx hmem).1
      rw [ih hrest hmem]
      have hsame := sections_layoutSection c first n k
      rw [if_neg (by omega)] at hsame
      cases hget : c.object.sections[k]? with
      | none =>
        rw [hget] at hsame
        rw [Option.map_eq_none_iff.mp hsame]
      | some s =>
        rw [hget] at hsame
        obtain ⟨s', hs', -⟩ := Option.map_eq_some_iff.mp hsame
        rw [hs']
        rfl

end

/-- The sections have the sizes that the first pass gave them. -/
def Sized (m : Ir.Module) (c : AssemblyContext) : Prop :=
  ∀ source index, (source, index) ∈ (orderedSections m).zipIdx →
    (c.object.sections.getD index {}).size = UInt64.ofNat (endOf source.items)

theorem sized_of_sizes {m : Ir.Module} {c c' : AssemblyContext} (h : Sized m c)
    (hsizes : c'.object.sections.map Section.size = c.object.sections.map Section.size) :
    Sized m c' := by
  intro source index hmem
  rw [← h source index hmem]
  have hget := congrArg (fun sizes : List UInt64 => sizes[index]?) hsizes
  simp only [List.getElem?_map] at hget
  rw [List.getD_eq_getElem?_getD, List.getD_eq_getElem?_getD]
  cases hone : c.object.sections[index]? with
  | none =>
    rw [hone] at hget
    rw [Option.map_eq_none_iff.mp hget]
  | some s =>
    rw [hone] at hget
    obtain ⟨s', hs', hsize⟩ := Option.map_eq_some_iff.mp hget
    rw [hs']
    exact hsize

theorem sized_layoutAndDefineSymbols {m : Ir.Module} (diagnostics : Diag.DiagnosticEngine)
    (hsize : ∀ source ∈ orderedSections m, endOf source.items < 2 ^ 64) :
    Sized m ((AssemblyContext.collectSections { diagnostics } m).layoutAndDefineSymbols m) := by
  intro source index hmem
  have hsizes := sizes_layoutSections hsize hmem (AssemblyContext.collectSections { diagnostics } m)
  have hlt : index < (orderedSections m).length := by
    have hin := (List.mem_zipIdx hmem).2.1
    omega
  have hget : (AssemblyContext.collectSections { diagnostics } m).object.sections[index]? =
      some (objectSection index (orderedSections m)[index]) := by
    show ((orderedSections m).mapIdx objectSection)[index]? = _
    rw [List.getElem?_mapIdx, List.getElem?_eq_getElem hlt, Option.map_some]
  rw [hget] at hsizes
  obtain ⟨s, hs, hsize⟩ := Option.map_eq_some_iff.mp hsizes
  rw [List.getD_eq_getElem?_getD]
  show Section.size
    ((((orderedSections m).zipIdx 0).foldl layoutSection _).object.sections[index]?.getD {}) = _
  rw [hs]
  exact hsize

theorem sections_applyBindings (c : AssemblyContext) (m : Ir.Module) :
    (c.applyBindings m).object.sections = c.object.sections := by
  have hset : ∀ (binding : SymbolBinding) (names : List Str) (c : AssemblyContext),
      (names.foldl (setBinding binding) c).object.sections = c.object.sections := by
    intro binding names c
    rw [(setBinding_spec binding names c).2.1]
  have hexternal : ∀ (names : List Str) (c : AssemblyContext),
      (names.foldl declareExtern c).object.sections = c.object.sections := by
    intro names
    induction names with
    | nil => exact fun c => rfl
    | cons name names ih =>
      intro c
      rw [List.foldl_cons, ih, object_declareExtern]
  unfold AssemblyContext.applyBindings
  rw [hexternal, hset, hset]

/-! ### The second pass -/

/-- What the second pass does at an item: its relocation and its debug entry are at the offset. -/
structure Emits (index : ℕ) (offset : UInt64) (c c' : AssemblyContext) : Prop where
  proceeds : Proceeds c c'
  sections : c'.object.sections = c.object.sections
  relocations : ∃ added, c'.object.relocations = c.object.relocations ++ added ∧
    ∀ r ∈ added, r.sectionId = UInt32.ofNat index ∧ r.offset = offset
  debugInfo : ∃ added, c'.object.debugInfo = c.object.debugInfo ++ added ∧
    ∀ d ∈ added, d.sectionId = UInt32.ofNat index ∧ d.offset = offset

theorem Emits.refl (index : ℕ) (offset : UInt64) (c : AssemblyContext) : Emits index offset c c :=
  ⟨.refl c, rfl, ⟨[], (List.append_nil _).symm, fun _ h => absurd h List.not_mem_nil⟩,
    ⟨[], (List.append_nil _).symm, fun _ h => absurd h List.not_mem_nil⟩⟩

theorem object_referenceSymbol (c : AssemblyContext) (reference : Ir.SymbolRef)
    (location : SourceLocation) : (c.referenceSymbol reference location).2.object =
      { c.object with symbols := (c.referenceSymbol reference location).2.object.symbols } := by
  unfold AssemblyContext.referenceSymbol
  dsimp only
  split_ifs <;> rfl

/-- A reference, and its relocation. -/
theorem emits_reference (c : AssemblyContext) (reference : Ir.SymbolRef) (location : SourceLocation)
    {index : ℕ} {offset : UInt64} {r : Relocation} (hindex : r.sectionId = UInt32.ofNat index)
    (hoffset : r.offset = offset) :
    Emits index offset c ((c.referenceSymbol reference location).2.pushRelocation r) := by
  have hobject := object_referenceSymbol c reference location
  have hproceeds := Proceeds.referenceSymbol c reference location
  generalize (c.referenceSymbol reference location).2 = c' at *
  refine ⟨⟨hproceeds.placed, hproceeds.reports⟩, ?_, ⟨[r], ?_, ?_⟩, ⟨[], ?_, ?_⟩⟩
  · show c'.object.sections = _
    rw [hobject]
  · show c'.object.relocations ++ [r] = _
    rw [hobject]
  · intro r' hr'
    rw [List.mem_singleton.mp hr']
    exact ⟨hindex, hoffset⟩
  · show c'.object.debugInfo = _
    rw [hobject, List.append_nil]
  · exact fun _ h => absurd h List.not_mem_nil

theorem emits_relocateInstruction (c : AssemblyContext) (i : Ir.Instruction) (index : ℕ)
    (offset : UInt64) : Emits index offset c (c.relocateInstruction i index offset) := by
  unfold AssemblyContext.relocateInstruction
  cases i.symbol with
  | none => exact .refl index offset c
  | some reference => exact emits_reference c reference i.location rfl rfl

section

variable {memory : ℕ}

/-- One item, whether or not something is wrong with it. -/
theorem emits_emitItem {index : ℕ} {c c' : AssemblyContext} {bytes bytes' : List UInt8}
    {item : Ir.Item} (h : emitItem memory index (c, bytes) item = .ok (c', bytes')) :
    Emits index (UInt64.ofNat bytes.length) c c' := by
  unfold AssemblyContext.emitItem at h
  cases item with
  | label l =>
    cases h
    exact .refl _ _ _
  | bytes b =>
    obtain ⟨result, -, h⟩ := Checked.bind_eq_ok.mp h
    cases h
    exact .refl _ _ _
  | space s =>
    obtain ⟨result, -, h⟩ := Checked.bind_eq_ok.mp h
    cases h
    exact .refl _ _ _
  | align a =>
    obtain ⟨result, -, h⟩ := Checked.bind_eq_ok.mp h
    cases h
    exact .refl _ _ _
  | symbolValue v =>
    obtain ⟨result, -, h⟩ := Checked.bind_eq_ok.mp h
    cases h
    exact emits_reference c v.symbol v.location rfl rfl
  | instruction i =>
    unfold AssemblyContext.emitInstruction at h
    dsimp only at h
    have hrelocate := emits_relocateInstruction c i index (UInt64.ofNat bytes.length)
    generalize c.relocateInstruction i index (UInt64.ofNat bytes.length) = between at h hrelocate
    split at h
    · -- an instruction that cannot be encoded is reported, and has no debug entry
      obtain ⟨result, -, h⟩ := Checked.bind_eq_ok.mp h
      cases h
      exact ⟨hrelocate.proceeds.trans (.error _ _ (by decide) _), hrelocate.sections,
        hrelocate.relocations, hrelocate.debugInfo⟩
    · obtain ⟨result, -, h⟩ := Checked.bind_eq_ok.mp h
      cases h
      obtain ⟨added, hadded, hall⟩ := hrelocate.debugInfo
      refine ⟨⟨hrelocate.proceeds.placed, hrelocate.proceeds.reports⟩, hrelocate.sections,
        hrelocate.relocations, ⟨added ++ [{
          sectionId := UInt32.ofNat index, file := 0, offset := UInt64.ofNat bytes.length
          line := i.location.line, column := i.location.column }], ?_, ?_⟩⟩
      · show between.object.debugInfo ++ [_] = _
        rw [hadded, List.append_assoc]
      · intro d hd
        rcases List.mem_append.mp hd with hd | hd
        · exact hall d hd
        · rw [List.mem_singleton.mp hd]
          exact ⟨rfl, rfl⟩

/-- Appending fails only when a vector cannot hold the bytes. -/
theorem exists_emitItem (index : ℕ) (c : AssemblyContext) {bytes : List UInt8} {item : Ir.Item}
    (h : item.advance bytes.length ≤ capacity memory) :
    ∃ state, emitItem memory index (c, bytes) item = .ok state := by
  unfold AssemblyContext.emitItem
  dsimp only
  cases item with
  | label l => exact ⟨_, rfl⟩
  | bytes b =>
    dsimp only
    rw [append_of_le h]
    exact ⟨_, rfl⟩
  | space s =>
    dsimp only
    rw [appendFill_of_le h]
    exact ⟨_, rfl⟩
  | symbolValue v =>
    unfold AssemblyContext.emitSymbolValue
    dsimp only
    rw [appendFill_of_le h]
    exact ⟨_, rfl⟩
  | align a =>
    have hup : Ir.alignUp bytes.length a.alignment.toNat ≤ capacity memory := h
    have hle := Ir.le_alignUp bytes.length a.alignment.toNat
    have hmax : capacity memory < 2 ^ 64 := capacity_le.trans_lt (by decide)
    dsimp only
    rw [ofNat_alignUp (by omega), UInt64.toNat_ofNat_of_lt' (by simp only [UInt64.size]; omega),
      appendFill_of_le (by omega)]
    exact ⟨_, rfl⟩
  | instruction i =>
    have hfield : bytes.length + Isa.kInstructionSize ≤ capacity memory := h
    unfold AssemblyContext.emitInstruction
    dsimp only
    split
    · rw [append_of_le (by rw [List.length_replicate]; exact hfield)]
      exact ⟨_, rfl⟩
    · next encoded hencode =>
      obtain ⟨w, -, rfl⟩ := (Isa.encodeInto_eq_ok List.length_replicate).mp hencode
      rw [append_of_le (by rw [ByteOrder.length_littleEndian]; exact hfield)]
      exact ⟨_, rfl⟩

/-- The items of a section. -/
theorem emitItems_bytes {index : ℕ} {items : List Ir.Item} {c c' : AssemblyContext}
    {bytes bytes' : List UInt8} (hlength : bytes.length ≤ capacity memory)
    (h : items.foldlM (emitItem memory index) (c, bytes) = .ok (c', bytes')) :
    bytes' = bytes ++ Emission.image Ir.Item.advance itemBytes bytes.length items ∧
      bytes'.length = Emission.endOf Ir.Item.advance bytes.length items ∧
      bytes'.length ≤ capacity memory ∧ Proceeds c c' ∧ c'.object.sections = c.object.sections := by
  induction items generalizing c bytes with
  | nil =>
    cases h
    exact ⟨(List.append_nil _).symm, rfl, hlength, .refl _, rfl⟩
  | cons item items ih =>
    rw [List.foldlM_cons] at h
    obtain ⟨⟨c₁, bytes₁⟩, hone, hrest⟩ := Checked.bind_eq_ok.mp h
    obtain ⟨hbytes, hlength₁⟩ := emitItem_bytes hlength hone
    have hemits := emits_emitItem hone
    have hadvance : bytes₁.length = item.advance bytes.length := by
      rw [hbytes, List.length_append, length_itemBytes]
    obtain ⟨hbytes', hend, hmax, hproceeds, hsections⟩ := ih hlength₁ hrest
    rw [hadvance] at hbytes' hend
    refine ⟨?_, hend, hmax, hemits.proceeds.trans hproceeds, hsections.trans hemits.sections⟩
    rw [hbytes', hbytes, Emission.image_cons, List.append_assoc]

theorem exists_emitItems (index : ℕ) {items : List Ir.Item} {c : AssemblyContext}
    {bytes : List UInt8} (h : Emission.endOf Ir.Item.advance bytes.length items ≤ capacity memory) :
    ∃ state, items.foldlM (emitItem memory index) (c, bytes) = .ok state := by
  induction items generalizing c bytes with
  | nil => exact ⟨_, rfl⟩
  | cons item items ih =>
    rw [Emission.endOf_cons] at h
    have hnext := Emission.le_endOf Ir.Item.le_advance (item.advance bytes.length) items
    obtain ⟨⟨c₁, bytes₁⟩, hone⟩ := exists_emitItem index c (hnext.trans h)
    have hle := (item.le_advance bytes.length).trans (hnext.trans h)
    have hadvance : bytes₁.length = item.advance bytes.length := by
      rw [(emitItem_bytes hle hone).1, List.length_append, length_itemBytes]
    rw [List.foldlM_cons, hone]
    rw [← hadvance] at h
    exact ih h

end

/-- The checks at the end of a section do not report anything when the bytes are as many as the
first pass says, and those of `.bss` are zero. -/
theorem finishSection_eq {c : AssemblyContext} {source : Ir.Section} {index : ℕ}
    {bytes : List UInt8}
    (hsize : UInt64.ofNat bytes.length = (c.object.sections.getD index {}).size)
    (hzero : Ir.sectionHasData source.kind = false → ∀ b ∈ bytes, b = 0) :
    c.finishSection source index bytes =
      if Ir.sectionHasData source.kind then
        c.modifySection index fun s => { s with data := bytes }
      else c := by
  unfold AssemblyContext.finishSection
  dsimp only
  by_cases hdata : Ir.sectionHasData source.kind = true
  · rw [if_pos hdata, if_pos hdata, if_neg (not_not.mpr hsize)]
  · rw [if_neg hdata, if_neg hdata, if_neg]
    rw [List.any_eq_true]
    rintro ⟨b, hb, hne⟩
    exact absurd (hzero (Bool.eq_false_iff.mpr hdata) b hb) (of_decide_eq_true hne)

/-- Zeros, for what stands for zeros. -/
theorem zero_of_mem_itemBytes {offset : ℕ} {item : Ir.Item} (h : item.Zero) :
    ∀ b ∈ itemBytes offset item, b = 0 := by
  intro b hb
  cases item with
  | label l => cases hb
  | space s =>
    have hfill : s.fill = 0 := h
    exact (List.eq_of_mem_replicate hb).trans hfill
  | align a => exact List.eq_of_mem_replicate hb
  | instruction i => cases h
  | bytes b => cases h
  | symbolValue v => cases h

/-! ### Translated modules -/

/-- A module that lowering returns, optimised or not. -/
def Translated (m : Ir.Module) : Prop :=
  ∃ source oob level, Ir.Lowered source ∧ m = (Optimizer.run oob level source).1

theorem zeroFilled_of_translated {m : Ir.Module} (h : Translated m) : m.ZeroFilled := by
  obtain ⟨source, oob, level, hlowered, rfl⟩ := h
  have hzero := Ir.zeroFilled_of_lowered hlowered
  unfold Optimizer.run
  dsimp only
  split_ifs
  · intro s hs hbss item hitem
    obtain ⟨old, hold, hkind, -, hitems⟩ := mem_optimizeSections hs
    rw [hkind] at hbss
    rcases hitems item hitem with ⟨-, htext⟩ | hmem
    · -- only `.text` is optimised
      rw [htext] at hbss
      cases hbss
    · exact hzero old hold hbss item hmem
  · exact hzero

/-- The bytes of a section of a translated module without data. -/
theorem zero_of_mem_image {m : Ir.Module} (h : m.ZeroFilled) {source : Ir.Section}
    (hsource : source ∈ orderedSections m) (hkind : Ir.sectionHasData source.kind = false) :
    ∀ b ∈ Emission.image Ir.Item.advance itemBytes 0 source.items, b = 0 := by
  intro b hb
  have hbss : source.kind = .bss := by
    cases hcase : source.kind with
    | bss => rfl
    | text | rodata | data =>
      rw [hcase] at hkind
      exact absurd hkind (by decide)
  obtain ⟨p, hp, hb⟩ := List.mem_flatMap.mp hb
  exact zero_of_mem_itemBytes
    (h source (mem_of_mem_orderedSections hsource) hbss p.2 (Emission.mem_of_mem_placed hp)) b hb

/-! ### Agreement -/

/-- The state before the second pass. -/
def beforeEmit (m : Ir.Module) (diagnostics : Diag.DiagnosticEngine) : AssemblyContext :=
  ((AssemblyContext.collectSections { diagnostics } m).layoutAndDefineSymbols m).applyBindings m

/-- The first pass when it gets to what follows some items of a section, after the sections before
it. -/
def firstPass (m : Ir.Module) (diagnostics : Diag.DiagnosticEngine) (done : List (Ir.Section × ℕ))
    (index : ℕ) (before : List Ir.Item) : AssemblyContext × Cursor :=
  let c := done.foldl layoutSection (AssemblyContext.collectSections { diagnostics } m)
  before.foldl (layoutItem index)
    (c, { maxAlignment := (c.object.sections.getD index {}).alignment })

/-- The second pass when it gets there, with the bytes of the section so far. -/
def secondPass (memory : ℕ) (m : Ir.Module) (diagnostics : Diag.DiagnosticEngine)
    (done : List (Ir.Section × ℕ)) (index : ℕ) (before : List Ir.Item) :
    Except AssembleError (AssemblyContext × List UInt8) := do
  let c ← done.foldlM (emitSection memory) (beforeEmit m diagnostics)
  allocate memory (c.object.sections.getD index {}).size.toNat
  before.foldlM (emitItem memory index) (c, [])

/-- The passes agree on a section. -/
structure Agrees (memory : ℕ) (m : Ir.Module) (diagnostics : Diag.DiagnosticEngine)
    (done : List (Ir.Section × ℕ)) (source : Ir.Section) (index : ℕ) : Prop where
  /-- An item starts behind the bytes before it, and so does what it adds to the tables. -/
  items : ∀ before item after, source.items = before ++ item :: after → ∀ c bytes,
    secondPass memory m diagnostics done index before = .ok (c, bytes) →
      bytes.length = (firstPass m diagnostics done index before).2.offset.toNat ∧
      ∀ c' bytes', emitItem memory index (c, bytes) item = .ok (c', bytes') →
        Emits index (firstPass m diagnostics done index before).2.offset c c'
  /-- A label that is not the second one with its name is a symbol there. -/
  labels : ∀ before label after, source.items = before ++ .label label :: after →
    ((firstPass m diagnostics done index before).1.object.symbols.findOrNew label.name).defined =
        false → ∀ c, (beforeEmit m diagnostics).emit memory m = .ok c →
      ∃ s, c.object.symbols.find label.name = some s ∧ s.defined = true ∧
        s.sectionId = UInt32.ofNat index ∧
        s.value = (firstPass m diagnostics done index before).2.offset
  /-- The bytes are as many as the first pass says, and the checks at the end report nothing. -/
  size : ∀ c bytes, secondPass memory m diagnostics done index source.items = .ok (c, bytes) →
    bytes.length = (c.object.sections.getD index {}).size.toNat ∧
    (source.kind = .bss → ∀ b ∈ bytes, b = 0) ∧
    (c.finishSection source index bytes).diagnostics = c.diagnostics

/-- The passes agree on a module: on each section, whose items are all emitted, and nothing internal
is reported up to the end. -/
structure PassesAgree (memory : ℕ) (m : Ir.Module) (diagnostics : Diag.DiagnosticEngine) :
    Prop where
  sections : ∀ done source index rest,
    (orderedSections m).zipIdx = done ++ (source, index) :: rest →
      Agrees memory m diagnostics done source index ∧
      ∃ c bytes, secondPass memory m diagnostics done index source.items = .ok (c, bytes)
  reports : ∃ c more, (beforeEmit m diagnostics).emit memory m = .ok c ∧
    c.diagnostics.diagnostics = (beforeEmit m diagnostics).diagnostics.diagnostics ++ more ∧
    ∀ d ∈ more, d.code ≠ .internalError

section

variable {memory : ℕ} {m : Ir.Module} {diagnostics : Diag.DiagnosticEngine}

theorem sized_beforeEmit (hsize : ∀ source ∈ orderedSections m, endOf source.items < 2 ^ 64) :
    Sized m (beforeEmit m diagnostics) := by
  refine sized_of_sizes (sized_layoutAndDefineSymbols diagnostics hsize) ?_
  unfold beforeEmit
  rw [sections_applyBindings]

theorem offset_firstPass {done : List (Ir.Section × ℕ)} {index : ℕ} {before after : List Ir.Item}
    (hsize : endOf (before ++ after) < 2 ^ 64) :
    (firstPass m diagnostics done index before).2.offset = UInt64.ofNat (endOf before) := by
  have hbefore : endOf before < 2 ^ 64 := by
    unfold endOf at hsize ⊢
    rw [Emission.endOf_append] at hsize
    exact (Emission.le_endOf Ir.Item.le_advance _ _).trans_lt hsize
  exact congrArg (fun state : AssemblyContext × Cursor => state.2.offset)
    (layoutItems_eq index before _ _ hbefore)

/-- The bytes of a section are as many as the first pass says, and the checks at its end pass. -/
theorem size_of_emitItems {c c' : AssemblyContext} (hsized : Sized m c) (hzero : m.ZeroFilled)
    {source : Ir.Section} {index : ℕ} (hentry : (source, index) ∈ (orderedSections m).zipIdx)
    {bytes : List UInt8}
    (h : source.items.foldlM (emitItem memory index) (c, []) = .ok (c', bytes)) :
    bytes.length = (c'.object.sections.getD index {}).size.toNat ∧
      (Ir.sectionHasData source.kind = false → ∀ b ∈ bytes, b = 0) ∧
      c'.finishSection source index bytes =
        if Ir.sectionHasData source.kind then
          c'.modifySection index fun s => { s with data := bytes }
        else c' := by
  obtain ⟨hbytes, hlength, hmax, -, hsections⟩ := emitItems_bytes (Nat.zero_le _) h
  have hsize : (c'.object.sections.getD index {}).size = UInt64.ofNat bytes.length := by
    rw [hsections, hsized source index hentry, hlength]
    rfl
  have hmem : source ∈ orderedSections m := by
    have hget := List.mem_zipIdx_iff_getElem?.mp hentry
    exact List.mem_of_getElem? hget
  have hzeros : Ir.sectionHasData source.kind = false → ∀ b ∈ bytes, b = 0 := by
    intro hkind
    rw [hbytes]
    exact zero_of_mem_image hzero hmem hkind
  refine ⟨?_, hzeros, finishSection_eq hsize.symm hzeros⟩
  have hsmall : capacity memory < 2 ^ 64 := capacity_le.trans_lt (by decide)
  rw [hsize, UInt64.toNat_ofNat_of_lt' (by simp only [UInt64.size]; omega)]

/-- One section of the second pass. -/
theorem proceeds_emitSection {c c' : AssemblyContext} (hsized : Sized m c) (hzero : m.ZeroFilled)
    {entry : Ir.Section × ℕ} (hentry : entry ∈ (orderedSections m).zipIdx)
    (h : c.emitSection memory entry = .ok c') : Proceeds c c' ∧ Sized m c' := by
  obtain ⟨c₁, bytes, hitems, rfl⟩ := emitSection_cases h
  obtain ⟨-, -, -, hproceeds, hsections⟩ := emitItems_bytes (Nat.zero_le _) hitems
  obtain ⟨-, -, hfinish⟩ := size_of_emitItems hsized hzero hentry hitems
  have hsized₁ : Sized m c₁ := sized_of_sizes hsized (by rw [hsections])
  rw [hfinish]
  split_ifs
  · refine ⟨hproceeds.trans (.of_placed (.refl _) rfl), sized_of_sizes hsized₁ ?_⟩
    -- the data of a section is not its size
    apply List.ext_getElem?
    intro k
    show (((c₁.object.sections.modify _ _)).map Section.size)[k]? = _
    rw [List.getElem?_map, List.getElem?_map, List.getElem?_modify]
    cases c₁.object.sections[k]? with
    | none => rfl
    | some s =>
      show some (Section.size (if _ then _ else _)) = some s.size
      split_ifs
      · rfl
      · rfl
  · exact ⟨hproceeds, hsized₁⟩

/-- Some sections of the second pass. -/
theorem proceeds_emitSections {entries : List (Ir.Section × ℕ)} {c c' : AssemblyContext}
    (hsized : Sized m c) (hzero : m.ZeroFilled)
    (hentries : ∀ entry ∈ entries, entry ∈ (orderedSections m).zipIdx)
    (h : entries.foldlM (emitSection memory) c = .ok c') : Proceeds c c' ∧ Sized m c' := by
  refine Checked.foldlM_induction (p := fun c' => Proceeds c c' ∧ Sized m c') ?_
    ⟨.refl c, hsized⟩ h
  intro c₁ entry c₂ hentry hkeep hstep
  obtain ⟨hone, hsized'⟩ := proceeds_emitSection hkeep.2 hzero (hentries entry hentry) hstep
  exact ⟨hkeep.1.trans hone, hsized'⟩

/-- The state in which the second pass gets to an item. -/
theorem secondPass_cases {done : List (Ir.Section × ℕ)} {index : ℕ} {before : List Ir.Item}
    {c : AssemblyContext} {bytes : List UInt8}
    (h : secondPass memory m diagnostics done index before = .ok (c, bytes)) :
    ∃ c₀, done.foldlM (emitSection memory) (beforeEmit m diagnostics) = .ok c₀ ∧
      before.foldlM (emitItem memory index) (c₀, []) = .ok (c, bytes) := by
  unfold secondPass at h
  obtain ⟨c₀, hdone, h⟩ := Checked.bind_eq_ok.mp h
  obtain ⟨⟨⟩, -, h⟩ := Checked.bind_eq_ok.mp h
  exact ⟨c₀, hdone, h⟩

/-- The sections before a section. -/
theorem mem_of_done {done rest : List (Ir.Section × ℕ)} {entry : Ir.Section × ℕ}
    (hsections : (orderedSections m).zipIdx = done ++ entry :: rest) :
    entry ∈ (orderedSections m).zipIdx ∧ ∀ e ∈ done, e ∈ (orderedSections m).zipIdx := by
  rw [hsections]
  exact ⟨List.mem_append_right _ List.mem_cons_self, fun e he => List.mem_append_left _ he⟩

/-- The place of a label in the symbol table at the end. -/
theorem placed_of_emit (hsize : ∀ source ∈ orderedSections m, endOf source.items < 2 ^ 64)
    (hzero : m.ZeroFilled) {done rest : List (Ir.Section × ℕ)} {source : Ir.Section} {index : ℕ}
    (hsections : (orderedSections m).zipIdx = done ++ (source, index) :: rest)
    {before after : List Ir.Item} {label : Ir.Label}
    (hitems : source.items = before ++ .label label :: after)
    (hnew : ((firstPass m diagnostics done index before).1.object.symbols.findOrNew
      label.name).defined = false) {c : AssemblyContext}
    (hemit : (beforeEmit m diagnostics).emit memory m = .ok c) :
    ∃ s, c.object.symbols.find label.name = some s ∧ s.defined = true ∧
      s.sectionId = UInt32.ofNat index ∧
      s.value = (firstPass m diagnostics done index before).2.offset := by
  generalize hstate : firstPass m diagnostics done index before = state at hnew ⊢
  obtain ⟨c₀, cursor⟩ := state
  -- the label gets its place
  have hdefine : ∃ s, (c₀.defineLabel label index cursor.offset).object.symbols.find label.name =
      some s ∧ s.defined = true ∧ s.sectionId = UInt32.ofNat index ∧ s.value = cursor.offset := by
    unfold AssemblyContext.defineLabel
    dsimp only at hnew ⊢
    rw [c₀.object.symbols.symbolAt_findOrAdd label.name, hnew, if_neg (by decide)]
    have hfound := SymbolTable.find_update c₀.object.symbols label.name (fun symbol : Symbol =>
      { symbol with
        type := if (c₀.object.sections.getD index {}).type = .text then .function else .object
        binding := .local, sectionId := UInt32.ofNat index, value := cursor.offset
        defined := true })
      (fun _ => rfl) label.name
    rw [if_pos rfl] at hfound
    exact ⟨_, hfound, rfl, rfl, rfl⟩
  obtain ⟨s, hs, hdefined, hsection, hvalue⟩ := hdefine
  -- and keeps it up to the end
  have hfirst : Proceeds (c₀.defineLabel label index cursor.offset)
      ((AssemblyContext.collectSections { diagnostics } m).layoutAndDefineSymbols m) := by
    unfold AssemblyContext.layoutAndDefineSymbols
    rw [hsections, List.foldl_append, List.foldl_cons]
    refine Proceeds.trans ?_ (.foldl proceeds_layoutSection rest _)
    have hone := proceeds_of_layoutItems hitems hstate
    exact hone
  have hsecond := (proceeds_emitSections (sized_beforeEmit hsize) hzero (fun _ he => he) hemit).1
  obtain ⟨s', hs', hdefined', hsection', hvalue'⟩ :=
    (hfirst.trans ((Proceeds.applyBindings _ m).trans hsecond)).placed label.name s hs hdefined
  exact ⟨s', hs', hdefined', hsection'.trans hsection, hvalue'.trans hvalue⟩

/-- **The passes agree on a section.** -/
theorem agrees_of_translated (hsize : ∀ source ∈ orderedSections m, endOf source.items < 2 ^ 64)
    (hzero : m.ZeroFilled) {done rest : List (Ir.Section × ℕ)} {source : Ir.Section} {index : ℕ}
    (hsections : (orderedSections m).zipIdx = done ++ (source, index) :: rest) :
    Agrees memory m diagnostics done source index := by
  obtain ⟨hentry, hdone⟩ := mem_of_done hsections
  have hmem : source ∈ orderedSections m :=
    List.mem_of_getElem? (List.mem_zipIdx_iff_getElem?.mp hentry)
  refine ⟨?_, ?_, ?_⟩
  · intro before item after hitems c bytes hsecond
    obtain ⟨c₀, -, hfold⟩ := secondPass_cases hsecond
    obtain ⟨-, hlength, hmax, -, -⟩ := emitItems_bytes (Nat.zero_le _) hfold
    have hoffset : (firstPass m diagnostics done index before).2.offset =
        UInt64.ofNat bytes.length := by
      rw [hlength]
      have hfits : endOf (before ++ item :: after) < 2 ^ 64 := by
        rw [← hitems]
        exact hsize source hmem
      exact offset_firstPass hfits
    have hsmall : capacity memory < 2 ^ 64 := capacity_le.trans_lt (by decide)
    rw [hoffset, UInt64.toNat_ofNat_of_lt' (by simp only [UInt64.size]; omega)]
    exact ⟨rfl, fun c' bytes' => emits_emitItem⟩
  · intro before label after hitems hnew c hemit
    exact placed_of_emit hsize hzero hsections hitems hnew hemit
  · intro c bytes hsecond
    obtain ⟨c₀, hfold₀, hfold⟩ := secondPass_cases hsecond
    obtain ⟨-, hsized⟩ := proceeds_emitSections (sized_beforeEmit hsize) hzero hdone hfold₀
    obtain ⟨hlength, hzeros, hfinish⟩ := size_of_emitItems hsized hzero hentry hfold
    refine ⟨hlength, fun hbss => hzeros (by rw [hbss]; rfl), ?_⟩
    rw [hfinish]
    split_ifs
    · rfl
    · rfl

/-- The sections that the second pass gets through are ones that can be held. -/
theorem fits_of_emit {c c' : AssemblyContext} (h : c.emit memory m = .ok c') :
    ∀ source ∈ orderedSections m, endOf source.items ≤ capacity memory := by
  have hrun : ∀ (entries : List (Ir.Section × ℕ)) (c : AssemblyContext),
      entries.foldlM (emitSection memory) c = .ok c' →
      ∀ entry ∈ entries, endOf entry.1.items ≤ capacity memory := by
    intro entries
    induction entries with
    | nil => exact fun c _ entry hentry => absurd hentry List.not_mem_nil
    | cons entry entries ih =>
      intro c h
      rw [List.foldlM_cons] at h
      obtain ⟨c₁, hone, hrest⟩ := Checked.bind_eq_ok.mp h
      obtain ⟨c₂, bytes, hitems, -⟩ := emitSection_cases hone
      obtain ⟨-, hlength, hmax, -, -⟩ := emitItems_bytes (Nat.zero_le _) hitems
      rw [hlength] at hmax
      exact List.forall_mem_cons.mpr ⟨hmax, ih c₁ hrest⟩
  intro source hsource
  obtain ⟨k, hk⟩ := List.mem_iff_getElem?.mp hsource
  exact hrun _ c h (source, k) (List.mem_zipIdx_iff_getElem?.mpr hk)

/-- The second pass gets through a section whose bytes can be held. -/
theorem exists_emitSection {c : AssemblyContext} (hsized : Sized m c)
    (hfits : ∀ source ∈ orderedSections m, endOf source.items ≤ capacity memory)
    {source : Ir.Section} {index : ℕ} (hentry : (source, index) ∈ (orderedSections m).zipIdx) :
    ∃ c' bytes, allocate memory (c.object.sections.getD index {}).size.toNat = .ok () ∧
      source.items.foldlM (emitItem memory index) (c, []) = .ok (c', bytes) ∧
      c.emitSection memory (source, index) = .ok (c'.finishSection source index bytes) := by
  have hsmall : capacity memory < 2 ^ 64 := capacity_le.trans_lt (by decide)
  have hle := hfits source (List.mem_of_getElem? (List.mem_zipIdx_iff_getElem?.mp hentry))
  obtain ⟨⟨c', bytes⟩, hitems⟩ := @exists_emitItems memory index _ c [] hle
  have hreserve : allocate memory (c.object.sections.getD index {}).size.toNat = .ok () := by
    rw [hsized source index hentry, UInt64.toNat_ofNat_of_lt' (hle.trans_lt hsmall)]
    exact allocate_eq_ok.mpr hle
  refine ⟨c', bytes, hreserve, hitems, ?_⟩
  unfold AssemblyContext.emitSection
  dsimp only
  rw [hreserve, Checked.ok_bind, hitems]
  rfl

/-- The second pass gets through sections whose bytes can be held. -/
theorem exists_emitSections (hzero : m.ZeroFilled)
    (hfits : ∀ source ∈ orderedSections m, endOf source.items ≤ capacity memory)
    {entries : List (Ir.Section × ℕ)}
    (hentries : ∀ entry ∈ entries, entry ∈ (orderedSections m).zipIdx) {c : AssemblyContext}
    (hsized : Sized m c) :
    ∃ c', entries.foldlM (emitSection memory) c = .ok c' ∧ Sized m c' := by
  induction entries generalizing c with
  | nil => exact ⟨c, rfl, hsized⟩
  | cons entry entries ih =>
    obtain ⟨hentry, hrest⟩ := List.forall_mem_cons.mp hentries
    obtain ⟨c₁, bytes, -, -, hone⟩ := exists_emitSection hsized hfits hentry
    rw [List.foldlM_cons, hone]
    exact ih hrest (proceeds_emitSection hsized hzero hentry hone).2

end

/-- **The two passes agree** on every section of a module that lowering gives, optimised or not, as
far as the second pass gets, as long as the sizes are those of a `u64`.  It gets to its end, without
an internal error, exactly when a vector can hold each section and the allocator has the memory for
it: also for `.bss`, which has no bytes in the object. -/
theorem passes_agree {m : Ir.Module} (hm : Translated m) (memory : ℕ)
    (diagnostics : Diag.DiagnosticEngine)
    (hsize : ∀ source ∈ orderedSections m, endOf source.items < 2 ^ 64) :
    (∀ done source index rest, (orderedSections m).zipIdx = done ++ (source, index) :: rest →
      Agrees memory m diagnostics done source index) ∧
    (PassesAgree memory m diagnostics ↔
      ∀ source ∈ orderedSections m, endOf source.items ≤ capacity memory) := by
  have hzero := zeroFilled_of_translated hm
  have hagree : ∀ done source index rest,
      (orderedSections m).zipIdx = done ++ (source, index) :: rest →
        Agrees memory m diagnostics done source index := by
    intro done source index rest hsections
    exact agrees_of_translated hsize hzero hsections
  have hstart : Sized m (beforeEmit m diagnostics) := sized_beforeEmit hsize
  refine ⟨hagree, fun h => ?_, fun hfits => ⟨?_, ?_⟩⟩
  · obtain ⟨c, more, hemit, -, -⟩ := h.reports
    exact fits_of_emit hemit
  · intro done source index rest hsections
    obtain ⟨hentry, hdone⟩ := mem_of_done hsections
    obtain ⟨c₀, hbefore, hsized⟩ := exists_emitSections hzero hfits hdone hstart
    obtain ⟨c, bytes, hreserve, hitems, -⟩ := exists_emitSection hsized hfits hentry
    refine ⟨hagree done source index rest hsections, c, bytes, ?_⟩
    unfold secondPass
    rw [hbefore, Checked.ok_bind, hreserve, Checked.ok_bind]
    exact hitems
  · obtain ⟨c, hemit, -⟩ := exists_emitSections hzero hfits (fun _ he => he) hstart
    obtain ⟨more, hmore, hclean⟩ :=
      (proceeds_emitSections hstart hzero (fun _ he => he) hemit).1.reports
    exact ⟨c, more, hemit, hmore, hclean⟩

theorem translated_main : Translated mainModule :=
  ⟨mainModule, fun _ => false, .O0, frontEnd_main.lowered, rfl⟩

/-- `mainModule`, whose code is the longest section: 32 bytes. -/
theorem passes_agree_main :
    (∀ done source index rest, (orderedSections mainModule).zipIdx = done ++
      (source, index) :: rest →
      Agrees 32 mainModule {} done source index) ∧
    PassesAgree 32 mainModule {} ∧ ¬ PassesAgree 31 mainModule {} := by
  have hsize : ∀ source ∈ orderedSections mainModule, endOf source.items < 2 ^ 64 := by
    decide
  have henough := passes_agree translated_main 32 {} hsize
  have hfew := passes_agree translated_main 31 {} hsize
  refine ⟨henough.1, henough.2.mpr (by decide), fun h => ?_⟩
  exact absurd (hfew.2.mp h) (by decide)

/-- A reservation that is larger than the address space. -/
def reservedFile : SourceFile where
  name := str "a.asm"
  text := str ".bss
        .space 0x100000000000000
"

/-- `reservedFile`, lowered. -/
def reservedModule : Ir.Module where
  sourceName := str "a.asm"
  sections := [
    { kind := .text, name := str ".text" },
    { kind := .bss, name := str ".bss"
      items := [.space { size := 0x100000000000000, location := ⟨0, 2, 9, 6⟩ }] }]

theorem translated_reserved : Translated reservedModule := by
  have hlower : loweredFile reservedFile 0 = some reservedModule := by decide
  exact ⟨reservedModule, fun _ => false, .O0, (frontEnd_of_loweredFile hlower).lowered, rfl⟩

/-- `.bss` has no bytes in the object, but the second pass makes room for them and ends there, with
no object: the allocator cannot give more than there are addresses. -/
theorem emit_reserved : Translated reservedModule ∧
    (∀ source ∈ orderedSections reservedModule, endOf source.items < 2 ^ 64) ∧
    ((orderedSections reservedModule).map fun source => endOf source.items) = [2 ^ 56] ∧
    secondPass (2 ^ 47) reservedModule {} [] 0 [] = .error .badAlloc ∧
    (beforeEmit reservedModule {}).emit (2 ^ 47) reservedModule = .error .badAlloc ∧
    ¬ PassesAgree (2 ^ 47) reservedModule {} := by
  have hemit : (beforeEmit reservedModule {}).emit (2 ^ 47) reservedModule = .error .badAlloc := by
    rfl
  refine ⟨translated_reserved, by decide, by decide, by rfl, hemit, fun h => ?_⟩
  obtain ⟨c, more, hc, -, -⟩ := h.reports
  rw [hemit] at hc
  cases hc

end Assembler
end MiniTool
