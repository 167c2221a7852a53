import MiniToolchain.Assembler.Assembler
import MiniToolchain.Ir.Layout
import MiniToolchain.Lib.Bounds
import MiniToolchain.Lib.Checked
import MiniToolchain.Lib.Emission

/-!
# What the first pass gives

The first pass walks over the sections in their order and over the items of each, adding up offsets
with the arithmetic of `u64`.  As long as the size of a section is one of a `u64` nothing wraps,
every label gets the offset at which its item is laid out, and a second label with a name is an
error.

## Main definitions

* `placed` — the items of a section with their offsets.
* `labelSymbols` — the symbols the labels of a module define, in order.
* `laidOut` — a section of the object after the first pass.

## Main results

* `layoutItems_eq` — the loop over the items of a section.
* `Defines.defineLabel` — a label that is not an error adds its symbol.
* `layoutAndDefineSymbols_spec` — the symbols and the sections after the first pass.
-/

namespace MiniTool
namespace Assembler

open Object Bounds AssemblyContext

/-- The items of a section with their offsets. -/
def placed (items : List Ir.Item) : List (ℕ × Ir.Item) := Emission.placed Ir.Item.advance 0 items

/-- Where the items of a section end. -/
def endOf (items : List Ir.Item) : ℕ := Emission.endOf Ir.Item.advance 0 items

/-- Where the item with a number is. -/
theorem getElem?_placed {items : List Ir.Item} {p : ℕ} {item : Ir.Item}
    (h : items[p]? = some item) : (placed items)[p]? = some (endOf (items.take p), item) :=
  Emission.getElem?_placed h 0

/-- An item ends before a later one starts. -/
theorem advance_endOf_take_le {items : List Ir.Item} {p q : ℕ} {a b : Ir.Item}
    (ha : items[p]? = some a) (hb : items[q]? = some b) (hlt : p < q) :
    a.advance (endOf (items.take p)) ≤ endOf (items.take q) := by
  have hpairs := List.pairwise_iff_getElem.mp (Emission.pairwise_placed Ir.Item.le_advance 0 items)
  obtain ⟨hp, hgetp⟩ := List.getElem?_eq_some_iff.mp (getElem?_placed ha)
  obtain ⟨hq, hgetq⟩ := List.getElem?_eq_some_iff.mp (getElem?_placed hb)
  have hbefore := hpairs p q hp hq hlt
  unfold placed at hgetp hgetq
  rwa [hgetp, hgetq] at hbefore

/-- The symbol a label defines, before `.global` and `.weak`. -/
def labelSymbol (kind : Ir.SectionKind) (index offset : ℕ) : Ir.Item → Option Symbol
  | .label l => some
      { name := l.name, type := if kind = .text then .function else .object
        sectionId := UInt32.ofNat index, value := UInt64.ofNat offset, defined := true }
  | _ => none

/-- The symbols of the labels of a section with a number. -/
def sectionLabels (entry : Ir.Section × ℕ) : List Symbol :=
  (placed entry.1.items).filterMap fun p => labelSymbol entry.1.kind entry.2 p.1 p.2

/-- The symbols of the labels of a module. -/
def labelSymbols (m : Ir.Module) : List Symbol := (orderedSections m).zipIdx.flatMap sectionLabels

/-- The largest alignment among a start and the items. -/
def maxAlignment (start : UInt64) (items : List Ir.Item) : UInt64 :=
  items.foldl (fun alignment item =>
    match item with
    | .align align => max alignment align.alignment
    | _ => alignment) start

/-- A section of the object after the first pass. -/
def laidOut (entry : Ir.Section × ℕ) : Section :=
  { objectSection entry.2 entry.1 with
    size := UInt64.ofNat (endOf entry.1.items)
    alignment := maxAlignment entry.1.alignment entry.1.items }

/-! ### The items of a section -/

/-- What the first pass does to the object at an item. -/
def defineAt (index : ℕ) (c : AssemblyContext) (p : ℕ × Ir.Item) : AssemblyContext :=
  match p.2 with
  | .label label => c.defineLabel label index (UInt64.ofNat p.1)
  | _ => c

theorem ofNat_alignUp {offset : ℕ} {alignment : UInt64}
    (h : Ir.alignUp offset alignment.toNat < 2 ^ 64) :
    alignUp (UInt64.ofNat offset) alignment =
      UInt64.ofNat (Ir.alignUp offset alignment.toNat) := by
  have hoffset : (UInt64.ofNat offset).toNat = offset :=
    UInt64.toNat_ofNat_of_lt' ((Ir.le_alignUp _ _).trans_lt h)
  have hup := @alignUp_toNat_of_lt (UInt64.ofNat offset) alignment (by rw [hoffset]; exact h)
  rw [hoffset] at hup
  rw [← UInt64.ofNat_toNat (x := alignUp (UInt64.ofNat offset) alignment), hup]
  rfl

/-- The offset of the next item, with the arithmetic of `u64`. -/
theorem layoutItem_eq (index : ℕ) (c : AssemblyContext) {offset : ℕ} (alignment : UInt64)
    {item : Ir.Item} (h : item.advance offset < 2 ^ 64) :
    layoutItem index (c, { offset := UInt64.ofNat offset, maxAlignment := alignment }) item =
      (defineAt index c (offset, item),
        { offset := UInt64.ofNat (item.advance offset)
          maxAlignment := maxAlignment alignment [item] }) := by
  cases item with
  | label label => rfl
  | instruction instruction =>
    simp only [layoutItem, defineAt, Ir.Item.advance, UInt64.ofNat_add]
    rfl
  | bytes bytes =>
    simp only [layoutItem, defineAt, Ir.Item.advance, UInt64.ofNat_add]
    rfl
  | symbolValue value =>
    have hwidth : value.width.toUInt64 = UInt64.ofNat value.width.toNat := by
      rw [← UInt64.toNat_inj, UInt32.toNat_toUInt64]
      have := value.width.toNat_lt
      rw [UInt64.toNat_ofNat_of_lt' (this.trans (by decide))]
    simp only [layoutItem, defineAt, Ir.Item.advance, UInt64.ofNat_add, hwidth]
    rfl
  | space space =>
    simp only [layoutItem, defineAt, Ir.Item.advance, UInt64.ofNat_add, UInt64.ofNat_toNat]
    rfl
  | align align =>
    simp only [layoutItem, defineAt, Ir.Item.advance, ofNat_alignUp h]
    rfl

/-- The loop over the items of a section, laid out from `start`. -/
theorem layoutItems_eq (index : ℕ) (items : List Ir.Item) (c : AssemblyContext) {start : ℕ}
    (alignment : UInt64) (h : Emission.endOf Ir.Item.advance start items < 2 ^ 64) :
    items.foldl (layoutItem index)
        (c, { offset := UInt64.ofNat start, maxAlignment := alignment }) =
      ((Emission.placed Ir.Item.advance start items).foldl (defineAt index) c,
        { offset := UInt64.ofNat (Emission.endOf Ir.Item.advance start items)
          maxAlignment := maxAlignment alignment items }) := by
  induction items generalizing c start alignment with
  | nil => rfl
  | cons item items ih =>
    rw [Emission.endOf_cons] at h
    -- the items after this one end where the whole section does, so this one ends before
    have hnext : item.advance start < 2 ^ 64 :=
      (Emission.le_endOf Ir.Item.le_advance _ items).trans_lt h
    rw [List.foldl_cons, layoutItem_eq index c alignment hnext, ih _ _ h,
      Emission.placed_cons, List.foldl_cons, Emission.endOf_cons]
    rfl

/-! ### Labels -/

/-- The object only got the symbols `added`, and nothing went wrong before. -/
structure Defines (added : List Symbol) (c c' : AssemblyContext) : Prop where
  ok : c.failed = false
  symbols : c'.object.symbols.symbols = c.object.symbols.symbols ++ added
  frame : c'.object = { c.object with symbols := c'.object.symbols }

namespace Defines

variable {added more : List Symbol} {c c' c'' : AssemblyContext}

theorem refl (hok : c.failed = false) : Defines [] c c := ⟨hok, (List.append_nil _).symm, rfl⟩

theorem trans (h : Defines added c c') (h' : Defines more c' c'') :
    Defines (added ++ more) c c'' := by
  refine ⟨h.ok, ?_, ?_⟩
  · rw [h'.symbols, h.symbols, List.append_assoc]
  · rw [h'.frame, h.frame]

theorem sections (h : Defines added c c') : c'.object.sections = c.object.sections := by
  rw [h.frame]

/-- Labels are the only symbols of the first pass, so every symbol is defined. -/
theorem allDefined (h : Defines added c c') (hadded : ∀ s ∈ added, s.defined = true)
    (hc : ∀ s ∈ c.object.symbols.symbols, s.defined = true) :
    ∀ s ∈ c'.object.symbols.symbols, s.defined = true := by
  intro s hs
  rw [h.symbols] at hs
  rcases List.mem_append.mp hs with hs | hs
  · exact hc s hs
  · exact hadded s hs

/-- A label that is not an error adds its symbol. -/
theorem defineLabel {label : Ir.Label} {index : ℕ} {offset : UInt64}
    (hdefined : ∀ s ∈ c.object.symbols.symbols, s.defined = true)
    (hok : (c.defineLabel label index offset).failed = false) :
    Defines [{ name := label.name
               type := if (c.object.sections.getD index {}).type = .text then .function else .object
               sectionId := UInt32.ofNat index, value := offset, defined := true }]
      c (c.defineLabel label index offset) := by
  have hat := c.object.symbols.symbolAt_findOrAdd label.name
  unfold AssemblyContext.defineLabel at hok ⊢
  dsimp only at hok ⊢
  rw [hat] at hok ⊢
  by_cases hfound : (c.object.symbols.findOrNew label.name).defined = true
  · rw [if_pos hfound] at hok
    cases hok
  · rw [if_neg hfound] at hok ⊢
    -- every symbol so far is defined, so the name is new
    have hnew : c.object.symbols.indexOf label.name = none := by
      rw [← SymbolTable.find_eq_none]
      cases hfind : c.object.symbols.find label.name with
      | none => rfl
      | some s =>
        refine absurd (hdefined s (SymbolTable.mem_of_find hfind).1) ?_
        rwa [SymbolTable.findOrNew, hfind] at hfound
    refine ⟨hok, ?_, rfl⟩
    have hadd : c.object.symbols.findOrAdd label.name =
        (c.object.symbols.symbols.length, c.object.symbols.push { name := label.name } hnew) := by
      unfold SymbolTable.findOrAdd
      rw [hnew]
      exact SymbolTable.addSymbol_of_new hnew
    show (SymbolTable.symbols _).modify _ _ = _
    rw [hadd]
    exact modify_append_cons _ _ [] _

end Defines

theorem failed_defineLabel {c : AssemblyContext} {label : Ir.Label} {index : ℕ} {offset : UInt64}
    (h : (c.defineLabel label index offset).failed = false) : c.failed = false := by
  unfold AssemblyContext.defineLabel at h
  dsimp only at h
  by_cases hdefined : ((c.object.symbols.findOrAdd label.name).2.symbolAt
      (c.object.symbols.findOrAdd label.name).1).defined = true
  · rw [if_pos hdefined] at h
    cases h
  · rw [if_neg hdefined] at h
    exact h

theorem failed_defineAt {index : ℕ} {c : AssemblyContext} {p : ℕ × Ir.Item}
    (h : (defineAt index c p).failed = false) : c.failed = false := by
  obtain ⟨offset, item⟩ := p
  cases item with
  | label label => exact failed_defineLabel h
  | _ => exact h

theorem failed_layoutItem {index : ℕ} {state : AssemblyContext × Cursor} {item : Ir.Item}
    (h : (layoutItem index state item).1.failed = false) : state.1.failed = false := by
  cases item with
  | label label => exact failed_defineLabel h
  | _ => exact h

theorem sectionTypeOf_eq_text {kind : Ir.SectionKind} :
    sectionTypeOf kind = .text ↔ kind = .text := by
  cases kind <;> decide

theorem defined_of_labelSymbol {kind : Ir.SectionKind} {index offset : ℕ} {item : Ir.Item}
    {s : Symbol} (h : labelSymbol kind index offset item = some s) : s.defined = true := by
  cases item <;> cases h
  rfl

/-- The first contribution, if there is one, comes before the others. -/
theorem filterMap_cons_toList {α β : Type} (f : α → Option β) (x : α) (xs : List α) :
    (x :: xs).filterMap f = (f x).toList ++ xs.filterMap f := by
  rw [List.filterMap_eq_flatMap_toList, List.flatMap_cons, ← List.filterMap_eq_flatMap_toList]

/-- The labels among items with their offsets. -/
theorem foldl_defineAt {kind : Ir.SectionKind} {index : ℕ} {ps : List (ℕ × Ir.Item)}
    {c : AssemblyContext} (htype : (c.object.sections.getD index {}).type = sectionTypeOf kind)
    (hdefined : ∀ s ∈ c.object.symbols.symbols, s.defined = true)
    (hok : (ps.foldl (defineAt index) c).failed = false) :
    Defines (ps.filterMap fun p => labelSymbol kind index p.1 p.2) c
      (ps.foldl (defineAt index) c) := by
  induction ps generalizing c with
  | nil => exact .refl hok
  | cons p ps ih =>
    obtain ⟨offset, item⟩ := p
    rw [List.foldl_cons] at hok ⊢
    have hone : (defineAt index c (offset, item)).failed = false :=
      Checked.of_foldl (p := fun c : AssemblyContext => c.failed = false)
        (fun _ _ => failed_defineAt) hok
    have hstep : Defines (labelSymbol kind index offset item).toList c
        (defineAt index c (offset, item)) := by
      cases item with
      | label label =>
        have hdefine := Defines.defineLabel hdefined hone
        simp only [htype, sectionTypeOf_eq_text] at hdefine
        exact hdefine
      | _ => exact .refl hone
    have hnext := ih (by rw [hstep.sections]; exact htype)
      (hstep.allDefined (fun s hs => defined_of_labelSymbol (Option.mem_toList.mp hs)) hdefined) hok
    rw [filterMap_cons_toList]
    exact hstep.trans hnext

/-! ### The sections of a module -/

/-- The first pass over a section with a number. -/
theorem layoutSection_spec {c : AssemblyContext} {source : Ir.Section} {before after : List Section}
    (hsections : c.object.sections = before ++ objectSection before.length source :: after)
    (hsize : endOf source.items < 2 ^ 64)
    (hdefined : ∀ s ∈ c.object.symbols.symbols, s.defined = true)
    (hok : (c.layoutSection (source, before.length)).failed = false) :
    c.failed = false ∧
    (c.layoutSection (source, before.length)).object.symbols.symbols =
      c.object.symbols.symbols ++ sectionLabels (source, before.length) ∧
    (c.layoutSection (source, before.length)).object =
      { c.object with
        symbols := (c.layoutSection (source, before.length)).object.symbols
        sections := before ++ laidOut (source, before.length) :: after } := by
  have hget : c.object.sections.getD before.length {} = objectSection before.length source := by
    rw [hsections, List.getD_eq_getElem?_getD, getElem?_append_cons]
    rfl
  unfold AssemblyContext.layoutSection at hok ⊢
  dsimp only at hok ⊢
  rw [hget] at hok ⊢
  have hitems := layoutItems_eq before.length source.items c
    (objectSection before.length source).alignment hsize
  have hzero : (0 : UInt64) = UInt64.ofNat 0 := rfl
  rw [← hzero] at hitems
  rw [hitems] at hok ⊢
  have htype : (c.object.sections.getD before.length {}).type = sectionTypeOf source.kind := by
    rw [hget]
    rfl
  have hdefines := foldl_defineAt htype hdefined hok
  refine ⟨hdefines.ok, hdefines.symbols, ?_⟩
  unfold AssemblyContext.modifySection
  dsimp only
  rw [hdefines.sections, hsections, modify_append_cons, hdefines.frame]
  rfl

theorem failed_layoutSection {c : AssemblyContext} {entry : Ir.Section × ℕ}
    (h : (c.layoutSection entry).failed = false) : c.failed = false :=
  Checked.of_foldl (p := fun state : AssemblyContext × Cursor => state.1.failed = false)
    (fun _ _ => failed_layoutItem) h

/-- The first pass over the sections from a number on. -/
theorem layoutSections_spec {sources : List Ir.Section} {c : AssemblyContext}
    {before : List Section} (hsections : c.object.sections =
      before ++ (sources.zipIdx before.length).map fun entry => objectSection entry.2 entry.1)
    (hsize : ∀ source ∈ sources, endOf source.items < 2 ^ 64)
    (hdefined : ∀ s ∈ c.object.symbols.symbols, s.defined = true)
    (hok : ((sources.zipIdx before.length).foldl layoutSection c).failed = false) :
    ((sources.zipIdx before.length).foldl layoutSection c).object.symbols.symbols =
      c.object.symbols.symbols ++ (sources.zipIdx before.length).flatMap sectionLabels ∧
    ((sources.zipIdx before.length).foldl layoutSection c).object =
      { c.object with
        symbols := ((sources.zipIdx before.length).foldl layoutSection c).object.symbols
        sections := before ++ (sources.zipIdx before.length).map laidOut } := by
  induction sources generalizing c before with
  | nil =>
    have hnone : before ++ List.map laidOut (List.zipIdx [] before.length) = c.object.sections :=
      hsections.symm
    refine ⟨(List.append_nil _).symm, ?_⟩
    rw [hnone]
    rfl
  | cons source sources ih =>
    rw [List.zipIdx_cons, List.map_cons] at hsections
    rw [List.zipIdx_cons, List.foldl_cons] at hok ⊢
    obtain ⟨hfirst, hrest⟩ := List.forall_mem_cons.mp hsize
    have hone : (c.layoutSection (source, before.length)).failed = false :=
      Checked.of_foldl (p := fun c : AssemblyContext => c.failed = false)
        (fun _ _ => failed_layoutSection) hok
    obtain ⟨-, hsymbols, hobject⟩ := layoutSection_spec hsections hfirst hdefined hone
    have hdefined' : ∀ s ∈ (c.layoutSection (source, before.length)).object.symbols.symbols,
        s.defined = true := by
      intro s hs
      rw [hsymbols, List.mem_append] at hs
      rcases hs with hs | hs
      · exact hdefined s hs
      · obtain ⟨p, -, hp⟩ := List.mem_filterMap.mp hs
        exact defined_of_labelSymbol hp
    have hlength : (before ++ [laidOut (source, before.length)]).length = before.length + 1 := by
      rw [List.length_append, List.length_singleton]
    have hnext := @ih (c.layoutSection (source, before.length))
      (before ++ [laidOut (source, before.length)])
    rw [hlength] at hnext
    obtain ⟨hsymbols', hobject'⟩ :=
      hnext (by rw [hobject, List.append_assoc]; rfl) hrest hdefined' hok
    refine ⟨?_, ?_⟩
    · rw [hsymbols', hsymbols, List.flatMap_cons, List.append_assoc]
    · rw [hobject', hobject, List.append_assoc]
      rfl

/-- The symbols and the sections after the first pass. -/
theorem layoutAndDefineSymbols_spec {m : Ir.Module} {diagnostics : Diag.DiagnosticEngine}
    (hsize : ∀ source ∈ orderedSections m, endOf source.items < 2 ^ 64)
    (hok : ((AssemblyContext.collectSections { diagnostics } m).layoutAndDefineSymbols m).failed =
      false) :
    ∃ symbols : SymbolTable, symbols.symbols = labelSymbols m ∧
      ((AssemblyContext.collectSections { diagnostics } m).layoutAndDefineSymbols m).object =
        { sections := (orderedSections m).zipIdx.map laidOut
          sourceFiles := [m.sourceName]
          symbols } := by
  have hstart : (AssemblyContext.collectSections { diagnostics } m).object.sections =
      [] ++ ((orderedSections m).zipIdx).map fun entry => objectSection entry.2 entry.1 :=
    List.mapIdx_eq_zipIdx_map
  obtain ⟨hsymbols, hobject⟩ := @layoutSections_spec (orderedSections m) _ [] hstart hsize
    (fun s hs => by cases hs) hok
  exact ⟨_, hsymbols, hobject⟩

end Assembler
end MiniTool
