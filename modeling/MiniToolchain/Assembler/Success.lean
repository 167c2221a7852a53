import MiniToolchain.Assembler.Passes

/-!
# When the assembler succeeds

An error of the assembler is about one item, one directive or one reference, and whether there is
one can be told from the module: a label with a name that is taken, an `.extern` of a name that is
defined, an instruction that cannot be encoded, or a reference to a local label that is neither
defined nor declared.

## Main definitions

* `itemNames` — the names an item refers to.
* `Ready` — a reference to the name is no error.
* `Assembles` — there is no error in the module.

## Main results

* `assembles_of_assemble` — a module that is assembled has none.
* `exists_of_assembles` — a module that has none is assembled.
-/

namespace MiniTool
namespace Assembler

open Object AssemblyContext

/-! ### References -/

/-- The names an item refers to. -/
def itemNames : Ir.Item → List Str
  | .instruction i => (i.symbol.map Ir.SymbolRef.name).toList
  | .symbolValue v => [v.symbol.name]
  | _ => []

theorem map_referenceOf (index offset : ℕ) (item : Ir.Item) :
    ((referenceOf index offset item).toList.map fun r => r.symbol.name) = itemNames item := by
  cases item with
  | instruction i =>
    show ((i.symbol.map _).toList.map _) = (i.symbol.map _).toList
    cases i.symbol <;> rfl
  | _ => rfl

/-- A reference to the name is no error: a local label has to be defined, or declared. -/
def Ready (t : SymbolTable) (n : Str) : Prop :=
  n.startsWith (str ".L") = true →
    ¬((t.findOrNew n).defined = false ∧ (t.findOrNew n).binding = .local)

theorem ready_of_touched {names : List Str} {t t' : SymbolTable} (h : Touched promote names t t')
    (hnames : ∀ n ∈ names, Ready t n) (n : Str) : Ready t' n ↔ Ready t n := by
  unfold Ready
  rw [h.findOrNew]
  split_ifs with hn
  · refine ⟨fun _ => hnames n hn, fun _ _ => ?_⟩
    rintro ⟨hundefined, hlocal⟩
    -- what is promoted is external
    by_cases hcase : (t.findOrNew n).defined = false ∧ (t.findOrNew n).binding = .local
    · rw [promote, if_pos hcase] at hlocal
      cases hlocal
    · rw [promote, if_neg hcase] at hundefined hlocal
      exact hcase ⟨hundefined, hlocal⟩
  · rfl

theorem failed_referenceSymbol_iff {c : AssemblyContext} {reference : Ir.SymbolRef}
    {location : SourceLocation} : (c.referenceSymbol reference location).2.failed = false ↔
      c.failed = false ∧ Ready c.object.symbols reference.name := by
  have hat := c.object.symbols.symbolAt_findOrAdd reference.name
  unfold AssemblyContext.referenceSymbol Ready
  dsimp only
  rw [hat]
  by_cases hcase : (c.object.symbols.findOrNew reference.name).defined = false ∧
      (c.object.symbols.findOrNew reference.name).binding = .local
  · rw [if_pos hcase]
    by_cases hlocal : reference.name.startsWith (str ".L") = true
    · rw [if_pos hlocal]
      exact ⟨nofun, fun h => absurd hcase (h.2 hlocal)⟩
    · rw [if_neg hlocal]
      exact ⟨fun h => ⟨h, fun hstart => absurd hstart hlocal⟩, fun h => h.1⟩
  · rw [if_neg hcase]
    exact ⟨fun h => ⟨h, fun _ => hcase⟩, fun h => h.1⟩

/-! ### The second pass -/

section

variable {memory index : ℕ} {c c' : AssemblyContext} {bytes bytes' : List UInt8}

theorem failed_relocateInstruction_iff {i : Ir.Instruction} {offset : UInt64} :
    (c.relocateInstruction i index offset).failed = false ↔
      c.failed = false ∧ ∀ n ∈ itemNames (.instruction i), Ready c.object.symbols n := by
  have hnames : itemNames (.instruction i) = (i.symbol.map Ir.SymbolRef.name).toList := rfl
  rw [hnames]
  unfold AssemblyContext.relocateInstruction
  cases i.symbol with
  | none => exact ⟨fun h => ⟨h, fun n hn => absurd hn List.not_mem_nil⟩, fun h => h.1⟩
  | some reference =>
    refine Iff.trans failed_referenceSymbol_iff (and_congr_right fun _ => ?_)
    exact List.forall_mem_singleton.symm

/-- What goes wrong at an item. -/
theorem failed_emitItem_iff {item : Ir.Item}
    (h : emitItem memory index (c, bytes) item = .ok (c', bytes')) :
    c'.failed = false ↔
      c.failed = false ∧ Encodable item ∧ ∀ n ∈ itemNames item, Ready c.object.symbols n := by
  unfold AssemblyContext.emitItem at h
  have hplain : c' = c → itemNames item = [] → Encodable item → (c'.failed = false ↔
      c.failed = false ∧ Encodable item ∧ ∀ n ∈ itemNames item, Ready c.object.symbols n) := by
    rintro rfl hnone hencodable
    rw [hnone]
    exact ⟨fun h => ⟨h, hencodable, nofun⟩, fun h => h.1⟩
  cases item with
  | label l =>
    cases h
    exact hplain rfl rfl trivial
  | bytes b =>
    obtain ⟨result, -, h⟩ := Checked.bind_eq_ok.mp h
    cases h
    exact hplain rfl rfl trivial
  | space s =>
    obtain ⟨result, -, h⟩ := Checked.bind_eq_ok.mp h
    cases h
    exact hplain rfl rfl trivial
  | align a =>
    obtain ⟨result, -, h⟩ := Checked.bind_eq_ok.mp h
    cases h
    exact hplain rfl rfl trivial
  | symbolValue v =>
    obtain ⟨result, -, h⟩ := Checked.bind_eq_ok.mp h
    cases h
    refine Iff.trans failed_referenceSymbol_iff (and_congr_right fun _ => ?_)
    exact ⟨fun h => ⟨trivial, fun n hn => by rwa [List.mem_singleton.mp hn]⟩,
      fun h => h.2 _ List.mem_cons_self⟩
  | instruction i =>
    unfold AssemblyContext.emitInstruction at h
    dsimp only at h
    have hfield : (List.replicate Isa.kInstructionSize (0 : UInt8)).length = Isa.kInstructionSize :=
      List.length_replicate
    split at h
    · next e herror =>
      obtain ⟨result, -, h⟩ := Checked.bind_eq_ok.mp h
      cases h
      refine ⟨nofun, ?_⟩
      rintro ⟨-, ⟨w, hw⟩, -⟩
      rw [(Isa.encodeInto_eq_ok hfield).mpr ⟨w, hw, rfl⟩] at herror
      cases herror
    · next encoded hencode =>
      obtain ⟨result, -, h⟩ := Checked.bind_eq_ok.mp h
      cases h
      obtain ⟨w, hw, -⟩ := (Isa.encodeInto_eq_ok hfield).mp hencode
      refine Iff.trans failed_relocateInstruction_iff (and_congr_right fun _ => ?_)
      exact ⟨fun h => ⟨⟨w, hw⟩, h⟩, fun h => h.2⟩

/-- An item changes nothing about which references are errors. -/
theorem ready_emitItem {item : Ir.Item} (hlength : bytes.length ≤ capacity memory)
    (h : emitItem memory index (c, bytes) item = .ok (c', bytes')) (hok : c'.failed = false)
    (n : Str) : Ready c'.object.symbols n ↔ Ready c.object.symbols n := by
  have htouched := (emitItem_spec hlength h hok).1.touched
  rw [map_referenceOf] at htouched
  exact ready_of_touched htouched ((failed_emitItem_iff h).mp hok).2.2 n

/-- Nothing is wrong with the item, once the labels and the directives are known. -/
def ItemReady (t : SymbolTable) (item : Ir.Item) : Prop :=
  Encodable item ∧ ∀ n ∈ itemNames item, Ready t n

theorem failed_emitItems_iff {items : List Ir.Item} (hlength : bytes.length ≤ capacity memory)
    (h : items.foldlM (emitItem memory index) (c, bytes) = .ok (c', bytes')) :
    (c'.failed = false ↔
      c.failed = false ∧ ∀ item ∈ items, ItemReady c.object.symbols item) ∧
    (c'.failed = false → ∀ n, Ready c'.object.symbols n ↔ Ready c.object.symbols n) := by
  induction items generalizing c bytes with
  | nil =>
    cases h
    exact ⟨⟨fun h => ⟨h, nofun⟩, fun h => h.1⟩, fun _ _ => Iff.rfl⟩
  | cons item items ih =>
    rw [List.foldlM_cons] at h
    obtain ⟨⟨c₁, bytes₁⟩, hone, hrest⟩ := Checked.bind_eq_ok.mp h
    have hstep := failed_emitItem_iff hone
    obtain ⟨hall, hready⟩ := ih (emitItem_bytes hlength hone).2 hrest
    have hitems : c₁.failed = false → ∀ item, ItemReady c₁.object.symbols item ↔
        ItemReady c.object.symbols item := fun hok item =>
      and_congr_right fun _ => forall₂_congr fun n _ => ready_emitItem hlength hone hok n
    refine ⟨?_, fun hok n => ?_⟩
    · rw [hall, List.forall_mem_cons]
      constructor
      · rintro ⟨hok, hmore⟩
        obtain ⟨hfirst, hthis⟩ := hstep.mp hok
        exact ⟨hfirst, hthis, fun item hitem => (hitems hok item).mp (hmore item hitem)⟩
      · rintro ⟨hok, hthis, hmore⟩
        have hok₁ := hstep.mpr ⟨hok, hthis⟩
        exact ⟨hok₁, fun item hitem => (hitems hok₁ item).mpr (hmore item hitem)⟩
    · exact (hready hok n).trans (ready_emitItem hlength hone (hall.mp hok).1 n)

/-- A section of the second pass. -/
theorem failed_emitSection_iff {m : Ir.Module} (hsized : Sized m c) (hzero : m.ZeroFilled)
    {source : Ir.Section} (hentry : (source, index) ∈ (orderedSections m).zipIdx)
    (h : c.emitSection memory (source, index) = .ok c') :
    (c'.failed = false ↔
      c.failed = false ∧ ∀ item ∈ source.items, ItemReady c.object.symbols item) ∧
    (c'.failed = false → ∀ n, Ready c'.object.symbols n ↔ Ready c.object.symbols n) := by
  obtain ⟨c₁, bytes, hitems, rfl⟩ := emitSection_cases h
  have hall := failed_emitItems_iff (Nat.zero_le _) hitems
  -- the checks at the end find nothing
  rw [(size_of_emitItems hsized hzero hentry hitems).2.2]
  split_ifs
  · exact hall
  · exact hall

theorem failed_emitSections_iff {m : Ir.Module} (hsized : Sized m c) (hzero : m.ZeroFilled)
    {entries : List (Ir.Section × ℕ)}
    (hentries : ∀ entry ∈ entries, entry ∈ (orderedSections m).zipIdx)
    (h : entries.foldlM (emitSection memory) c = .ok c') :
    (c'.failed = false ↔ c.failed = false ∧
      ∀ entry ∈ entries, ∀ item ∈ entry.1.items, ItemReady c.object.symbols item) ∧
    (c'.failed = false → ∀ n, Ready c'.object.symbols n ↔ Ready c.object.symbols n) := by
  induction entries generalizing c with
  | nil =>
    cases h
    exact ⟨⟨fun h => ⟨h, nofun⟩, fun h => h.1⟩, fun _ _ => Iff.rfl⟩
  | cons entry entries ih =>
    rw [List.foldlM_cons] at h
    obtain ⟨hentry, hentries'⟩ := List.forall_mem_cons.mp hentries
    obtain ⟨c₁, hone, hrest⟩ := Checked.bind_eq_ok.mp h
    obtain ⟨hstep, hkeep⟩ := failed_emitSection_iff hsized hzero hentry hone
    obtain ⟨hall, hready⟩ := ih (proceeds_emitSection hsized hzero hentry hone).2 hentries' hrest
    have hitems : c₁.failed = false → ∀ item, ItemReady c₁.object.symbols item ↔
        ItemReady c.object.symbols item := fun hok item =>
      and_congr_right fun _ => forall₂_congr fun n _ => hkeep hok n
    refine ⟨?_, fun hok n => ?_⟩
    · rw [hall, List.forall_mem_cons]
      constructor
      · rintro ⟨hok, hmore⟩
        obtain ⟨hfirst, hthis⟩ := hstep.mp hok
        exact ⟨hfirst, hthis, fun entry he item hitem =>
          (hitems hok item).mp (hmore entry he item hitem)⟩
      · rintro ⟨hok, hthis, hmore⟩
        have hok₁ := hstep.mpr ⟨hok, hthis⟩
        exact ⟨hok₁, fun entry he item hitem => (hitems hok₁ item).mpr (hmore entry he item hitem)⟩
    · exact (hready hok n).trans (hkeep (hall.mp hok).1 n)

end

/-! ### The first pass -/

/-- A label with a new name is no error. -/
theorem ok_defineLabel {c : AssemblyContext} {label : Ir.Label} {index : ℕ} {offset : UInt64}
    (hok : c.failed = false) (hnew : label.name ∉ c.object.symbols.symbols.map Symbol.name) :
    (c.defineLabel label index offset).failed = false := by
  have hundefined : (c.object.symbols.findOrNew label.name).defined = false := by
    unfold SymbolTable.findOrNew
    rw [SymbolTable.find_eq_none.mpr (SymbolTable.indexOf_eq_none.mpr hnew)]
    rfl
  unfold AssemblyContext.defineLabel
  dsimp only
  rw [c.object.symbols.symbolAt_findOrAdd label.name, hundefined, if_neg (by decide)]
  exact hok

/-- Labels with different names. -/
theorem ok_foldl_defineAt {kind : Ir.SectionKind} {index : ℕ} {ps : List (ℕ × Ir.Item)}
    {c : AssemblyContext} (htype : (c.object.sections.getD index {}).type = sectionTypeOf kind)
    (hdefined : ∀ s ∈ c.object.symbols.symbols, s.defined = true) (hok : c.failed = false)
    (hnames : ((c.object.symbols.symbols ++
      ps.filterMap fun p => labelSymbol kind index p.1 p.2).map Symbol.name).Nodup) :
    (ps.foldl (defineAt index) c).failed = false := by
  induction ps generalizing c with
  | nil => exact hok
  | cons p ps ih =>
    obtain ⟨offset, item⟩ := p
    rw [filterMap_cons_toList, ← List.append_assoc] at hnames
    have hone : (defineAt index c (offset, item)).failed = false := by
      cases item with
      | label label =>
        refine ok_defineLabel hok fun hmem => ?_
        rw [List.append_assoc, List.map_append, List.nodup_append] at hnames
        exact hnames.2.2 _ hmem _ List.mem_cons_self rfl
      | _ => exact hok
    have hstep : Defines (labelSymbol kind index offset item).toList c
        (defineAt index c (offset, item)) := by
      have hsingle := @foldl_defineAt kind index [(offset, item)] c htype hdefined hone
      rw [filterMap_cons_toList, List.filterMap_nil, List.append_nil] at hsingle
      exact hsingle
    rw [List.foldl_cons]
    refine ih (by rw [hstep.sections]; exact htype)
      (hstep.allDefined (fun s hs => defined_of_labelSymbol (Option.mem_toList.mp hs)) hdefined)
      hone ?_
    rw [hstep.symbols]
    exact hnames

/-- The first pass over the sections from a number on. -/
theorem ok_layoutSections {sources : List Ir.Section} {c : AssemblyContext}
    {before : List Section} (hsections : c.object.sections =
      before ++ (sources.zipIdx before.length).map fun entry => objectSection entry.2 entry.1)
    (hsize : ∀ source ∈ sources, endOf source.items < 2 ^ 64)
    (hdefined : ∀ s ∈ c.object.symbols.symbols, s.defined = true) (hok : c.failed = false)
    (hnames : ((c.object.symbols.symbols ++
      (sources.zipIdx before.length).flatMap sectionLabels).map Symbol.name).Nodup) :
    ((sources.zipIdx before.length).foldl layoutSection c).failed = false := by
  induction sources generalizing c before with
  | nil => exact hok
  | cons source sources ih =>
    rw [List.zipIdx_cons, List.map_cons] at hsections
    rw [List.zipIdx_cons, List.flatMap_cons, ← List.append_assoc] at hnames
    rw [List.zipIdx_cons, List.foldl_cons]
    obtain ⟨hfirst, hrest⟩ := List.forall_mem_cons.mp hsize
    have hone : (c.layoutSection (source, before.length)).failed = false := by
      have hget : c.object.sections.getD before.length {} = objectSection before.length source := by
        rw [hsections, List.getD_eq_getElem?_getD, Bounds.getElem?_append_cons]
        rfl
      have hitems := layoutItems_eq before.length source.items c
        (c.object.sections.getD before.length {}).alignment hfirst
      have hfold : (source.items.foldl (layoutItem before.length)
          (c, { maxAlignment := (c.object.sections.getD before.length {}).alignment })).1 =
            (placed source.items).foldl (defineAt before.length) c := congrArg Prod.fst hitems
      show (source.items.foldl (layoutItem before.length)
        (c, { maxAlignment := (c.object.sections.getD before.length {}).alignment })).1.failed = _
      rw [hfold]
      refine @ok_foldl_defineAt source.kind _ _ _ (by rw [hget]; rfl) hdefined hok ?_
      rw [List.map_append] at hnames
      exact (List.nodup_append.mp hnames).1
    obtain ⟨-, hsymbols, hobject⟩ := layoutSection_spec hsections hfirst hdefined hone
    have hdefined' : ∀ s ∈ (c.layoutSection (source, before.length)).object.symbols.symbols,
        s.defined = true := by
      intro s hs
      rw [hsymbols, List.mem_append] at hs
      rcases hs with hs | hs
      · exact hdefined s hs
      · obtain ⟨p, -, hp⟩ := List.mem_filterMap.mp hs
        exact defined_of_labelSymbol hp
    have hlength : (before ++ [laidOut (source, before.length)]).length = before.length + 1 := by
      rw [List.length_append, List.length_singleton]
    have hnext := @ih (c.layoutSection (source, before.length))
      (before ++ [laidOut (source, before.length)])
    rw [hlength] at hnext
    exact hnext (by rw [hobject, List.append_assoc]; rfl) hrest hdefined' hone
      (by rw [hsymbols]; exact hnames)

/-! ### The directives -/

theorem ok_declareExterns {names : List Str} {c : AssemblyContext} (hok : c.failed = false)
    (hundefined : ∀ n ∈ names, (c.object.symbols.findOrNew n).defined = false) :
    (names.foldl declareExtern c).failed = false := by
  induction names generalizing c with
  | nil => exact hok
  | cons name names ih =>
    obtain ⟨hname, hnames⟩ := List.forall_mem_cons.mp hundefined
    have hone : (c.declareExtern name).failed = false := by
      unfold AssemblyContext.declareExtern
      dsimp only
      rw [c.object.symbols.symbolAt_findOrAdd name, hname, if_neg (by decide)]
      exact hok
    refine ih hone fun n hn => ?_
    rw [(failed_declareExtern hone).2.2.findOrNew]
    split_ifs
    · exact hnames n hn
    · exact hnames n hn

theorem ok_applyBindings {c : AssemblyContext} {m : Ir.Module} (hok : c.failed = false)
    (hundefined : ∀ n ∈ m.externs, (c.object.symbols.findOrNew n).defined = false) :
    (c.applyBindings m).failed = false := by
  unfold AssemblyContext.applyBindings
  dsimp only
  obtain ⟨hfailed, -, htouched⟩ := setBinding_spec .global m.globals c
  obtain ⟨hfailed', -, htouched'⟩ :=
    setBinding_spec .weak m.weaks (m.globals.foldl (setBinding .global) c)
  refine ok_declareExterns (by rw [hfailed', hfailed]; exact hok) fun n hn => ?_
  -- a binding is not a definition
  rw [htouched'.findOrNew, htouched.findOrNew]
  split_ifs <;> exact hundefined n hn

/-! ### A module -/

/-- There is no error in the module, and a vector can hold each of its sections. -/
structure Assembles (memory : ℕ) (m : Ir.Module) : Prop where
  fits : ∀ source ∈ orderedSections m, endOf source.items ≤ capacity memory
  encodable : ∀ source ∈ orderedSections m, ∀ item ∈ source.items, Encodable item
  labels : ((labelSymbols m).map Symbol.name).Nodup
  externs : ∀ n ∈ m.externs, labelOf m n = none
  locals : ∀ source ∈ orderedSections m, ∀ item ∈ source.items, ∀ n ∈ itemNames item,
    n.startsWith (str ".L") = true → labelOf m n ≠ none ∨ n ∈ declaredNames m

section

variable {memory : ℕ} {m : Ir.Module} {diagnostics : Diag.DiagnosticEngine}

/-- The symbols before the second pass. -/
theorem ready_beforeEmit (hsize : ∀ source ∈ orderedSections m, endOf source.items < 2 ^ 64)
    (hok : (beforeEmit m diagnostics).failed = false) (n : Str) :
    Ready (beforeEmit m diagnostics).object.symbols n ↔
      (n.startsWith (str ".L") = true → labelOf m n ≠ none ∨ n ∈ declaredNames m) := by
  obtain ⟨hok₁, -, -, -, hdeclared⟩ := applyBindings_spec hok
  obtain ⟨labels, hlabels, hobject⟩ := layoutAndDefineSymbols_spec hsize hok₁
  rw [hobject] at hdeclared
  dsimp only at hdeclared
  have hfind : labels.find n = labelOf m n := by
    unfold SymbolTable.find labelOf
    rw [hlabels]
  have hafter : (beforeEmit m diagnostics).object.symbols.findOrNew n =
      if n ∈ declaredNames m then withBinding (bindingOf m n .local) (labels.findOrNew n)
      else labels.findOrNew n := by
    unfold beforeEmit SymbolTable.findOrNew
    rw [hdeclared]
    split_ifs <;> rfl
  unfold Ready
  rw [hafter]
  refine forall_congr' fun _ => ?_
  split_ifs with hn
  · refine iff_of_true ?_ (.inr hn)
    rintro ⟨-, hlocal⟩
    obtain ⟨hbinding, hnot⟩ := bindingOf_of_declared hn .local
    rw [← hbinding] at hnot
    exact hnot hlocal
  · unfold SymbolTable.findOrNew
    rw [hfind]
    cases hlabel : labelOf m n with
    | none => simp [hn]
    | some s =>
      have hdefined := (defined_of_mem_labelSymbols (labelOf_eq_some hlabel).1).1
      simp [hdefined]

/-- **A module that is assembled has no error.** -/
theorem assembles_of_assemble (hzero : m.ZeroFilled) {o : ObjectFile}
    {after : Diag.DiagnosticEngine} (h : assemble memory m diagnostics = .ok (o, after)) :
    Assembles memory m := by
  have hassembled := assembled_of_assemble h
  unfold assemble at h
  obtain ⟨c, hemit, h⟩ := Checked.bind_eq_ok.mp h
  split_ifs at h with hfailed
  have hok : c.failed = false := by simpa using hfailed
  have hfits := fits_of_emit hemit
  have hsize : ∀ source ∈ orderedSections m, endOf source.items < 2 ^ 64 := fun source hsource =>
    ((hfits source hsource).trans capacity_le).trans_lt (by decide)
  have hemit' : (orderedSections m).zipIdx.foldlM (emitSection memory)
      (beforeEmit m diagnostics) = .ok c := hemit
  obtain ⟨hbefore, hitems⟩ :=
    (failed_emitSections_iff (sized_beforeEmit hsize) hzero (fun _ he => he) hemit').1.mp hok
  refine ⟨hfits, hassembled.encodable, hassembled.labels, hassembled.externs, ?_⟩
  intro source hsource item hitem n hn
  obtain ⟨k, hk⟩ := List.mem_iff_getElem?.mp hsource
  exact (ready_beforeEmit hsize hbefore n).mp
    ((hitems (source, k) (List.mem_zipIdx_iff_getElem?.mpr hk) item hitem).2 n hn)

/-- **A module without an error is assembled.** -/
theorem exists_of_assembles (hzero : m.ZeroFilled) (h : Assembles memory m)
    (diagnostics : Diag.DiagnosticEngine) :
    ∃ o after, assemble memory m diagnostics = .ok (o, after) := by
  have hsize : ∀ source ∈ orderedSections m, endOf source.items < 2 ^ 64 := fun source hsource =>
    ((h.fits source hsource).trans capacity_le).trans_lt (by decide)
  have hstart : (AssemblyContext.collectSections { diagnostics } m).object.sections =
      [] ++ ((orderedSections m).zipIdx).map fun entry => objectSection entry.2 entry.1 :=
    List.mapIdx_eq_zipIdx_map
  have hlayout : ((AssemblyContext.collectSections { diagnostics } m).layoutAndDefineSymbols
      m).failed = false :=
    @ok_layoutSections (orderedSections m) _ [] hstart hsize (fun s hs => by cases hs) rfl h.labels
  obtain ⟨labels, hlabels, hobject⟩ := layoutAndDefineSymbols_spec hsize hlayout
  have hbefore : (beforeEmit m diagnostics).failed = false := by
    refine ok_applyBindings hlayout fun n hn => ?_
    have hfind : labels.find n = labelOf m n := by
      unfold SymbolTable.find labelOf
      rw [hlabels]
    rw [hobject]
    unfold SymbolTable.findOrNew
    dsimp only
    rw [hfind, h.externs n hn]
    rfl
  obtain ⟨c, hemit, -⟩ := exists_emitSections hzero h.fits (fun _ he => he)
    (@sized_beforeEmit m diagnostics hsize)
  have hok : c.failed = false := by
    refine (failed_emitSections_iff (sized_beforeEmit hsize) hzero (fun _ he => he) hemit).1.mpr
      ⟨hbefore, fun entry hentry item hitem => ?_⟩
    have hsource := List.mem_of_getElem? (List.mem_zipIdx_iff_getElem?.mp hentry)
    exact ⟨h.encodable _ hsource item hitem, fun n hn =>
      (ready_beforeEmit hsize hbefore n).mpr (h.locals _ hsource item hitem n hn)⟩
  refine ⟨c.object, c.diagnostics, ?_⟩
  have hemit' : (beforeEmit m diagnostics).emit memory m = .ok c := hemit
  unfold assemble
  dsimp only
  unfold beforeEmit at hemit'
  rw [hemit', Checked.ok_bind, hok]
  rfl

end

end Assembler
end MiniTool
