import MiniToolchain.Assembler.Reordered
import MiniToolchain.Linker.Owner
import MiniToolchain.Optimizer.Jumps

/-!
# What the optimizer and the linker take a name to be

The optimizer sees one file and takes a name to be the label of the file, if the file has one.  The
linker sees all files.  The two agree unless the file declares the name weak and another file takes
its place; then the optimizer deletes jumps that would have gone to the other file.

## Main definitions

* `ItemAt` — where a link puts an item of a file.
* `KeepsOwn` — no other file takes the place of a weak definition.
* `SameJump` — a jump goes to one item, whether the files are optimised or not.

## Main results

* `names_agree` — what the optimizer relies on, and where jumps go before and after it.
* `overridden_jump` — a jump to a weak name is deleted although another file overrides the name.
-/

namespace MiniTool
namespace Assembler

open Object Linker Bounds AssemblyContext

/-! ### Files, optimised or not, and where a link puts their items -/

/-- The object is what the assembler makes of the module. -/
def AssemblesTo (m : Ir.Module) (o : ObjectFile) : Prop :=
  ∃ memory diagnostics diagnostics', assemble memory m diagnostics = .ok (o, diagnostics')

/-- The module is the source, optimised or not. -/
def Variant (source m : Ir.Module) : Prop :=
  ∃ oob level, m = (Optimizer.run oob level source).1

/-- All files optimised. -/
def optimise (oobs : ℕ → ℕ → Bool) (sources : List Ir.Module) : List Ir.Module :=
  sources.mapIdx fun i m => (Optimizer.run (oobs i) .O1 m).1

/-- A link puts the item at position `p` of a section of the file `i` at this address. -/
def ItemAt (options : LinkOptions) (objects : List ObjectFile) (i : ℕ) (m : Ir.Module)
    (kind : Ir.SectionKind) (p : ℕ) (address : UInt64) : Prop :=
  ∃ k source base q, (orderedSections m)[k]? = some source ∧ source.kind = kind ∧
    sectionAddress options objects i k = some base ∧ (placed source.items)[p]? = some q ∧
    address = base + UInt64.ofNat q.1

/-- The image has a `JMP` at `place` that goes to `target`. -/
def JumpsTo (executable : Executable) (place target : UInt64) : Prop :=
  ∃ field machine, executable.bytesAt place 8 = some field ∧ Isa.decodeFrom field = .ok machine ∧
    machine.opcode = .JMP ∧ Isa.branchTarget place machine.imm = target

/-- The file has a label of this name there. -/
def LabelAt (m : Ir.Module) (kind : Ir.SectionKind) (p : ℕ) (name : Str) : Prop :=
  ∃ source l, m.findSection kind = some source ∧ source.items[p]? = some (.label l) ∧ l.name = name

/-- Where an item, or the first survivor after it, is after the optimizer. -/
def positionAfter (oob : ℕ → Bool) (m : Ir.Module) (kind : Ir.SectionKind) (p : ℕ) : ℕ :=
  if kind = .text then Optimizer.newPosition (Optimizer.survivors oob m) p else p

/-- No other file takes the place of a definition that the file `i` declares weak: none has a global
one, and none before it a weak one. -/
def KeepsOwn (modules : List Ir.Module) (i : ℕ) (name : Str) : Prop :=
  ∀ m, modules[i]? = some m → name ∈ m.weaks →
    ∀ j other s, modules[j]? = some other → symbolOf other name = some s →
      Offered s = true → j ≠ i → s.binding = .weak ∧ i < j

/-- The optimizer takes the name to be a label of the file. -/
def ReliesOn (oob : ℕ → Bool) (m : Ir.Module) (name : Str) : Prop :=
  Optimizer.ReliesOn oob (Optimizer.textItems m) { instructionsBefore := m.instructionCount } name

/-- Two links of what the assembler makes of some files: before and after the optimizer. -/
structure TwoLinks where
  sources : List Ir.Module
  oobs : ℕ → ℕ → Bool
  options : LinkOptions
  objects : List ObjectFile
  optimised : List ObjectFile
  before : Executable
  after : Executable
  frontEnd : ∀ m ∈ sources, Ir.FrontEnd m
  assemble_sources : List.Forall₂ AssemblesTo sources objects
  assemble_optimised : List.Forall₂ AssemblesTo (optimise oobs sources) optimised
  link_sources : link objects options = .ok before
  link_optimised : link optimised options = .ok after

/-- The jump at position `q` of the file `i` is in both images, and goes to the same item in
both. -/
def TwoLinks.SameJump (t : TwoLinks) (i : ℕ) (m : Ir.Module) (q : ℕ) (name : Str) : Prop :=
  ∃ place target place' target',
    ItemAt t.options t.objects i m .text q place ∧ JumpsTo t.before place target ∧
    ItemAt t.options t.optimised i (Optimizer.run (t.oobs i) .O1 m).1 .text
      (positionAfter (t.oobs i) m .text q) place' ∧ JumpsTo t.after place' target' ∧
    match ownerOf (t.sources.map symbolOf) i name with
    | none => target = 0 ∧ target' = 0
    | some j => ∃ other kind p, t.sources[j]? = some other ∧ LabelAt other kind p name ∧
        ItemAt t.options t.objects j other kind p target ∧
        ItemAt t.options t.optimised j (Optimizer.run (t.oobs j) .O1 other).1 kind
          (positionAfter (t.oobs j) other kind p) target'

/-! ### Labels -/

theorem findSection_of_ordered {m : Ir.Module} {source : Ir.Section}
    (h : source ∈ orderedSections m) : m.findSection source.kind = some source := by
  obtain ⟨kind, -, hkind⟩ := List.mem_filterMap.mp h
  have hfind := Option.eq_some_of_filter_eq_some hkind
  have hsame : source.kind = kind := by simpa using List.find?_some hfind
  rw [hsame]
  exact hfind

theorem exists_placed {items : List Ir.Item} {p : ℕ} {item : Ir.Item} (h : items[p]? = some item) :
    ∃ offset, (placed items)[p]? = some (offset, item) := by
  have hsnd : (placed items).map Prod.snd = items := Emission.map_snd_placed 0 items
  have hget : ((placed items).map Prod.snd)[p]? = some item := (congrArg (·[p]?) hsnd).trans h
  rw [List.getElem?_map] at hget
  obtain ⟨q, hq, rfl⟩ := Option.map_eq_some_iff.mp hget
  exact ⟨q.1, hq⟩

theorem getElem?_of_placed {items : List Ir.Item} {p : ℕ} {q : ℕ × Ir.Item}
    (h : (placed items)[p]? = some q) : items[p]? = some q.2 := by
  have hsnd : (placed items).map Prod.snd = items := Emission.map_snd_placed 0 items
  calc items[p]? = ((placed items).map Prod.snd)[p]? := congrArg (·[p]?) hsnd.symm
    _ = some q.2 := by rw [List.getElem?_map, h, Option.map_some]

/-- Where the symbol of a label comes from. -/
theorem exists_label {m : Ir.Module} {name : Str} {s : Symbol} (h : labelOf m name = some s) :
    ∃ (k : ℕ) (source : Ir.Section) (p : ℕ) (q : ℕ × Ir.Item) (l : Ir.Label),
      (orderedSections m)[k]? = some source ∧ (placed source.items)[p]? = some q ∧ q.2 = .label l ∧
      l.name = name ∧ s.sectionId = UInt32.ofNat k ∧ s.value = UInt64.ofNat q.1 := by
  obtain ⟨hmem, hname⟩ := labelOf_eq_some h
  obtain ⟨entry, hentry, hs⟩ := List.mem_flatMap.mp hmem
  obtain ⟨q, hq, hsymbol⟩ := List.mem_filterMap.mp hs
  obtain ⟨p, hp⟩ := List.mem_iff_getElem?.mp hq
  have hget := List.mem_zipIdx_iff_getElem?.mp hentry
  unfold labelSymbol at hsymbol
  split at hsymbol
  · next l hl =>
    cases hsymbol
    exact ⟨entry.2, entry.1, p, q, l, hget, hp, hl, hname, rfl, rfl⟩
  · cases hsymbol

/-- The symbol of a label. -/
theorem mem_labelSymbols {m : Ir.Module} {k : ℕ} {source : Ir.Section}
    (hk : (orderedSections m)[k]? = some source) {p : ℕ} {q : ℕ × Ir.Item}
    (hp : (placed source.items)[p]? = some q) {l : Ir.Label} (hl : q.2 = .label l) :
    ∃ s ∈ labelSymbols m, s.name = l.name ∧ s.sectionId = UInt32.ofNat k ∧
      s.value = UInt64.ofNat q.1 := by
  have hsymbol : ∃ s, labelSymbol source.kind k q.1 q.2 = some s ∧ s.name = l.name ∧
      s.sectionId = UInt32.ofNat k ∧ s.value = UInt64.ofNat q.1 := by
    rw [hl]
    exact ⟨_, rfl, rfl, rfl, rfl⟩
  obtain ⟨s, hs, hrest⟩ := hsymbol
  have hentry : (source, k) ∈ (orderedSections m).zipIdx := List.mem_zipIdx_iff_getElem?.mpr hk
  have hin : s ∈ sectionLabels (source, k) :=
    List.mem_filterMap.mpr ⟨q, List.mem_of_getElem? hp, hs⟩
  exact ⟨s, List.mem_flatMap.mpr ⟨(source, k), hentry, hin⟩, hrest⟩

theorem labelOf_of_placed {m : Ir.Module} (hlabels : ((labelSymbols m).map Symbol.name).Nodup)
    {k : ℕ} {source : Ir.Section} (hk : (orderedSections m)[k]? = some source) {p : ℕ}
    {q : ℕ × Ir.Item} (hp : (placed source.items)[p]? = some q) {l : Ir.Label}
    (hl : q.2 = .label l) :
    ∃ s, labelOf m l.name = some s ∧ s.sectionId = UInt32.ofNat k ∧ s.value = UInt64.ofNat q.1 := by
  obtain ⟨s, hmem, hname, hsection, hvalue⟩ := mem_labelSymbols hk hp hl
  refine ⟨s, ?_, hsection, hvalue⟩
  rw [← hname]
  exact SymbolTable.find_of_mem (t := ⟨labelSymbols m, hlabels⟩) hmem

/-- The address of a symbol is that of the item it stands at. -/
theorem itemAt_of_symbolAddress {options : LinkOptions} {objects : List ObjectFile} {i k p : ℕ}
    {m : Ir.Module} {source : Ir.Section} {q : ℕ × Ir.Item} {s : Symbol} {address : UInt64}
    (hk : (orderedSections m)[k]? = some source) (hp : (placed source.items)[p]? = some q)
    (hsection : s.sectionId = UInt32.ofNat k) (hvalue : s.value = UInt64.ofNat q.1)
    (h : symbolAddress options objects (i, s) = some address) :
    ItemAt options objects i m source.kind p address := by
  unfold symbolAddress at h
  obtain ⟨base, hbase, rfl⟩ := Option.map_eq_some_iff.mp h
  have hentry : (source, k) ∈ (orderedSections m).zipIdx := List.mem_zipIdx_iff_getElem?.mpr hk
  have hindex : s.sectionId.toNat = k := by
    rw [hsection]
    exact toNat_index hentry
  dsimp only at hbase
  rw [hindex] at hbase
  exact ⟨k, source, base, q, hk, rfl, hbase, hp, by rw [hvalue]⟩

/-! ### What the optimizer keeps of a file -/

theorem produced_of_variant {source m : Ir.Module} (hfront : Ir.FrontEnd source)
    (h : Variant source m) :
    Produced m := by
  obtain ⟨oob, level, rfl⟩ := h
  exact ⟨source, oob, level, hfront, rfl⟩

/-- The names a file defines. -/
theorem exists_labelOf {m : Ir.Module} (hm : Produced m) {name : Str} :
    (∃ s, labelOf m name = some s) ↔
      ∃ l, .label l ∈ m.sections.flatMap Ir.Section.items ∧ l.name = name := by
  constructor
  · rintro ⟨s, hs⟩
    obtain ⟨k, source, p, q, l, hk, hp, hl, hname, -, -⟩ := exists_label hs
    refine ⟨l, List.mem_flatMap.mpr ⟨source, ?_, ?_⟩, hname⟩
    · exact mem_of_mem_orderedSections (List.mem_of_getElem? hk)
    · rw [← hl]
      exact List.mem_of_getElem? (getElem?_of_placed hp)
  · rintro ⟨l, hmem, rfl⟩
    obtain ⟨source, hsource, hl⟩ := List.mem_flatMap.mp hmem
    obtain ⟨k, hk⟩ := List.mem_iff_getElem?.mp
      (mem_orderedSections hm.wellFormed hsource (List.ne_nil_of_mem hl))
    obtain ⟨p, hp⟩ := List.mem_iff_getElem?.mp hl
    obtain ⟨offset, hplaced⟩ := exists_placed hp
    obtain ⟨s, hmem, hname, -, -⟩ := mem_labelSymbols hk hplaced rfl
    exact Option.isSome_iff_exists.mp (List.find?_isSome.mpr ⟨s, hmem, by simpa using hname⟩)

theorem exists_labelOf_of_text {m : Ir.Module} (hm : Produced m) {l : Ir.Label}
    (hl : .label l ∈ Optimizer.textItems m) : ∃ s, labelOf m l.name = some s := by
  refine (exists_labelOf hm).mpr ⟨l, ?_, rfl⟩
  unfold Optimizer.textItems at hl
  split at hl
  · next source hsource =>
    exact List.mem_flatMap.mpr ⟨source, List.mem_of_find?_eq_some hsource, hl⟩
  · exact absurd hl List.not_mem_nil

/-- The optimizer keeps the names that a file defines. -/
theorem labelOf_of_variant {source m : Ir.Module} (hfront : Ir.FrontEnd source)
    (h : Variant source m) (name : Str) :
    (∃ s, labelOf source name = some s) ↔ ∃ s, labelOf m name = some s := by
  have hsource : Produced source := ⟨source, fun _ => false, .O0, hfront, rfl⟩
  rw [exists_labelOf hsource, exists_labelOf (produced_of_variant hfront h)]
  obtain ⟨oob, level, rfl⟩ := h
  have hothers : ∀ {xs ys : List Ir.Section}, List.Forall₂ Optimizer.SectionKept xs ys →
      (ys.flatMap Ir.Section.items).filter (fun item => !item.isInstruction) =
        (xs.flatMap Ir.Section.items).filter fun item => !item.isInstruction := by
    intro xs ys hall
    induction hall with
    | nil => rfl
    | cons hone _ ih =>
      rw [List.flatMap_cons, List.flatMap_cons, List.filter_append, List.filter_append, ih,
        hone.filter_other]
  have hsame := hothers (Optimizer.run_accounted oob level source).2.2.2.1
  have hlabel : ∀ {items : List Ir.Item} {l : Ir.Label}, .label l ∈ items ↔
      .label l ∈ items.filter fun item => !item.isInstruction := by
    intro items l
    rw [List.mem_filter]
    exact ⟨fun h => ⟨h, rfl⟩, And.left⟩
  have hiff : ∀ l, (.label l ∈ source.sections.flatMap Ir.Section.items ↔
      .label l ∈ (Optimizer.run oob level source).1.sections.flatMap Ir.Section.items) := by
    intro l
    rw [hlabel, ← hsame, ← hlabel]
  simp only [hiff]

theorem bindingOf_of_variant {source m : Ir.Module} (h : Variant source m) (name : Str)
    (otherwise : SymbolBinding) : bindingOf m name otherwise = bindingOf source name otherwise := by
  obtain ⟨oob, level, rfl⟩ := h
  obtain ⟨hglobals, hexterns, hweaks, -⟩ := Optimizer.run_accounted oob level source
  unfold bindingOf
  rw [hglobals, hexterns, hweaks]

/-- How a file defines a name. -/
theorem standing_symbolOf (m : Ir.Module) (name : Str) :
    ((symbolOf m name).filter Symbol.defined).map Symbol.binding =
      (labelOf m name).map fun _ => bindingOf m name .local := by
  unfold symbolOf
  cases hlabel : labelOf m name with
  | some s =>
    have hdefined := (defined_of_mem_labelSymbols (labelOf_eq_some hlabel).1).1
    have hkept : (withBinding (bindingOf m name .local) s).defined = true := hdefined
    dsimp only
    rw [Option.filter_some, hkept, if_pos rfl]
    rfl
  | none =>
    dsimp only
    split_ifs
    · rfl
    · rfl

section

variable {sources variants : List Ir.Module} {objects : List ObjectFile} {options : LinkOptions}
  {executable : Executable} {i : ℕ} {m : Ir.Module} {name : Str}

theorem standings_of_variants (hfront : ∀ m ∈ sources, Ir.FrontEnd m)
    (h : List.Forall₂ Variant sources variants) (name : Str) :
    standings (sources.map symbolOf) name = standings (variants.map symbolOf) name := by
  unfold standings
  rw [List.map_map, List.map_map]
  induction h with
  | nil => rfl
  | @cons source m _ _ hone _ ih =>
    have hiff := labelOf_of_variant (hfront source List.mem_cons_self) hone name
    have hsame : (labelOf source name).map (fun _ => bindingOf source name .local) =
        (labelOf m name).map fun _ => bindingOf m name .local := by
      rw [bindingOf_of_variant hone]
      cases hsource : labelOf source name with
      | some s =>
        obtain ⟨t, ht⟩ := hiff.mp ⟨s, hsource⟩
        rw [ht]
        rfl
      | none =>
        cases hm : labelOf m name with
        | none => rfl
        | some t =>
          obtain ⟨s, hs⟩ := hiff.mpr ⟨t, hm⟩
          rw [hsource] at hs
          cases hs
    rw [List.map_cons, List.map_cons, ih fun m hm => hfront m (List.mem_cons_of_mem _ hm)]
    refine congrArg (· :: _) ?_
    show ((symbolOf source name).filter Symbol.defined).map Symbol.binding =
      ((symbolOf m name).filter Symbol.defined).map Symbol.binding
    rw [standing_symbolOf, standing_symbolOf, hsame]

/-- **A name that a file defines stands for that definition**, unless another file takes its
place. -/
theorem ownerOf_of_label (hfront : ∀ m ∈ sources, Ir.FrontEnd m)
    (hvariants : List.Forall₂ Variant sources variants)
    (hassemble : List.Forall₂ AssemblesTo variants objects)
    (hlink : link objects options = .ok executable) (hm : sources[i]? = some m)
    (hlabel : ∃ s, labelOf m name = some s) (hkeeps : KeepsOwn sources i name) :
    ownerOf (variants.map symbolOf) i name = some i := by
  have hassembled := assembled_of_assembles hassemble
  have hstandings := standings_of_variants hfront hvariants name
  have hplain : PlainBindings objects := by
    intro o ho
    obtain ⟨m, -, h⟩ := exists_module hassembled ho
    exact h.plain
  obtain ⟨-, start, symbols, layout, -, hresolve, -, -⟩ := link_cases hlink
  have hno := noConflicts_of_resolveSymbols hplain hresolve
  obtain ⟨label, hlabelOf⟩ := hlabel
  have hdefined := (defined_of_mem_labelSymbols (labelOf_eq_some hlabelOf).1).1
  have hsymbol : symbolOf m name = some (withBinding (bindingOf m name .local) label) := by
    unfold symbolOf
    rw [hlabelOf]
  have hfind : ((sources.map symbolOf)[i]?.bind fun find => find name) =
      some (withBinding (bindingOf m name .local) label) := by
    rw [List.getElem?_map, hm, Option.map_some, Option.bind_some, hsymbol]
  -- a name with a label is not declared external
  have hexternal : name ∉ m.externs := by
    intro hmem
    obtain ⟨hi, rfl⟩ := List.getElem?_eq_some_iff.mp hm
    have hlength := hvariants.length_eq
    have hlength' := hassembled.length_eq
    have hvariant : Variant sources[i] variants[i] := hvariants.get hi (by omega)
    have hone : Assembled variants[i] objects[i] := hassembled.get (by omega) (by omega)
    obtain ⟨s, hs⟩ := (labelOf_of_variant (hfront _ (List.getElem_mem hi)) hvariant name).mp
      ⟨label, hlabelOf⟩
    have hexterns : variants[i].externs = sources[i].externs := by
      obtain ⟨oob, level, heq⟩ := hvariant
      rw [heq]
      exact (Optimizer.run_accounted oob level _).2.1
    rw [hone.externs name (hexterns ▸ hmem)] at hs
    cases hs
  rw [← ownerOf_congr hstandings]
  refine ownerOf_own hfind hdefined ?_ ?_ ?_
  · show bindingOf m name .local = .local ∨ _
    unfold bindingOf
    rw [if_neg hexternal]
    split_ifs
    · exact Or.inr (Or.inr rfl)
    · exact Or.inr (Or.inl rfl)
    · exact Or.inl rfl
  · intro hglobal j t ht hoffered htGlobal
    have htDefined := ((Bool.and_eq_true _ _).mp hoffered).1
    obtain ⟨s', hs', hsDefined', hsBinding'⟩ := exists_standing hstandings hfind hdefined
    obtain ⟨t', ht', htDefined', htBinding'⟩ := exists_standing hstandings ht htDefined
    rw [← map_find_of_assembled hassembled] at hs' ht'
    have hsGlobal' : s'.binding = .global := hsBinding'.trans hglobal
    have htGlobal' : t'.binding = .global := htBinding'.trans htGlobal
    refine eq_of_noConflicts hno hs' ht' ?_ ?_ hsGlobal' htGlobal'
    · simp [Offered, hsDefined', hsGlobal']
    · simp [Offered, htDefined', htGlobal']
  · intro hweak j t ht hoffered hother
    have hweaks : name ∈ m.weaks := by
      by_contra hnot
      have hbinding : bindingOf m name .local = .weak := hweak
      unfold bindingOf at hbinding
      rw [if_neg hexternal, if_neg hnot] at hbinding
      split_ifs at hbinding
    rw [List.getElem?_map] at ht
    obtain ⟨find, hfind', hname⟩ := Option.bind_eq_some_iff.mp ht
    obtain ⟨other, hotherModule, rfl⟩ := Option.map_eq_some_iff.mp hfind'
    exact hkeeps m hm hweaks j other t hotherModule hname hoffered hother

/-! ### Jumps -/

/-- A jump of a file is in the image, and goes to the address of its name. -/
theorem exists_jump (hproduced : ∀ m ∈ variants, Produced m)
    (hassemble : List.Forall₂ AssemblesTo variants objects)
    (hlink : link objects options = .ok executable) (hm : variants[i]? = some m) {q : ℕ}
    {instruction : Ir.Instruction}
    (hitem : (Optimizer.textItems m)[q]? = some (.instruction instruction))
    (hjump : instruction.machine.opcode = .JMP) {reference : Ir.SymbolRef}
    (hsymbol : instruction.symbol = some reference) (haddend : reference.addend = 0) :
    ∃ place target, ItemAt options objects i m .text q place ∧ JumpsTo executable place target ∧
      finalAddress options objects (variants.map symbolOf) i reference.name = some target := by
  unfold Optimizer.textItems at hitem
  cases hsection : m.findSection .text with
  | none =>
    rw [hsection] at hitem
    cases hitem
  | some source =>
    rw [hsection] at hitem
    dsimp only at hitem
    have hsource : source ∈ m.sections := List.mem_of_find?_eq_some hsection
    have hkind : source.kind = .text := by simpa using List.find?_some hsection
    obtain ⟨offset, hplaced⟩ := exists_placed hitem
    obtain ⟨k, base, hk, hbase, field, machine, hfield, hdecode, hopcode, -, -, himm⟩ :=
      linked_image hproduced hassemble hlink hm hsource (by rw [hkind]; nofun)
        (List.mem_of_getElem? hplaced)
    have hformat : Isa.formatOf instruction.machine.opcode = some .jump := by
      rw [hjump]
      rfl
    rw [hsymbol] at himm
    obtain ⟨address, haddress, htarget⟩ := himm
    rw [if_pos hformat, haddend] at htarget
    refine ⟨base + UInt64.ofNat offset, address,
      ⟨k, source, base, _, hk, hkind, hbase, hplaced, rfl⟩,
      ⟨field, machine, hfield, hdecode, hopcode.trans hjump, ?_⟩, haddress⟩
    rw [htarget]
    exact UInt64.add_zero address

/-- The address of a name with an owner is that of its label there. -/
theorem exists_label_of_owner {j : ℕ} (howner : ownerOf (variants.map symbolOf) i name = some j)
    {target : UInt64}
    (htarget : finalAddress options objects (variants.map symbolOf) i name = some target) :
    ∃ m s, variants[j]? = some m ∧ labelOf m name = some s ∧
      symbolAddress options objects (j, s) = some target := by
  have haddress := finalAddress_of_ownerOf (variants.map symbolOf) i name options objects
  rw [howner] at haddress
  obtain ⟨s, hs, hdefined, hsame⟩ := haddress
  rw [htarget] at hsame
  rw [List.getElem?_map] at hs
  obtain ⟨find, hfind, hname⟩ := Option.bind_eq_some_iff.mp hs
  obtain ⟨m, hm, rfl⟩ := Option.map_eq_some_iff.mp hfind
  unfold symbolOf at hname
  cases hlabel : labelOf m name with
  | none =>
    rw [hlabel] at hname
    dsimp only at hname
    split_ifs at hname
    cases hname
    cases hdefined
  | some label =>
    rw [hlabel] at hname
    cases hname
    exact ⟨m, label, hm, hlabel, hsame.symm⟩

/-- A label is where the optimizer has moved it. -/
theorem labelAt_run {kind : Ir.SectionKind} {p : ℕ} (oob : ℕ → Bool) (h : LabelAt m kind p name) :
    LabelAt (Optimizer.run oob .O1 m).1 kind (positionAfter oob m kind p) name := by
  obtain ⟨source, l, hfind, hp, hname⟩ := h
  have hrun := Optimizer.findSection_run oob m kind
  rw [hfind, Option.map_some] at hrun
  unfold positionAfter
  by_cases hkind : kind = .text
  · subst hkind
    rw [if_pos rfl] at hrun ⊢
    have htext : Optimizer.textItems m = source.items := by
      unfold Optimizer.textItems
      rw [hfind]
    obtain ⟨slot, hslot, hfollow⟩ :=
      Optimizer.exists_related (Optimizer.survivors_follows oob m) (k := p) (by
      rw [List.getElem?_map, htext, hp, Option.map_some])
    have hsame : slot = Optimizer.fresh (.label l) := hfollow.other rfl
    refine ⟨_, l, hrun, ?_, hname⟩
    exact (Optimizer.getElem?_kept hslot (by rw [hsame]; rfl)).trans (by rw [hsame]; rfl)
  · rw [if_neg hkind] at hrun ⊢
    exact ⟨source, l, hrun, hp, hname⟩

/-- The address of a label. -/
theorem itemAt_of_labelAt (hm : Produced m) {o : ObjectFile} (hassembled : Assembled m o)
    {kind : Ir.SectionKind} {p : ℕ} (hlabel : LabelAt m kind p name) {s : Symbol}
    (hs : labelOf m name = some s) {address : UInt64}
    (haddress : symbolAddress options objects (i, s) = some address) :
    ItemAt options objects i m kind p address := by
  obtain ⟨source, l, hfind, hp, rfl⟩ := hlabel
  have hsource : source ∈ m.sections := List.mem_of_find?_eq_some hfind
  have hkind : source.kind = kind := by simpa using List.find?_some hfind
  have hitems : source.items ≠ [] := by
    intro hnil
    rw [hnil] at hp
    cases hp
  obtain ⟨k, hk⟩ := List.mem_iff_getElem?.mp (mem_orderedSections hm.wellFormed hsource hitems)
  obtain ⟨offset, hplaced⟩ := exists_placed hp
  obtain ⟨t, ht, hsection, hvalue⟩ := labelOf_of_placed hassembled.labels hk hplaced rfl
  rw [hs] at ht
  cases ht
  rw [← hkind]
  exact itemAt_of_symbolAddress hk hplaced hsection hvalue haddress

end

/-! ### Two links -/

namespace TwoLinks

variable {t : TwoLinks} {i : ℕ} {m : Ir.Module} {q : ℕ} {instruction : Ir.Instruction}
  {reference : Ir.SymbolRef}

theorem getElem?_optimise (hm : t.sources[i]? = some m) :
    (optimise t.oobs t.sources)[i]? = some (Optimizer.run (t.oobs i) .O1 m).1 := by
  unfold optimise
  rw [List.getElem?_mapIdx, hm, Option.map_some]

theorem variants (t : TwoLinks) : List.Forall₂ Variant t.sources (optimise t.oobs t.sources) := by
  unfold optimise
  rw [List.forall₂_iff_get]
  refine ⟨by rw [List.length_mapIdx], ?_⟩
  intro k hk hk'
  exact ⟨t.oobs k, .O1, by simp⟩

theorem same (t : TwoLinks) : List.Forall₂ Variant t.sources t.sources :=
  List.forall₂_same.mpr fun _ _ => ⟨fun _ => false, .O0, rfl⟩

theorem produced_sources (t : TwoLinks) : ∀ m ∈ t.sources, Produced m :=
  fun m hm => ⟨m, fun _ => false, .O0, t.frontEnd m hm, rfl⟩

theorem produced_optimised (t : TwoLinks) : ∀ m ∈ optimise t.oobs t.sources, Produced m := by
  intro m hm
  obtain ⟨k, hk, rfl⟩ := List.mem_iff_getElem.mp hm
  have hlength := t.variants.length_eq
  exact produced_of_variant (t.frontEnd _ (List.getElem_mem (by omega)))
    (t.variants.get (by omega) hk)

/-- The jump is kept. -/
theorem getElem?_survivors (t : TwoLinks) (hm : t.sources[i]? = some m)
    (hitem : (Optimizer.textItems m)[q]? = some (.instruction instruction))
    (hjump : instruction.machine.opcode = .JMP) (hsymbol : instruction.symbol = some reference)
    (hreached : ¬Optimizer.Unreached (Optimizer.textItems m) q)
    (hkeeps : Optimizer.LeadsOn (Optimizer.survivors (t.oobs i) m) q reference.name →
      KeepsOwn t.sources i reference.name)
    (htarget : ¬(ownerOf (t.sources.map symbolOf) i reference.name = some i ∧
      Optimizer.LeadsOn (Optimizer.survivors (t.oobs i) m) q reference.name)) :
    (Optimizer.survivors (t.oobs i) m)[q]? = some (Optimizer.fresh (.instruction instruction)) := by
  have hbranch : Optimizer.isBranch instruction.machine.opcode = true := by
    rw [hjump]
    rfl
  have hfollows := Optimizer.survivors_follows (t.oobs i) m
  obtain ⟨slot, hslot, hfollow⟩ := Optimizer.exists_related hfollows (k := q) (by
    rw [List.getElem?_map, hitem, Option.map_some])
  have hkept : slot.remove = false := by
    by_contra hremoved
    rcases Optimizer.cases_of_removed hitem hbranch hslot (by simpa using hremoved) with
      hunreached | ⟨reference', hsymbol', -, hleads⟩
    · exact hreached hunreached
    · rw [hsymbol] at hsymbol'
      cases hsymbol'
      -- the name is that of a label of the file, which no other file overrides
      have hkeepsOwn := hkeeps hleads
      refine htarget ⟨?_, hleads⟩
      obtain ⟨p, l, -, hp, hname, -⟩ := hleads
      have hlabel := exists_labelOf_of_text (t.produced_sources m (List.mem_of_getElem? hm))
        (Optimizer.label_of_follows hfollows (List.mem_of_getElem? hp) rfl)
      rw [hname] at hlabel
      exact ownerOf_of_label t.frontEnd t.same t.assemble_sources t.link_sources hm hlabel hkeepsOwn
  have hsame := hfollow.branch (Or.inl ⟨instruction, rfl, hbranch⟩)
  rw [hslot]
  cases slot
  dsimp only at hsame hkept
  rw [hsame, hkept]
  rfl

/-- The jump goes to the same item. -/
theorem sameJump (t : TwoLinks) (hm : t.sources[i]? = some m)
    (hitem : (Optimizer.textItems m)[q]? = some (.instruction instruction))
    (hjump : instruction.machine.opcode = .JMP) (hsymbol : instruction.symbol = some reference)
    (haddend : reference.addend = 0) (hslot : (Optimizer.survivors (t.oobs i) m)[q]? =
      some (Optimizer.fresh (.instruction instruction))) : t.SameJump i m q reference.name := by
  have hitem' : (Optimizer.textItems (Optimizer.run (t.oobs i) .O1 m).1)[positionAfter (t.oobs i) m
      .text q]? = some (.instruction instruction) := by
    rw [Optimizer.textItems_run]
    exact Optimizer.getElem?_kept hslot rfl
  obtain ⟨place, target, hplace, hjumps, htarget⟩ :=
    exists_jump t.produced_sources t.assemble_sources t.link_sources hm hitem hjump hsymbol haddend
  obtain ⟨place', target', hplace', hjumps', htarget'⟩ := exists_jump t.produced_optimised
    t.assemble_optimised t.link_optimised (t.getElem?_optimise hm) hitem' hjump hsymbol haddend
  refine ⟨place, target, place', target', hplace, hjumps, hplace', hjumps', ?_⟩
  have hsame := ownerOf_congr (standings_of_variants t.frontEnd t.variants reference.name) i
  cases howner : ownerOf (t.sources.map symbolOf) i reference.name with
  | none =>
    -- a weak name without a definition
    have hnone := finalAddress_of_ownerOf (t.sources.map symbolOf) i reference.name
      t.options t.objects
    have hnone' := finalAddress_of_ownerOf ((optimise t.oobs t.sources).map symbolOf) i
      reference.name t.options t.optimised
    rw [howner, htarget] at hnone
    rw [← hsame, howner, htarget'] at hnone'
    exact ⟨Option.some.inj hnone, Option.some.inj hnone'⟩
  | some j =>
    obtain ⟨other, s, hother, hs, haddress⟩ := exists_label_of_owner howner htarget
    obtain ⟨other', s', hother', hs', haddress'⟩ :=
      exists_label_of_owner (hsame.symm.trans howner) htarget'
    rw [t.getElem?_optimise hother] at hother'
    cases hother'
    obtain ⟨k, source, p, entry, l, hk, hp, hl, hname, hsection, hvalue⟩ := exists_label hs
    have hat : LabelAt other source.kind p reference.name := by
      refine ⟨source, l, findSection_of_ordered (List.mem_of_getElem? hk), ?_, hname⟩
      rw [← hl]
      exact getElem?_of_placed hp
    refine ⟨other, source.kind, p, hother, hat,
      itemAt_of_symbolAddress hk hp hsection hvalue haddress, ?_⟩
    -- the object of the other file, optimised
    have hget := t.getElem?_optimise hother
    obtain ⟨hj, hmodule⟩ := List.getElem?_eq_some_iff.mp hget
    have hassembled := assembled_of_assembles t.assemble_optimised
    have hlength := hassembled.length_eq
    have hone := hassembled.get hj (by omega)
    rw [List.get_eq_getElem, hmodule] at hone
    exact itemAt_of_labelAt (t.produced_optimised _ (List.mem_of_getElem? hget)) hone
      (labelAt_run (t.oobs j) hat) hs' haddress'

end TwoLinks

/-- **What the optimizer takes a name to be, and what the linker does.**  A name that the optimizer
relies on stands for the definition of the file itself whenever the files link, unless the file
declares it weak and another file takes its place.  A `JMP` to a symbol with addend 0, unless
nothing reaches it, is in the image of the optimised files when it is in that of the others, and
goes to the same item, unless it goes to a label of its own file that follows it and the optimizer
deletes all that stands in between. -/
theorem names_agree :
    (∀ (sources variants : List Ir.Module) (objects : List ObjectFile) (options : LinkOptions)
      (executable : Executable), (∀ m ∈ sources, Ir.FrontEnd m) →
      List.Forall₂ Variant sources variants → List.Forall₂ AssemblesTo variants objects →
      link objects options = .ok executable →
      ∀ i m oob name, sources[i]? = some m → ReliesOn oob m name → KeepsOwn sources i name →
        ownerOf (variants.map symbolOf) i name = some i) ∧
    ∀ (t : TwoLinks) (i : ℕ) (m : Ir.Module) (q : ℕ) (instruction : Ir.Instruction)
      (reference : Ir.SymbolRef), t.sources[i]? = some m →
      (Optimizer.textItems m)[q]? = some (.instruction instruction) →
      instruction.machine.opcode = .JMP → instruction.symbol = some reference →
      reference.addend = 0 → ¬Optimizer.Unreached (Optimizer.textItems m) q →
      (Optimizer.LeadsOn (Optimizer.survivors (t.oobs i) m) q reference.name →
        KeepsOwn t.sources i reference.name) →
      ¬(ownerOf (t.sources.map symbolOf) i reference.name = some i ∧
        Optimizer.LeadsOn (Optimizer.survivors (t.oobs i) m) q reference.name) →
      (Optimizer.survivors (t.oobs i) m)[q]? = some (Optimizer.fresh (.instruction instruction)) ∧
        t.SameJump i m q reference.name := by
  refine ⟨?_, ?_⟩
  · intro sources variants objects options executable hfront hvariants hassemble hlink
      i m oob name hm hrelies hkeeps
    obtain ⟨l, hl, rfl⟩ := Optimizer.label_of_reliesOn hrelies
    have hproduced : Produced m := ⟨m, fun _ => false, .O0, hfront m (List.mem_of_getElem? hm), rfl⟩
    exact ownerOf_of_label hfront hvariants hassemble hlink hm (exists_labelOf_of_text hproduced hl)
      hkeeps
  · intro t i m q instruction reference hm hitem hjump hsymbol haddend hreached hkeeps htarget
    have hslot := t.getElem?_survivors hm hitem hjump hsymbol hreached hkeeps htarget
    exact ⟨hslot, t.sameJump hm hitem hjump hsymbol haddend hslot⟩

def jumpTo (name : Str) : Ir.Instruction where
  machine := { opcode := .JMP }
  symbol := some { name }

theorem assemblesTo_objectOf {m : Ir.Module} (h : (assemble kMaxSize m {}).isOk = true) :
    AssemblesTo m (objectOf m) := exists_assemble h

theorem assemblesTo_map_objectOf {ms : List Ir.Module}
    (h : ∀ m ∈ ms, (assemble kMaxSize m {}).isOk = true) :
    List.Forall₂ AssemblesTo ms (ms.map objectOf) := by
  rw [List.forall₂_map_right_iff, List.forall₂_same]
  exact fun m hm => assemblesTo_objectOf (h m hm)

/-- The two files, linked as they are and without the NOP in front of the call. -/
def mainLinks : TwoLinks where
  sources := [mainModule, tableModule]
  oobs _ _ := false
  options := {}
  objects := pairObjects
  optimised := (optimise (fun _ _ => false) [mainModule, tableModule]).map objectOf
  before := imageOf pairObjects
  after := imageOf ((optimise (fun _ _ => false) [mainModule, tableModule]).map objectOf)
  frontEnd := by
    intro m hm
    rcases List.mem_cons.mp hm with rfl | hm
    · exact frontEnd_main
    · rw [List.mem_singleton.mp hm]
      exact frontEnd_table
  assemble_sources := assemblesTo_map_objectOf (by decide)
  assemble_optimised := assemblesTo_map_objectOf (by decide)
  link_sources := link_pair
  link_optimised := link_imageOf (by decide) (by decide) (by decide)
    (by decide) (by decide) (by decide) (by decide)
    (by decide) (by decide) (by decide)

/-- The jump at the end of `mainModule`. -/
def jumpBack : Ir.Instruction := { jumpTo (str "_start") with location := ⟨0, 6, 9, 3⟩ }

/-- `JMP _start` is the fifth item of `mainModule`, and the fourth of what is left of it. -/
theorem names_agree_main :
    ownerOf ([mainModule, tableModule].map symbolOf) 0 (str "_start") = some 0 ∧
      positionAfter (fun _ => false) mainModule .text 4 = 3 ∧
      mainLinks.SameJump 0 mainModule 4 (str "_start") := by
  have hrelies : ReliesOn (fun _ => false) mainModule (str "_start") := by
    refine ⟨_, List.mem_cons_self, Or.inr ?_⟩
    exact ⟨{ begin := 4, stop := 5 }, by decide, jumpBack,
      { name := str "_start" }, 0, by decide, by decide, by decide, rfl, rfl,
      by decide⟩
  have hkeeps : KeepsOwn [mainModule, tableModule] 0 (str "_start") := by
    intro m hm hweak
    cases hm
    exact absurd hweak List.not_mem_nil
  refine ⟨names_agree.1 [mainModule, tableModule] [mainModule, tableModule] pairObjects {}
    (imageOf pairObjects) mainLinks.frontEnd mainLinks.same mainLinks.assemble_sources link_pair 0
    mainModule (fun _ => false) (str "_start") rfl hrelies hkeeps, by decide, ?_⟩
  refine (names_agree.2 mainLinks 0 mainModule 4 jumpBack { name := str "_start" } rfl
    rfl rfl rfl rfl ?_ (fun _ => hkeeps) ?_).2
  · rintro ⟨t, hlt, ⟨item, hitem, instruction, rfl, hterminator⟩, -⟩
    -- a label, MOVI, NOP and CALL
    obtain rfl | rfl | rfl | rfl : t = 0 ∨ t = 1 ∨ t = 2 ∨ t = 3 := by omega
    · cases hitem
    all_goals
      cases hitem
      exact absurd hterminator (by decide)
  · -- nothing follows the jump
    rintro ⟨-, p, l, hlt, hp, -, -⟩
    have hlength : (Optimizer.survivors (mainLinks.oobs 0) mainModule).length = 5 := by
      decide
    have hp := (List.getElem?_eq_some_iff.mp hp).1
    omega

/-! ### Names that are overridden, and jumps across what is deleted -/

/-- A name that the optimizer relies on stands for the definition of the file itself. -/
def RelianceSound (sources : List Ir.Module) : Prop :=
  ∀ objects options executable, List.Forall₂ AssemblesTo sources objects →
    link objects options = .ok executable →
    ∀ i m oob name, sources[i]? = some m → ReliesOn oob m name →
      ownerOf (sources.map symbolOf) i name = some i

/-- A jump in the image of the files that does not go to what follows it, and that something may
reach, is kept by the optimizer, and the optimised files link. -/
def JumpsSurvive (sources : List Ir.Module) : Prop :=
  ∀ oobs objects optimised options executable, List.Forall₂ AssemblesTo sources objects →
    List.Forall₂ AssemblesTo (optimise oobs sources) optimised →
    link objects options = .ok executable →
    ∀ i m q instruction place target, sources[i]? = some m →
      (Optimizer.textItems m)[q]? = some (.instruction instruction) →
      instruction.machine.opcode = .JMP → ItemAt options objects i m .text q place →
      JumpsTo executable place target → target ≠ place + 8 →
      ¬Optimizer.Unreached (Optimizer.textItems m) q →
      (Optimizer.survivors (oobs i) m)[q]? = some (Optimizer.fresh (.instruction instruction)) ∧
        ∃ executable', link optimised options = .ok executable'

/-- A file of one section. -/
def textModule (items : List Ir.Item) (globals weaks : List Str) : Ir.Module where
  sections := [{ kind := .text, name := str ".text", items }]
  globals
  weaks

/-- `_start: JMP f`, then `f` as a weak name. -/
def overridden : Ir.Module :=
  textModule [.label { name := str "_start" }, .instruction (jumpTo (str "f")),
    .label { name := str "f" }, .bytes { data := [0] }] [str "_start"] [str "f"]

/-- `f` as a global name. -/
def overriding : Ir.Module :=
  textModule [.label { name := str "f" }, .bytes { data := [0] }] [str "f"] []

/-- `_start: JMP f`, a NOP, then `f`. -/
def passing : Ir.Module :=
  textModule [.label { name := str "_start" }, .instruction (jumpTo (str "f")),
    .instruction { machine := { opcode := .NOP } }, .label { name := str "f" },
    .bytes { data := [0] }]
    [str "_start"] []

/-- `f: JMP f`, then `_start` in front of nothing but a NOP. -/
def ending : Ir.Module :=
  textModule [.label { name := str "f" }, .instruction (jumpTo (str "f")),
    .label { name := str "_start" }, .instruction { machine := { opcode := .NOP } }]
      [str "_start"] []

section

/-- A directive that declares a name. -/
def declare (type : Ast.DirectiveType) (name : Str) : Ast.Statement :=
  .directive { type, operands := [{ type := .symbol, symbol := name }] }

def jumpStatement (name : Str) : Ast.Statement :=
  .instruction { mnemonic := str "JMP", operands := [{ type := .symbol, symbol := name }] }

theorem frontEnd_overridden : Ir.FrontEnd overridden := by
  refine ⟨{ statements := [declare .global (str "_start"), declare .weak (str "f"),
    .label { name := str "_start" }, jumpStatement (str "f"), .label { name := str "f" },
    .directive { type := .byte, operands := [{ immediate := 0 }] }] }, [], {}, {}, ?_, rfl⟩
  exact Sema.accepts_of_checks (by decide) (by decide)

theorem frontEnd_overriding : Ir.FrontEnd overriding := by
  refine ⟨{ statements := [declare .global (str "f"), .label { name := str "f" },
    .directive { type := .byte, operands := [{ immediate := 0 }] }] }, [], {}, {}, ?_, rfl⟩
  exact Sema.accepts_of_checks (by decide) (by decide)

theorem frontEnd_passing : Ir.FrontEnd passing := by
  refine ⟨{ statements := [declare .global (str "_start"), .label { name := str "_start" },
    jumpStatement (str "f"), .instruction { mnemonic := str "NOP" }, .label { name := str "f" },
    .directive { type := .byte, operands := [{ immediate := 0 }] }] }, [], {}, {}, ?_, rfl⟩
  exact Sema.accepts_of_checks (by decide) (by decide)

theorem frontEnd_ending : Ir.FrontEnd ending := by
  refine ⟨{ statements := [declare .global (str "_start"), .label { name := str "f" },
    jumpStatement (str "f"), .label { name := str "_start" },
    .instruction { mnemonic := str "NOP" }] }, [], {}, {}, ?_, rfl⟩
  exact Sema.accepts_of_checks (by decide) (by decide)

end

/-- A file that links alone. -/
theorem exists_link_alone {m : Ir.Module} (hfront : Ir.FrontEnd m)
    (hassemble : (assemble kMaxSize m {}).isOk = true) (hpatched : (do
      let layout ← mergeSections {} [objectOf m]
      let symbols ← resolveSymbols layout [objectOf m]
      applyRelocations symbols [objectOf m] layout).isOk = true)
    (hdefined : ∃ s ∈ (objectOf m).symbols.symbols, s.name = str "_start" ∧ Offered s = true ∧
      s.binding = .global)
    (husable : ∀ s ∈ (objectOf m).symbols.symbols, s.name = str "_start" →
      EntryUsable (objectOf m) s) :
    ∃ executable, link [objectOf m] {} = .ok executable := by
  obtain ⟨memory, diagnostics, diagnostics', hobject⟩ := assemblesTo_objectOf hassemble
  refine exists_link ?_ ⟨rfl, rfl, rfl, rfl⟩ (List.cons_ne_nil _ _) hpatched ?_ ?_
  · intro o ho
    rw [List.mem_singleton.mp ho]
    exact linkable_of_assembled ⟨m, memory, diagnostics, diagnostics',
      ⟨m, fun _ => false, .O0, hfront, rfl⟩, hobject⟩
  · obtain ⟨s, hs, hname, hoffered, hglobal⟩ := hdefined
    exact ⟨objectOf m, s, List.mem_singleton.mpr rfl, hs, hname, hoffered, fun _ _ _ _ _ => hglobal⟩
  · intro o s hcandidate
    obtain rfl := List.mem_singleton.mp hcandidate.object
    exact husable s hcandidate.symbol hcandidate.named

/-- A jump to `f` at the start of a file that is lost, or after which the files do not link. -/
theorem not_jumpsSurvive (sources : List Ir.Module) (base target : UInt64) {m : Ir.Module}
    (hfront : ∀ m ∈ sources, Ir.FrontEnd m)
    (hassemble : ∀ m ∈ sources, (assemble kMaxSize m {}).isOk = true)
    (hoptimise : ∀ m ∈ optimise (fun _ _ => false) sources, (assemble kMaxSize m {}).isOk = true)
    (hlink : ∃ executable, link (sources.map objectOf) {} = .ok executable)
    (hm : sources[0]? = some m) {l : Ir.Label}
    (hlabel : (Optimizer.textItems m)[0]? = some (.label l))
    (hitem : (Optimizer.textItems m)[1]? = some (.instruction (jumpTo (str "f"))))
    (hoffsets : (orderedSections m).map (fun s => (placed s.items)[1]?.map Prod.fst) = [some 0])
    (hbase : sectionAddress {} (sources.map objectOf) 0 0 = some base)
    (htarget : finalAddress {} (sources.map objectOf) (sources.map symbolOf) 0 (str "f") =
      some target) (hne : target ≠ base + 8)
    (hlost : (Optimizer.survivors (fun _ => false) m)[1]? ≠
        some (Optimizer.fresh (.instruction (jumpTo (str "f")))) ∨
      (link ((optimise (fun _ _ => false) sources).map objectOf) {}).isOk = false) :
    ¬JumpsSurvive sources := by
  intro hsurvive
  have hproduced : ∀ m ∈ sources, Produced m :=
    fun m hm => ⟨m, fun _ => false, .O0, hfront m hm, rfl⟩
  obtain ⟨executable, hlink⟩ := hlink
  obtain ⟨place, target', hplace, hjumps, htarget'⟩ :=
    exists_jump hproduced (assemblesTo_map_objectOf hassemble) hlink hm hitem rfl rfl rfl
  have hsame : target' = target := Option.some.inj (htarget'.symm.trans htarget)
  have hstart : place = base := by
    obtain ⟨k, source, base', q, hk, -, hbase', hq, rfl⟩ := hplace
    have hget := congrArg (·[k]?) hoffsets
    rw [List.getElem?_map, hk, Option.map_some, hq, Option.map_some] at hget
    cases k with
    | zero =>
      rw [hbase] at hbase'
      cases hbase'
      have hzero : q.1 = 0 := Option.some.inj (Option.some.inj hget)
      rw [hzero]
      exact UInt64.add_zero base
    | succ k => cases hget
  have hreached : ¬Optimizer.Unreached (Optimizer.textItems m) 1 := by
    rintro ⟨t, hlt, ⟨item, hterminator, instruction, rfl, -⟩, -⟩
    obtain rfl : t = 0 := by omega
    rw [hlabel] at hterminator
    cases hterminator
  obtain ⟨hkept, executable', hlink'⟩ := hsurvive (fun _ _ => false) _ _ {} executable
    (assemblesTo_map_objectOf hassemble) (assemblesTo_map_objectOf hoptimise) hlink 0 m 1
    (jumpTo (str "f")) place target' hm hitem rfl
    hplace hjumps (by rw [hsame, hstart]; exact hne) hreached
  rcases hlost with hlost | hlost
  · exact hlost hkept
  · rw [hlink'] at hlost
    cases hlost

/-- **A weak name that another file overrides**: the jump to it is deleted, and what the optimizer
relies on is not so.  A jump across a NOP is deleted as well, and without its last NOP a file may
not link. -/
theorem overridden_jump :
    (¬RelianceSound [overridden, overriding] ∧ ¬JumpsSurvive [overridden, overriding]) ∧
      ¬JumpsSurvive [passing] ∧ ¬JumpsSurvive [ending] := by
  have hpair : ∀ m ∈ [overridden, overriding], Ir.FrontEnd m := by
    intro m hm
    rcases List.mem_cons.mp hm with rfl | hm
    · exact frontEnd_overridden
    · rw [List.mem_singleton.mp hm]
      exact frontEnd_overriding
  have hlink : ∃ executable, link [objectOf overridden, objectOf overriding] {} =
      .ok executable := by
    have hok : (link [objectOf overridden, objectOf overriding] {}).isOk = true := by decide +kernel
    cases hlink : link [objectOf overridden, objectOf overriding] {} with
    | ok executable => exact ⟨executable, rfl⟩
    | error e =>
      rw [hlink] at hok
      cases hok
  have hassemble : ∀ m ∈ [overridden, overriding], (assemble kMaxSize m {}).isOk = true := by
    decide
  refine ⟨⟨?_, ?_⟩, ?_, ?_⟩
  · intro hsound
    obtain ⟨executable, hlink⟩ := hlink
    have hrelies : ReliesOn (fun _ => false) overridden (str "f") := by
      refine ⟨_, List.mem_cons_self, Or.inl ?_⟩
      exact ⟨1, Optimizer.fresh (.instruction (jumpTo (str "f"))),
        { Optimizer.fresh (.instruction (jumpTo (str "f"))) with remove := true }, jumpTo (str "f"),
        { name := str "f" }, by decide, rfl, rfl, rfl, by decide, rfl⟩
    have howner := hsound _ {} executable
      (.cons (assemblesTo_objectOf (hassemble overridden (by simp)))
        (.cons (assemblesTo_objectOf (hassemble overriding (by simp))) .nil)) hlink 0 overridden
      (fun _ => false) (str "f") rfl hrelies
    have hother : ownerOf ([overridden, overriding].map symbolOf) 0 (str "f") = some 1 := by
      decide
    rw [hother] at howner
    cases howner
  · exact not_jumpsSurvive _ 0x10000 0x10010 hpair hassemble (by decide) hlink
      rfl rfl rfl (by decide) (by decide) (by decide) (by decide)
      (Or.inl (by decide))
  · have hassemble : (assemble kMaxSize passing {}).isOk = true := by decide
    refine not_jumpsSurvive [passing] 0x10000 0x10010 ?_ ?_
      (by decide) ?_ rfl rfl rfl (by decide) (by decide) (by decide)
      (by decide) (Or.inl (by decide))
    · intro m hm
      rw [List.mem_singleton.mp hm]
      exact frontEnd_passing
    · intro m hm
      rw [List.mem_singleton.mp hm]
      exact hassemble
    · exact exists_link_alone frontEnd_passing hassemble (by decide) (by decide)
        (by decide)
  · have hassemble : (assemble kMaxSize ending {}).isOk = true := by decide
    refine not_jumpsSurvive [ending] 0x10000 0x10000 ?_ ?_
      (by decide) ?_ rfl rfl rfl (by decide) (by decide) (by decide)
      (by decide) (Or.inr (by decide))
    · intro m hm
      rw [List.mem_singleton.mp hm]
      exact frontEnd_ending
    · intro m hm
      rw [List.mem_singleton.mp hm]
      exact hassemble
    · exact exists_link_alone frontEnd_ending hassemble (by decide) (by decide)
        (by decide)

end Assembler
end MiniTool
