import MiniToolchain.Assembler.Pipeline
import MiniToolchain.Assembler.Spec
import MiniToolchain.Object.ObjectIo
import MiniToolchain.Optimizer.Accounting
import MiniToolchain.Optimizer.Instructions

/-!
# The objects the assembler writes

The assembler makes a well-formed object of every module whose alignments are powers of two and
whose `.bss` holds neither instructions nor symbols.  The front end only makes such modules, and the
optimizer keeps them so, since it changes nothing but instructions of `.text`.

## Main definitions

* `Assemblable` — the modules the assembler makes well-formed objects of.

## Main results

* `assemblable_of_wellFormed` — the modules that lowering makes are among them.
* `wellFormed_run` — and so are the optimised ones.
* `Assembled.wellFormed` — the object passes every check of the reader.
* `object_round_trip` — it is read back from the file it is written to.
-/

namespace MiniTool
namespace Assembler

open Object Bounds AssemblyContext

/-- A power of two. -/
def IsAlignment (alignment : UInt64) : Prop :=
  alignment ≠ 0 ∧ alignment &&& (alignment - 1) = 0

theorem exists_pow_of_isAlignment {alignment : UInt64} (h : IsAlignment alignment) :
    ∃ k ≤ 64, alignment.toNat = 2 ^ k := by
  obtain ⟨hne, hand⟩ := h
  have hpos : alignment.toNat ≠ 0 := fun hzero => hne (UInt64.toNat_inj.mp hzero)
  have hsub : (alignment - 1).toNat = alignment.toNat - 1 := by
    rw [UInt64.toNat_sub_of_le _ _ (UInt64.le_iff_toNat_le.mpr (by
      show 1 ≤ alignment.toNat
      omega))]
    rfl
  have hzero := congrArg UInt64.toNat hand
  rw [UInt64.toNat_and, hsub, UInt64.toNat_zero,
    Nat.and_sub_one_eq_zero_iff_isPowerOfTwo hpos] at hzero
  obtain ⟨k, hk⟩ := hzero
  refine ⟨k, ?_, hk⟩
  have hlt := alignment.toNat_lt
  rw [hk] at hlt
  exact ((Nat.pow_lt_pow_iff_right (by norm_num)).mp hlt).le

/-- The larger of two alignments is a multiple of the smaller. -/
theorem dvd_of_le_alignment {a b : UInt64} (ha : IsAlignment a) (hb : IsAlignment b) (hle : a ≤ b) :
    a.toNat ∣ b.toNat := by
  obtain ⟨j, -, hj⟩ := exists_pow_of_isAlignment ha
  obtain ⟨k, -, hk⟩ := exists_pow_of_isAlignment hb
  have hle := UInt64.le_iff_toNat_le.mp hle
  rw [hj, hk] at hle ⊢
  exact Nat.pow_dvd_pow 2 ((Nat.pow_le_pow_iff_right (by norm_num)).mp hle)

/-- What the assembler relies on in an item of a section. -/
def ItemAssemblable (kind : Ir.SectionKind) : Ir.Item → Prop
  | .instruction _ => kind ≠ .bss
  | .symbolValue v => kind ≠ .bss ∧ (v.width = 4 ∨ v.width = 8)
  | .align a => IsAlignment a.alignment
  | _ => True

structure Assemblable (m : Ir.Module) : Prop where
  alignments : ∀ source ∈ m.sections, IsAlignment source.alignment
  items : ∀ source ∈ m.sections, ∀ item ∈ source.items, ItemAssemblable source.kind item

/-! ### The modules of the front end -/

theorem assemblable_of_wellFormed {m : Ir.Module} (h : m.WellFormed) : Assemblable m := by
  refine ⟨?_, ?_⟩
  · intro source hsource
    rw [IsAlignment, (h.named source hsource).2]
    decide
  · intro source hsource item hitem
    have hitemWf := h.items source hsource item hitem
    cases item with
    | instruction i =>
      intro hbss
      rw [hitemWf.1] at hbss
      cases hbss
    | symbolValue v => exact hitemWf
    | align a =>
      refine ⟨?_, hitemWf.2⟩
      intro hzero
      have hpos := hitemWf.1
      rw [hzero] at hpos
      cases hpos
    | label l => trivial
    | bytes b => trivial
    | space s => trivial

/-- The optimizer keeps an item as it is or makes an instruction of an instruction. -/
theorem mem_optimizeItems {oob : ℕ → Bool} {n : ℕ} {items : List Ir.Item}
    {stats : Optimizer.OptStats} {item : Ir.Item}
    (h : item ∈ (Optimizer.optimizeItems oob n items stats).1) :
    item.isInstruction = true ∨ item ∈ items := by
  rw [← Optimizer.kept_trace] at h
  obtain ⟨slot, hslot, rfl⟩ := List.mem_map.mp h
  obtain ⟨hslot, -⟩ := List.mem_filter.mp hslot
  obtain ⟨k, hk⟩ := List.mem_iff_getElem?.mp hslot
  obtain ⟨hlt, hget⟩ := List.getElem?_eq_some_iff.mp hk
  have hfollows := Optimizer.trace_follows oob n items stats
  have hlength := hfollows.length_eq
  have hone := (List.forall₂_iff_get.mp hfollows).2 k (by omega) hlt
  by_cases hinstruction : slot.item.isInstruction = true
  · exact Or.inl hinstruction
  · -- what is not an instruction now was not one before, and those are kept as they are
    right
    have hold : (items.map Optimizer.fresh)[k].item.isInstruction = false := by
      by_contra hinst
      have hkept := hone.instruction (by simpa using hinst)
      rw [List.get_eq_getElem, hget] at hkept
      exact hinstruction hkept
    have hsame := hone.other hold
    rw [List.get_eq_getElem, List.get_eq_getElem, hget] at hsame
    rw [hsame, List.getElem_map]
    exact List.getElem_mem _

theorem mem_optimizeSections {oob : ℕ → Bool} {sections : List Ir.Section}
    {stats : Optimizer.OptStats} {source : Ir.Section}
    (h : source ∈ (Optimizer.optimizeSections oob stats sections).1) :
    ∃ old ∈ sections, source.kind = old.kind ∧ source.alignment = old.alignment ∧
      ∀ item ∈ source.items,
        (item.isInstruction = true ∧ old.kind = .text) ∨ item ∈ old.items := by
  induction sections generalizing stats with
  | nil => cases h
  | cons s sections ih =>
    unfold Optimizer.optimizeSections at h
    by_cases htext : s.kind = .text
    · rw [if_pos htext] at h
      unfold Optimizer.optimizeSection at h
      have hitems := @mem_optimizeItems oob Optimizer.kMaxIterations s.items stats
      generalize Optimizer.optimizeItems oob Optimizer.kMaxIterations s.items stats = optimized at *
      obtain ⟨items, stats'⟩ := optimized
      have hrest := @ih stats'
      dsimp only at h
      generalize Optimizer.optimizeSections oob stats' sections = others at *
      obtain ⟨others, stats''⟩ := others
      rcases List.mem_cons.mp h with rfl | h
      · refine ⟨s, List.mem_cons_self, rfl, rfl, ?_⟩
        intro item hitem
        exact (hitems hitem).imp_left fun hinst => ⟨hinst, htext⟩
      · obtain ⟨old, hold, hsame⟩ := hrest h
        exact ⟨old, List.mem_cons_of_mem _ hold, hsame⟩
    · rw [if_neg htext] at h
      have hrest := @ih stats
      generalize Optimizer.optimizeSections oob stats sections = others at *
      obtain ⟨others, stats'⟩ := others
      rcases List.mem_cons.mp h with rfl | h
      · exact ⟨source, List.mem_cons_self, rfl, rfl, fun _ hitem => Or.inr hitem⟩
      · obtain ⟨old, hold, hsame⟩ := hrest h
        exact ⟨old, List.mem_cons_of_mem _ hold, hsame⟩

theorem closed_wellFormed : Optimizer.Closed Ir.InstructionWellFormed where
  move := by
    intro i j hi _ hpush _
    obtain ⟨info, hinfo, hsymbol⟩ := hi
    refine ⟨_, rfl, fun hsymbolic => ?_⟩
    -- a `PUSH` has no symbol
    rw [hpush] at hinfo
    cases hinfo
    rcases (hsymbol hsymbolic).1 with hformat | hformat <;> cases hformat
  value := by
    intro i value _ hplain _
    refine ⟨_, rfl, fun hsymbolic => ?_⟩
    have hsame : i.isSymbolic = true := hsymbolic
    rw [hplain] at hsame
    cases hsame

/-- **The optimizer keeps the form of a module.** -/
theorem wellFormed_run {m : Ir.Module} (h : m.WellFormed) (oob : ℕ → Bool)
    (level : Optimizer.OptLevel) : (Optimizer.run oob level m).1.WellFormed := by
  have hkept := (Optimizer.run_accounted oob level m).2.2.2.1
  have hone : ∀ s' ∈ (Optimizer.run oob level m).1.sections, ∃ s ∈ m.sections,
      Optimizer.SectionKept s s' := by
    intro s' hs'
    obtain ⟨k, hk, rfl⟩ := List.mem_iff_getElem.mp hs'
    have hlength := hkept.length_eq
    exact ⟨_, List.getElem_mem (by omega), hkept.get (by omega) hk⟩
  refine ⟨?_, ?_, ?_⟩
  · have hkinds : ∀ {xs ys : List Ir.Section}, List.Forall₂ Optimizer.SectionKept xs ys →
        ys.map Ir.Section.kind = xs.map Ir.Section.kind := by
      intro xs ys hall
      induction hall with
      | nil => rfl
      | cons hone _ ih => rw [List.map_cons, List.map_cons, ih, hone.kind]
    rw [hkinds hkept]
    exact h.kinds
  · intro s' hs'
    obtain ⟨s, hs, hsame⟩ := hone s' hs'
    rw [hsame.name, hsame.kind, hsame.alignment]
    exact h.named s hs
  · intro s' hs' item hitem
    obtain ⟨s, hs, hsame⟩ := hone s' hs'
    rw [hsame.kind]
    cases hinstruction : item.isInstruction with
    | false => exact h.items s hs item ((hsame.items hinstruction).mp hitem)
    | true =>
      cases item with
      | instruction i =>
        refine ⟨?_, closed_wellFormed.instructions_run oob level
          (fun s hs i hi => (h.items s hs _ hi).2) s' hs' i hitem⟩
        -- a section that is not `.text` is as it was
        by_contra htext
        rw [hsame.other htext] at hitem
        exact htext (h.items s hs _ hitem).1
      | _ => cases hinstruction

/-! ### Sections by number -/

theorem mem_of_mem_orderedSections {m : Ir.Module} {source : Ir.Section}
    (h : source ∈ orderedSections m) : source ∈ m.sections := by
  obtain ⟨kind, -, hkind⟩ := List.mem_filterMap.mp h
  exact List.mem_of_find?_eq_some (Option.eq_some_of_filter_eq_some hkind)

theorem length_orderedSections_le (m : Ir.Module) : (orderedSections m).length ≤ 4 :=
  List.length_filterMap_le _ _

/-- Section numbers fit the fields they are stored in. -/
theorem toNat_index {m : Ir.Module} {entry : Ir.Section × ℕ}
    (h : entry ∈ (orderedSections m).zipIdx) : (UInt32.ofNat entry.2).toNat = entry.2 := by
  have hget := List.mem_zipIdx_iff_getElem?.mp h
  obtain ⟨hlt, -⟩ := List.getElem?_eq_some_iff.mp hget
  have hle := length_orderedSections_le m
  exact UInt32.toNat_ofNat_of_lt' (by rw [UInt32.size]; omega)

namespace Assembled

variable {m : Ir.Module} {o : ObjectFile}

/-- The section with a number. -/
theorem getElem?_sections (h : Assembled m o) {entry : Ir.Section × ℕ}
    (hentry : entry ∈ (orderedSections m).zipIdx) :
    o.sections[entry.2]? = some (emitted entry) := by
  have hget := List.mem_zipIdx_iff_getElem?.mp hentry
  rw [h.sections, List.getElem?_map, List.getElem?_zipIdx, hget]
  simp

theorem index_lt (h : Assembled m o) {entry : Ir.Section × ℕ}
    (hentry : entry ∈ (orderedSections m).zipIdx) :
    (UInt32.ofNat entry.2).toNat < o.sections.length := by
  rw [toNat_index hentry]
  exact (List.getElem?_eq_some_iff.mp (h.getElem?_sections hentry)).1

theorem endOf_le (h : Assembled m o) {entry : Ir.Section × ℕ}
    (hentry : entry ∈ (orderedSections m).zipIdx) : endOf entry.1.items ≤ kMaxSize :=
  h.fits entry.1 (List.mem_of_getElem? (List.mem_zipIdx_iff_getElem?.mp hentry))

/-- An item lies in its section, so its offset fits the field it is stored in. -/
theorem toNat_offset (h : Assembled m o) {entry : Ir.Section × ℕ}
    (hentry : entry ∈ (orderedSections m).zipIdx) {p : ℕ × Ir.Item}
    (hp : p ∈ placed entry.1.items) : (UInt64.ofNat p.1).toNat = p.1 := by
  have hend := h.endOf_le hentry
  have hadvance := Emission.advance_le_of_mem_placed Ir.Item.le_advance hp
  have hle := Ir.Item.le_advance p.1 p.2
  refine UInt64.toNat_ofNat_of_lt' ?_
  have hmax : kMaxSize < UInt64.size := by decide
  exact ((hle.trans hadvance).trans hend).trans_lt hmax

end Assembled

/-! ### Well-formedness -/

theorem isAlignment_maxAlignment {start : UInt64} {items : List Ir.Item} {kind : Ir.SectionKind}
    (hstart : IsAlignment start) (hitems : ∀ item ∈ items, ItemAssemblable kind item) :
    IsAlignment (maxAlignment start items) := by
  induction items generalizing start with
  | nil => exact hstart
  | cons item items ih =>
    obtain ⟨hitem, hrest⟩ := List.forall_mem_cons.mp hitems
    cases item with
    | align a =>
      refine @ih (max start a.alignment) ?_ hrest
      show IsAlignment (if start ≤ a.alignment then a.alignment else start)
      split_ifs
      · exact hitem
      · exact hstart
    | _ => exact ih hstart hrest

theorem length_image_eq (items : List Ir.Item) :
    (Emission.image Ir.Item.advance itemBytes 0 items).length = endOf items := by
  have hlength := @Emission.length_image _ _ Ir.Item.advance itemBytes 0 items
    fun p _ => length_itemBytes p.1 p.2
  rw [Nat.zero_add] at hlength
  exact hlength

theorem emitted_eq (entry : Ir.Section × ℕ) :
    emitted entry =
      { laidOut entry with
        data :=
          if entry.1.kind = .bss then []
          else Emission.image Ir.Item.advance itemBytes 0 entry.1.items } := by
  unfold emitted Ir.sectionHasData
  by_cases hbss : entry.1.kind = .bss
  · simp only [hbss, ne_eq, not_true_eq_false, decide_false, Bool.false_eq_true, if_false, if_true]
    rfl
  · simp only [hbss, ne_eq, not_false_eq_true, decide_true, if_true, if_false]

theorem size_emitted {entry : Ir.Section × ℕ} (h : endOf entry.1.items ≤ kMaxSize) :
    (emitted entry).size.toNat = endOf entry.1.items := by
  rw [emitted_eq]
  have hmax : kMaxSize < UInt64.size := by decide
  exact UInt64.toNat_ofNat_of_lt' (h.trans_lt hmax)

/-- A section that is not `.bss` holds what it describes. -/
theorem length_data_emitted {entry : Ir.Section × ℕ} (hkind : entry.1.kind ≠ .bss) :
    (emitted entry).data.length = endOf entry.1.items := by
  rw [emitted_eq]
  simp only [if_neg hkind]
  exact length_image_eq _

/-- The field of a reference is the whole item it stands in, which is not in `.bss`. -/
theorem field_of_referenceOf {kind : Ir.SectionKind} {index offset : ℕ} {item : Ir.Item}
    {reference : Reference} (hitem : ItemAssemblable kind item)
    (h : referenceOf index offset item = some reference) :
    kind ≠ .bss ∧ reference.index = index ∧ reference.offset = offset ∧
      offset + relocationWidth reference.type = item.advance offset := by
  cases item with
  | instruction i =>
    obtain ⟨symbol, -, rfl⟩ := Option.map_eq_some_iff.mp h
    refine ⟨hitem, rfl, rfl, ?_⟩
    show offset + relocationWidth (relocationForInstruction i.machine.opcode) = offset + 8
    unfold relocationForInstruction
    split
    · split_ifs
      · rfl
      · rfl
    · rfl
  | symbolValue v =>
    cases h
    obtain ⟨hkind, hwidth⟩ := hitem
    refine ⟨hkind, rfl, rfl, ?_⟩
    show offset + relocationWidth (if v.width = 4 then .abs32 else .abs64) = offset + v.width.toNat
    rcases hwidth with hwidth | hwidth
    · rw [hwidth]
      rfl
    · rw [hwidth]
      rfl
  | _ => cases h

namespace Assembled

variable {m : Ir.Module} {o : ObjectFile}

theorem aligned (h : Assembled m o) (hm : Assemblable m) :
    ∀ s ∈ o.sections, IsAlignment s.alignment := by
  intro s hs
  rw [h.sections] at hs
  obtain ⟨entry, hentry, rfl⟩ := List.mem_map.mp hs
  have hsource := mem_of_mem_orderedSections
    (List.mem_of_getElem? (List.mem_zipIdx_iff_getElem?.mp hentry))
  rw [emitted_eq]
  exact isAlignment_maxAlignment (hm.alignments _ hsource) (hm.items _ hsource)

theorem length_data_le (h : Assembled m o) : ∀ s ∈ o.sections, s.data.length ≤ s.size.toNat := by
  intro s hs
  rw [h.sections] at hs
  obtain ⟨entry, hentry, rfl⟩ := List.mem_map.mp hs
  rw [size_emitted (h.endOf_le hentry)]
  by_cases hbss : entry.1.kind = .bss
  · rw [emitted_eq]
    simp only [if_pos hbss]
    exact Nat.zero_le _
  · exact (length_data_emitted hbss).le

theorem sectionId_of_symbol (h : Assembled m o) : ∀ s ∈ o.symbols.symbols,
    s.sectionId = kUndefinedSection ∨ s.sectionId.toNat < o.sections.length := by
  intro s hs
  have hfind := h.find s.name
  rw [SymbolTable.find_of_mem hs] at hfind
  unfold symbolOf at hfind
  cases hlabel : labelOf m s.name with
  | none =>
    rw [hlabel] at hfind
    dsimp only at hfind
    split_ifs at hfind
    left
    rw [Option.some.inj hfind]
  | some label =>
    rw [hlabel] at hfind
    obtain ⟨entry, hentry, hmem⟩ := List.mem_flatMap.mp (labelOf_eq_some hlabel).1
    obtain ⟨p, -, hp⟩ := List.mem_filterMap.mp hmem
    right
    rw [Option.some.inj hfind]
    unfold labelSymbol at hp
    split at hp
    · cases hp
      exact h.index_lt hentry
    · cases hp

theorem relocation_in_section (h : Assembled m o) (hm : Assemblable m) : ∀ r ∈ o.relocations,
    r.symbol < o.symbols.size ∧ ∃ s, o.sections[r.sectionId.toNat]? = some s ∧
      r.offset.toNat + relocationWidth r.type ≤ s.data.length := by
  intro r hr
  obtain ⟨reference, hreference, hsymbol, heq⟩ := h.exists_reference hr
  obtain ⟨hlt, -⟩ := SymbolTable.indexOf_eq_some.mp hsymbol
  obtain ⟨entry, hentry, p, hp, hof⟩ := mem_sectionReferences.mp hreference
  have hsource := mem_of_mem_orderedSections
    (List.mem_of_getElem? (List.mem_zipIdx_iff_getElem?.mp hentry))
  have hitem := hm.items _ hsource p.2 (Emission.mem_of_mem_placed hp)
  obtain ⟨hkind, hindex, hoffset, hwidth⟩ := field_of_referenceOf hitem hof
  refine ⟨hlt, emitted entry, ?_, ?_⟩
  · rw [heq]
    show o.sections[(UInt32.ofNat reference.index).toNat]? = _
    rw [hindex, toNat_index hentry]
    exact h.getElem?_sections hentry
  · rw [heq, length_data_emitted hkind]
    show (UInt64.ofNat reference.offset).toNat + relocationWidth reference.type ≤ _
    rw [hoffset, h.toNat_offset hentry hp, hwidth]
    exact Emission.advance_le_of_mem_placed Ir.Item.le_advance hp

theorem debugEntry_in_section (h : Assembled m o) : ∀ d ∈ o.debugInfo,
    d.sectionId.toNat < o.sections.length ∧ d.file.toNat < o.sourceFiles.length := by
  intro d hd
  rw [h.debugInfo] at hd
  obtain ⟨entry, hentry, hmem⟩ := List.mem_flatMap.mp hd
  obtain ⟨p, -, hp⟩ := List.mem_filterMap.mp hmem
  rw [h.sourceFiles]
  unfold debugEntryOf at hp
  split at hp
  · cases hp
    exact ⟨h.index_lt hentry, Nat.zero_lt_one⟩
  · cases hp

/-- **The object of an assemblable module passes every check of the reader.** -/
theorem wellFormed (h : Assembled m o) (hm : Assemblable m) : o.WellFormed where
  version := h.version
  alignment := h.aligned hm
  memory := h.length_data_le
  symbols := h.sectionId_of_symbol
  relocations := h.relocation_in_section hm
  debugInfo := h.debugEntry_in_section

end Assembled

/-! ### The round trip -/

/-- The object with its debug table kept or cleared. -/
def DebugKeptOrCleared (o o' : ObjectFile) : Prop :=
  o' = o ∨ o' = { o with debugInfo := [] } ∨ o' = withoutDebugInfo o

theorem wellFormed_of_debug {o o' : ObjectFile} (h : o.WellFormed) (ho : DebugKeptOrCleared o o') :
    o'.WellFormed := by
  rcases ho with rfl | rfl | rfl
  · exact h
  · exact ⟨h.version, h.alignment, h.memory, h.symbols, h.relocations, nofun⟩
  · exact ⟨h.version, h.alignment, h.memory, h.symbols, h.relocations, nofun⟩

/-- **An object of the assembler is read back from the file it is written to**, and writing it again
gives the same file. -/
theorem object_round_trip {m : Ir.Module} (hm : Ir.FrontEnd m) (oob : ℕ → Bool)
    (level : Optimizer.OptLevel) {memory : ℕ} {diagnostics diagnostics' : Diag.DiagnosticEngine}
    {o o' : ObjectFile}
    (hassemble : assemble memory (Optimizer.run oob level m).1 diagnostics = .ok (o, diagnostics'))
    (hdebug : DebugKeptOrCleared o o') (hnames : o'.NulFreeNames) {b : List UInt8}
    (hwrite : writeObjectToBuffer o' = .ok b) :
    ∃ back, readObjectFromBuffer b = .ok back ∧ back = o' ∧ writeObjectToBuffer back = .ok b := by
  have hassemblable := assemblable_of_wellFormed (wellFormed_run hm.wellFormed oob level)
  have hwf := wellFormed_of_debug ((assembled_of_assemble hassemble).wellFormed hassemblable) hdebug
  exact ⟨o', readObject_writeObject hwf hnames hwrite, rfl, hwrite⟩

/-- `loop: JMP loop` as a module. -/
def loopModule : Ir.Module where
  sections := [
    { kind := .text, name := str ".text"
      items := [
        .label { name := str "loop" },
        .instruction { machine := { opcode := .JMP }, symbol := some { name := str "loop" } }] }]

/-- `loopModule`, assembled. -/
def loopObject : ObjectFile where
  sections := [
    { name := str ".text", type := .text, flags := SectionFlags.alloc ||| SectionFlags.exec
      alignment := 8, data := [0, 0, 0, 0, 0, 0, 0, 0x50], size := 8 }]
  symbols := ⟨[{ name := str "loop", type := .function, sectionId := 0, defined := true }],
    List.nodup_singleton _⟩
  relocations := [{ sectionId := 0, offset := 0, type := .pcrel48, symbol := 0, addend := 0 }]
  debugInfo := [{ sectionId := 0, file := 0, offset := 0, line := 0, column := 0 }]
  sourceFiles := [[]]

theorem frontEnd_loop : Ir.FrontEnd loopModule := by
  refine ⟨{ statements := [.label { name := str "loop" },
    .instruction
    { mnemonic := str "JMP", operands := [{ type := .symbol, symbol := str "loop" }] }] },
    [], {}, {}, ?_, rfl⟩
  exact Sema.accepts_of_checks (by decide) (by decide)

theorem assemble_loop : assemble kMaxSize loopModule {} = .ok (loopObject, {}) := by
  decide

theorem object_round_trip_loop : ∃ b, writeObjectToBuffer loopObject = .ok b ∧
    ∃ back, readObjectFromBuffer b = .ok back ∧ back = loopObject ∧
      writeObjectToBuffer back = .ok b := by
  have hok : (writeObjectToBuffer loopObject).isOk = true := by decide +kernel
  cases hwrite : writeObjectToBuffer loopObject with
  | error e =>
    rw [hwrite] at hok
    cases hok
  | ok b =>
    exact ⟨b, rfl, object_round_trip frontEnd_loop (fun _ => false) .O0 assemble_loop (Or.inl rfl)
      ⟨by decide, by decide, by decide⟩ hwrite⟩

end Assembler
end MiniTool
