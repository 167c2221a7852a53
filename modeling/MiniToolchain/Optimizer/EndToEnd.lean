import MiniToolchain.Optimizer.Accounting
import MiniToolchain.Optimizer.Images
import MiniToolchain.Optimizer.Instructions

/-!
# The optimizer, from source to machine

A module is assembled and linked as it is, and once more after the optimizer has run.  If the
machine runs the one image to its end, without a fault and without looking at addresses, then it
runs the other with the same result.

## Main definitions

* `OwnCode` — code that is labels and instructions, with jumps to its own labels.

## Main results

* `sameData_of_run` — the images differ in their code only.
* `optimized_image` — the images have the same result, and the optimized one takes no more
  instructions.
-/

namespace MiniTool
namespace Optimizer

open Ir Assembler Assembler.AssemblyContext Vm Vm.VirtualMachine
open Object (ObjectFile)
open Linker (link)

/-- The code of a module is labels and instructions; every jump and every call goes to one of the
labels, and nothing else names them. -/
structure OwnCode (m : Module) (source : Section) : Prop where
  mem : source ∈ m.sections
  kind : source.kind = .text
  plain : PlainText source.items
  branches : ∀ instruction, .instruction instruction ∈ source.items →
    isBranch instruction.machine.opcode = true → instruction.machine.opcode ≠ .RET →
    ∃ reference l, instruction.symbol = some reference ∧ reference.addend = 0 ∧
      .label l ∈ source.items ∧ l.name = reference.name
  others : ∀ instruction, .instruction instruction ∈ source.items →
    isBranch instruction.machine.opcode = false → ∀ reference, instruction.symbol = some reference →
    ∀ l, .label l ∈ source.items → l.name ≠ reference.name
  values : ∀ s ∈ m.sections, ∀ v, .symbolValue v ∈ s.items → ∀ l, .label l ∈ source.items →
    l.name ≠ v.symbol.name

/-! ### What the optimizer keeps -/

section

variable {q : Str → Prop}

/-- What the passes make names nothing new. -/
theorem closed_names : Closed (Names q) where
  move := by
    intro i j hi _ hpush _
    have hsymbol : (toMov i j).symbol = none := hi.push hpush
    exact ⟨fun _ => hsymbol, fun _ => hsymbol, fun _ reference h => by rw [hsymbol] at h; cases h⟩
  value := by
    intro i value _ hsymbolic _
    have hsymbol : (toMovi i value).symbol = none := by
      show i.symbol = none
      unfold Instruction.isSymbolic at hsymbolic
      cases hreference : i.symbol with
      | none => rfl
      | some reference =>
        rw [hreference] at hsymbolic
        cases hsymbolic
    exact ⟨fun _ => hsymbol, fun _ => hsymbol, fun _ reference h => by rw [hsymbol] at h; cases h⟩

end

section

variable {m : Module} {source : Section} {oob : ℕ → Bool} {level : OptLevel}

/-- Sections that are not code stay as they are. -/
theorem findSection_of_kept {sections sections' : List Section}
    (h : List.Forall₂ SectionKept sections sections') {kind : SectionKind} (hkind : kind ≠ .text) :
    (sections'.find? fun s => s.kind = kind) = sections.find? fun s => s.kind = kind := by
  induction h with
  | nil => rfl
  | @cons s s' rest rest' hone _ ih =>
    by_cases hs : s.kind = kind
    · rw [List.find?_cons_of_pos (by simpa [hone.kind] using hs),
        List.find?_cons_of_pos (by simpa using hs), hone.other (by rw [hs]; exact hkind)]
    · rw [List.find?_cons_of_neg (by simpa [hone.kind] using hs),
        List.find?_cons_of_neg (by simpa using hs), ih]

theorem mem_orderedSections_iff {s : Section} : s ∈ orderedSections m ↔
    m.findSection s.kind = some s ∧ s.items.isEmpty = false := by
  constructor
  · intro h
    refine ⟨findSection_of_ordered h, ?_⟩
    obtain ⟨kind, -, hs⟩ := List.mem_filterMap.mp h
    have hne := (Option.filter_eq_some_iff.mp hs).2
    simpa using hne
  · rintro ⟨hfind, hempty⟩
    refine List.mem_filterMap.mpr ⟨s.kind, ?_, ?_⟩
    · cases s.kind <;> decide
    · rw [hfind]
      simp [Option.filter, hempty]

/-- The optimizer leaves the other sections alone. -/
theorem orderedSections_of_run {s : Section} (hkind : s.kind ≠ .text) :
    s ∈ orderedSections m ↔ s ∈ orderedSections (run oob level m).1 := by
  have hsame : (run oob level m).1.findSection s.kind = m.findSection s.kind :=
    findSection_of_kept (run_accounted oob level m).2.2.2.1 hkind
  rw [mem_orderedSections_iff, mem_orderedSections_iff, hsame]

theorem SectionKept.plain {s s' : Section} (h : SectionKept s s') (hplain : PlainText s.items) :
    PlainText s'.items := by
  intro item hitem
  cases hinstruction : item.isInstruction with
  | false => exact hplain item ((h.items hinstruction).mp hitem)
  | true =>
    cases item with
    | instruction i => exact .inr ⟨i, rfl⟩
    | _ => cases hinstruction

end

/-! ### The two images -/

section

variable {m : Module} {source source' : Section} {oob : ℕ → Bool} {level : OptLevel}
  {o o' : ObjectFile} {executable executable' : Executable}

/-- A module has one section of code. -/
theorem OwnCode.unique (hown : OwnCode m source) (hwell : m.WellFormed) {s : Section}
    (hs : s ∈ m.sections) (hkind : s.kind = .text) : s = source := by
  have hfirst := findSection_of_mem hwell hs
  rw [hkind, ← hown.kind, findSection_of_mem hwell hown.mem] at hfirst
  exact (Option.some.inj hfirst).symm

/-- The code of the optimized module is what is left of the code. -/
theorem kept_of_run (hwell : m.WellFormed) (hown : OwnCode m source)
    (hsource' : source' ∈ orderedSections (run oob level m).1) (hkind' : source'.kind = .text) :
    ∃ k : ℕ, m.sections[k]? = some source ∧ (run oob level m).1.sections[k]? = some source' ∧
      SectionKept source source' := by
  have hkept := (run_accounted oob level m).2.2.2.1
  obtain ⟨k, hk⟩ := List.mem_iff_getElem?.mp (mem_of_mem_orderedSections hsource')
  obtain ⟨hlt', rfl⟩ := List.getElem?_eq_some_iff.mp hk
  have hlength := hkept.length_eq
  have hlt : k < m.sections.length := by omega
  have hone : SectionKept m.sections[k] _ := hkept.get hlt hlt'
  have hsame := hown.unique hwell (List.getElem_mem hlt) (hone.kind.symm.trans hkind')
  rw [hsame] at hone
  exact ⟨k, by rw [List.getElem?_eq_getElem (by omega), hsame], hk, hone⟩

/-- A name that is no label of the code has one address in both images. -/
theorem addressIn_of_run (hwell : m.WellFormed) (hown : OwnCode m source)
    (h : LaidOut m o) (h' : LaidOut (run oob level m).1 o')
    {name : Str} (hname : ∀ l, .label l ∈ source.items → l.name ≠ name) :
    addressIn m o name = addressIn (run oob level m).1 o' name := by
  refine addressIn_congr h h' (fun s hs => orderedSections_of_run hs) ?_ ?_
  · intro s hs hkind l hl
    rw [hown.unique hwell (mem_of_mem_orderedSections hs) hkind] at hl
    exact hname l hl
  · intro s hs hkind l hl
    obtain ⟨_, -, -, hkept⟩ := kept_of_run hwell hown hs hkind
    exact hname l ((hkept.items rfl).mp hl)

/-- **The images differ in their code only.** -/
theorem sameData_of_run (hwell : m.WellFormed) (hown : OwnCode m source)
    (h : Standalone m o executable) (h' : Standalone (run oob level m).1 o' executable') :
    SameData m o (run oob level m).1 o' where
  sections _ hs := orderedSections_of_run hs
  names s hs _ v hv := addressIn_of_run hwell hown h.toLaidOut h'.toLaidOut
    (hown.values s (mem_of_mem_orderedSections hs) v hv)

theorem distinctLabels_of_standalone (h : Standalone m o executable)
    (hsource : source ∈ orderedSections m) : DistinctLabels source.items :=
  fun _ _ _ _ hi hj hname => h.label_unique hsource hi hj hname

/-- The image is entered at the label `_start` of the code. -/
theorem exists_entry {text : Linker.Region} {others : List Linker.Region}
    (himage : ImageOf m o executable text others) (h : Standalone m o executable) :
    text.size ≠ 0 ∧ ∃ source ∈ orderedSections m, source.kind = .text ∧
      ∃ p, labelIndex source.items (str "_start") = some p ∧ IsEntry source.items p ∧
        executable.entryPoint = textAddress source.items p := by
  obtain ⟨hsize, source, hsource, hkind, p, offset, l, hp, hname, hentry⟩ := himage.entry h
  have hitem : source.items[p]? = some (.label l) := by
    have hitems : (placed source.items).map Prod.snd = source.items := Emission.map_snd_placed 0 _
    rw [← hitems, List.getElem?_map, hp]
    rfl
  have hindex := (distinctLabels_of_standalone h hsource).labelIndex_eq hitem
  rw [hname] at hindex
  refine ⟨hsize, source, hsource, hkind, p, hindex, .inr ⟨l, hitem⟩, ?_⟩
  have hoffset : (placed source.items)[p]? = some (endOf (source.items.take p), .label l) :=
    getElem?_placed hitem
  rw [hp] at hoffset
  cases hoffset
  exact hentry

/-- What the instructions of such code name. -/
theorem OwnCode.names (hown : OwnCode m source) (hwell : m.WellFormed) {q : Str → Prop}
    {s : Section} (hs : s ∈ m.sections)
    (hq : ∀ name, (∀ l, .label l ∈ source.items → l.name ≠ name) → q name) :
    ∀ i, .instruction i ∈ s.items → Names q i := by
  intro i hi
  obtain ⟨hkind, hwellFormed⟩ := hwell.items s hs _ hi
  obtain rfl := hown.unique hwell hs hkind
  exact ⟨fun hret => symbol_of_wellFormed hwellFormed (.inl hret),
    fun hpush => symbol_of_wellFormed hwellFormed (.inr hpush),
    fun hbranch reference hsymbol => hq _ (hown.others i hi hbranch reference hsymbol)⟩

/-- The passes keep to the names. -/
theorem OwnCode.names_run (hown : OwnCode m source) (hwell : m.WellFormed)
    {q : Str → Prop} {s : Section} (hs : s ∈ (run oob level m).1.sections)
    (hq : ∀ name, (∀ l, .label l ∈ source.items → l.name ≠ name) → q name) :
    ∀ i, .instruction i ∈ s.items → Names q i :=
  closed_names.instructions_run oob level (fun _ hs => hown.names hwell hs hq) s hs

/-- The branches of such code are its own. -/
theorem OwnCode.confined (hown : OwnCode m source) (hwell : m.WellFormed)
    (hdistinct : DistinctLabels source.items) {symbol : Str → UInt64} {returnAddress : ℕ → UInt64} :
    Confined (.ofItems symbol returnAddress source.items) where
  branch := by
    intro i instruction hi hbranch hret
    obtain ⟨reference, l, hsymbol, haddend, hl, hname⟩ :=
      hown.branches instruction (List.mem_of_getElem? (item_of_run hi)) hbranch hret
    obtain ⟨t, ht⟩ := List.mem_iff_getElem?.mp hl
    refine ⟨reference, t, hsymbol, haddend, ?_⟩
    show labelIndex ((source.items.map fresh).map Slot.item) reference.name = some t
    rw [items_fresh, ← hname]
    exact hdistinct.labelIndex_eq ht
  ret i instruction hi hret := by
    have hitem := List.mem_of_getElem? (item_of_run hi)
    exact symbol_of_wellFormed (hwell.items source hown.mem _ hitem).2 (.inl hret)
  plain i instruction hi hbranch hsymbolic := by
    have hitem := List.mem_of_getElem? (item_of_run hi)
    exact takesSymbol_of_wellFormed (hwell.items source hown.mem _ hitem).2
      hbranch hsymbolic
  stop := by
    refine ⟨source.items.length, fun i hi => ?_⟩
    exact place_of_length_le (by rwa [List.length_map])

end

/-! ### The two runs -/

section

variable {m : Module} {source : Section} {oob : ℕ → Bool} {level : OptLevel} {o o' : ObjectFile}
  {executable executable' : Executable} {vm start start' : VirtualMachine}

/-- A machine without its code. -/
def withoutCode (start : VirtualMachine) (data : VirtualMemory) : VirtualMachine :=
  { start with memory := data }

/-- What the loader does depends on the image in the memory and the program counter only. -/
theorem load_beside (hload : vm.load executable = (.ok (), start))
    (hload' : vm.load executable' = (.ok (), start')) (data : VirtualMemory) :
    start' = (withoutCode start data).beside start'.memory executable'.entryPoint 0 := by
  obtain ⟨-, _, _, _, -, -, -, rfl⟩ := load_eq_ok hload
  obtain ⟨-, _, _, _, -, -, -, rfl⟩ := load_eq_ok hload'
  rfl

theorem stackInvariant_withoutCode (hload : vm.load executable = (.ok (), start))
    {data : VirtualMemory} {others : List Linker.Region}
    (hdata : data.regions = dataRegions others) :
    StackInvariant (withoutCode start data) := by
  obtain ⟨hloaded, -, htop, hlimit, hlow, hhigh, haligned, hflags⟩ := stackInvariant_of_load hload
  refine ⟨hloaded, ?_, htop, hlimit, hlow, hhigh, haligned, hflags⟩
  refine List.mem_map_of_mem (f := Region.shape) ?_
  show stackRegion ∈ data.regions
  rw [hdata]
  exact List.mem_append_right _ List.mem_cons_self

/-- **The run of an image is one of its section**, from the label `_start`, in the memory without
the code. -/
theorem exists_section_run {text : Linker.Region} {others : List Linker.Region}
    (hwell : m.WellFormed) (hown : OwnCode m source) (h : Standalone m o executable)
    (himage : ImageOf m o executable text others) (hload : vm.load executable = (.ok (), start))
    {n : ℕ} {w : Monitored} (hhalts : Monitored.monitor.Halts { vm := start } n w) :
    source ∈ orderedSections m ∧ ∃ (p : ℕ) (data : VirtualMemory) (f : State),
      labelIndex source.items (str "_start") = some p ∧ IsEntry source.items p ∧
      data.regions = dataRegions others ∧ data.heapNext = kHeapBase ∧
      StackInvariant (withoutCode start data) ∧
      (meaning (.ofItems (addressIn m o) (fun i => textAddress source.items (i + 1))
        source.items)).Halts (.enter (withoutCode start data) p) n f ∧
      ∀ budget : UInt64, n ≤ budget.toNat → ∃ a, start.run budget = (haltResult a, a) ∧
        SameResult f.vm a ∧ a.cpu.instructionCount = UInt64.ofNat n := by
  obtain ⟨hsize, s, hs, hkind, p, hp, hentry, hpc⟩ := exists_entry himage h
  obtain rfl := hown.unique hwell (mem_of_mem_orderedSections hs) hkind
  have hdistinct := distinctLabels_of_standalone h hs
  obtain ⟨code, data, hcode, hdata, hnext, hapart⟩ := himage.exists_apart hsize hload
  have hstack : StackInvariant (withoutCode start data) := stackInvariant_withoutCode hload hdata
  have hholds : Holds (.ofItems (addressIn m o) (fun i => textAddress s.items (i + 1)) s.items)
      (textAddress s.items) code :=
    holds_of_image himage h hs hkind hown.plain hcode (hown.names hwell hown.mem fun _ _ => rfl)
  have hbeside := load_beside hload hload data
  rw [hpc] at hbeside
  have htracks : Tracks (.ofItems (addressIn m o) (fun i => textAddress s.items (i + 1)) s.items)
      (textAddress s.items) code (.enter (withoutCode start data) p) { vm := start } :=
    ⟨⟨⟨_, _, hbeside, hapart.toExtends⟩, hstack.loaded, trivial⟩, hapart, rfl, rfl⟩
  obtain ⟨f, hf, -⟩ := halts_of_monitored (hown.confined hwell hdistinct) hholds
    (not_fetches_of_stop himage hs hkind hown.plain hcode) hhalts
    (invariant_enter _ hstack p) htracks
  refine ⟨hs, p, data, f, hp, hentry, hdata, hnext, hstack, hf, fun budget hbudget => ?_⟩
  obtain ⟨a, hrun, hresult, hcount⟩ :=
    run_of_halts hholds hstack hstack.loaded hapart.toExtends hf hbudget
  refine ⟨a, ?_, hresult, by rw [hcount, UInt64.zero_add]⟩
  rw [hbeside]
  exact hrun

/-- **Two images of one module**, as it is and optimized, have the same result. -/
theorem sameResult_of_images (hwell : m.WellFormed) (hown : OwnCode m source)
    (h : Standalone m o executable) (h' : Standalone (run oob level m).1 o' executable')
    (hload : vm.load executable = (.ok (), start)) (hload' : vm.load executable' = (.ok (), start'))
    {n : ℕ} {w : Monitored} (hhalts : Monitored.monitor.Halts { vm := start } n w) {budget : UInt64}
    (hbudget : n ≤ budget.toNat) :
    ∃ a b, start.run budget = (haltResult a, a) ∧ start'.run budget = (haltResult b, b) ∧
      SameResult a b ∧ b.cpu.instructionCount ≤ a.cpu.instructionCount := by
  obtain ⟨text, text', others, himage, himage'⟩ :=
    exists_imageOf h h' (sameData_of_run hwell hown h h')
  obtain ⟨hs, p, data, f, hp, hentry, hdata, hnext, hstack, hf, hfirst⟩ :=
    exists_section_run hwell hown h himage hload hhalts
  -- the second image is entered at the same label
  obtain ⟨hsize', s', hs', hkind', p', hp', -, hpc'⟩ := exists_entry himage' h'
  obtain ⟨k, hk, hk', hkept⟩ := kept_of_run hwell hown hs' hkind'
  obtain ⟨_, φ, hk'', -, hlabels, hrefines⟩ :=
    run_preserves_meaning oob level hk (distinctLabels_of_standalone h hs)
  obtain rfl : s' = _ := Option.some.inj (hk'.symm.trans hk'')
  have hstart : p' = φ p := by
    have hlabel := hlabels (str "_start")
    rw [hp, hp', Option.map_some] at hlabel
    exact Option.some.inj hlabel
  -- both machines have the same data
  obtain ⟨code', data', hcode', hdata', hnext', hapart'⟩ := himage'.exists_apart hsize' hload'
  obtain rfl : data = data' :=
    VirtualMemory.eq_of_regions (hdata.trans hdata'.symm) (hnext.trans hnext'.symm)
  have hholds' : Holds (.ofItems (addressIn m o) (fun i => textAddress s'.items (i + 1)) s'.items)
      (textAddress s'.items) code' :=
    holds_of_image himage' h' hs' hkind' (hkept.plain hown.plain) hcode'
      (hown.names_run hwell (mem_of_mem_orderedSections hs')
        fun _ hname => addressIn_of_run hwell hown h.toLaidOut h'.toLaidOut hname)
  -- the optimized section has the same result, and so has the machine that runs it
  obtain ⟨n', hn', g, hg, hsame⟩ := hrefines (addressIn m o)
    (fun i => textAddress source.items (i + 1)) (fun i => textAddress s'.items (i + 1)) _ p hstack
    hentry n f hf
  obtain ⟨a, hrun, hresult, hcount⟩ := hfirst budget hbudget
  obtain ⟨b, hrun', hresult', hcount'⟩ :=
    run_of_halts hholds' hstack hstack.loaded hapart'.toExtends hg (hn'.trans hbudget)
  refine ⟨a, b, hrun, ?_, (hresult.symm.trans hsame).trans hresult', ?_⟩
  · rw [load_beside hload hload' data, hpc', hstart]
    exact hrun'
  · have hlt := budget.toNat_lt
    rw [hcount, hcount', UInt64.zero_add, UInt64.le_iff_toNat_le, UInt64.toNat_ofNat',
      UInt64.toNat_ofNat', Nat.mod_eq_of_lt (by omega), Nat.mod_eq_of_lt (by omega)]
    exact hn'

/-- **The optimizer, end to end.**  A module is assembled and linked, as it is and optimized.  If
the first image runs to its end, without a fault and without looking at addresses, then the second
ends with the same registers, exit code and output, after no more instructions. -/
theorem optimized_image (hfront : FrontEnd m) (hown : OwnCode m source)
    {memory memory' : ℕ} {diagnostics diagnostics' after after' : Diag.DiagnosticEngine}
    (hassemble : assemble memory m diagnostics = .ok (o, after))
    (hassemble' : assemble memory' (run oob level m).1 diagnostics' = .ok (o', after'))
    (hlink : link [o] {} = .ok executable) (hlink' : link [o'] {} = .ok executable')
    (hload : vm.load executable = (.ok (), start)) (hload' : vm.load executable' = (.ok (), start'))
    {n : ℕ} {w : Monitored} (hhalts : Monitored.monitor.Halts { vm := start } n w) {budget : UInt64}
    (hbudget : n ≤ budget.toNat) :
    ∃ a b, start.run budget = (haltResult a, a) ∧ start'.run budget = (haltResult b, b) ∧
      SameResult a b ∧ b.cpu.instructionCount ≤ a.cpu.instructionCount := by
  have hwell := hfront.wellFormed
  exact sameResult_of_images hwell hown
    (standalone_of_link hwell (assembled_of_assemble hassemble) hlink)
    (standalone_of_link (wellFormed_run hwell oob level) (assembled_of_assemble hassemble') hlink')
    hload hload' hhalts hbudget

end

/-! ### An example -/

/-- `_start: PUSH R1`, `POP R2`, `HALT` as a module. -/
def pushPop : Module where
  sections := [
    { kind := .text, name := str ".text"
      items := [
        .label { name := str "_start" },
        .instruction { machine := { opcode := .PUSH, dst := ⟨1⟩ } },
        .instruction { machine := { opcode := .POP, dst := ⟨2⟩ } },
        .instruction { machine := { opcode := .HALT } }] }]
  globals := [str "_start"]

/-- The one symbol of the objects below. -/
def startSymbols : List Symbol :=
  [{ name := str "_start", binding := .global, type := .function, sectionId := 0, defined := true }]

theorem nodup_startSymbols : (startSymbols.map Symbol.name).Nodup := by decide

/-- An object of one section of code, without a line table. -/
def codeObject (data : List UInt8) (debugInfo : List Object.DebugEntry) : ObjectFile where
  sections := [
    { name := str ".text", type := .text
      flags := Object.SectionFlags.alloc ||| Object.SectionFlags.exec
      alignment := 8, data, size := UInt64.ofNat data.length }]
  symbols := ⟨startSymbols, nodup_startSymbols⟩
  debugInfo
  sourceFiles := [[]]

/-- An image of one segment of code. -/
def codeImage (data : List UInt8) (debugInfo : List Executable.DebugEntry) : Executable where
  entryPoint := 0x10000
  segments := [
    { type := .text, flags := Executable.SegmentFlags.read ||| Executable.SegmentFlags.exec
      name := str ".text", virtualAddress := 0x10000, virtualSize :=
        UInt64.ofNat data.length, data }]
  symbols := [{ name := str "_start", address := 0x10000, size := 0, kind := .function }]
  debugInfo
  sourceFiles := [[]]

/-- `pushPop`, assembled. -/
def pushPopObject : ObjectFile :=
  codeObject
    [0, 0, 0, 0, 0, 0, 0x10, 0x15, 0, 0, 0, 0, 0, 0, 0x20, 0x16, 0, 0, 0, 0, 0, 0, 0, 1]
    [{ sectionId := 0, file := 0, offset := 0, line := 0, column := 0 },
      { sectionId := 0, file := 0, offset := 8, line := 0, column := 0 },
      { sectionId := 0, file := 0, offset := 16, line := 0, column := 0 }]

/-- `MOV R2, R1` and `HALT` are left. -/
def moveObject : ObjectFile :=
  codeObject [0, 0, 0, 0, 0, 0, 0x21, 0x10, 0, 0, 0, 0, 0, 0, 0, 1]
    [{ sectionId := 0, file := 0, offset := 0, line := 0, column := 0 },
      { sectionId := 0, file := 0, offset := 8, line := 0, column := 0 }]

def pushPopImage : Executable :=
  codeImage
    [0, 0, 0, 0, 0, 0, 0x10, 0x15, 0, 0, 0, 0, 0, 0, 0x20, 0x16, 0, 0, 0, 0, 0, 0, 0, 1]
    [{ address := 0x10000, file := 0, line := 0, column := 0 },
      { address := 0x10008, file := 0, line := 0, column := 0 },
      { address := 0x10010, file := 0, line := 0, column := 0 }]

def moveImage : Executable :=
  codeImage [0, 0, 0, 0, 0, 0, 0x21, 0x10, 0, 0, 0, 0, 0, 0, 0, 1]
    [{ address := 0x10000, file := 0, line := 0, column := 0 },
      { address := 0x10008, file := 0, line := 0, column := 0 }]

theorem frontEnd_pushPop : FrontEnd pushPop := by
  refine ⟨{ statements := [
    .directive { type := .global, operands := [{ type := .symbol, symbol := str "_start" }] },
    .label { name := str "_start" },
    .instruction { mnemonic := str "PUSH", operands := [{ type := .register, reg := ⟨1⟩ }] },
    .instruction { mnemonic := str "POP", operands := [{ type := .register, reg := ⟨2⟩ }] },
    .instruction { mnemonic := str "HALT" }] },
    [], {}, {}, ?_, rfl⟩
  exact Sema.accepts_of_checks (by decide) (by decide)

theorem ownCode_pushPop : ∃ source, OwnCode pushPop source := by
  refine ⟨_, List.mem_cons_self, rfl, ?_, ?_, ?_, ?_⟩
  · intro item hitem
    simp only [List.mem_cons, List.not_mem_nil, or_false] at hitem
    rcases hitem with rfl | rfl | rfl | rfl
    · exact .inl ⟨_, rfl⟩
    · exact .inr ⟨_, rfl⟩
    · exact .inr ⟨_, rfl⟩
    · exact .inr ⟨_, rfl⟩
  · intro instruction hi hbranch _
    simp only [List.mem_cons, List.not_mem_nil, or_false, reduceCtorEq, false_or,
      Item.instruction.injEq] at hi
    rcases hi with rfl | rfl | rfl <;> cases hbranch
  · intro instruction hi _ reference hsymbol
    simp only [List.mem_cons, List.not_mem_nil, or_false, reduceCtorEq, false_or,
      Item.instruction.injEq] at hi
    rcases hi with rfl | rfl | rfl <;> cases hsymbol
  · intro s hs v hv
    rw [List.mem_singleton.mp hs] at hv
    simp at hv

theorem assemble_pushPop : assemble kMaxSize pushPop {} = .ok (pushPopObject, {}) := by
  decide

theorem assemble_move :
    assemble kMaxSize (run (fun _ => false) .O1 pushPop).1 {} = .ok (moveObject, {}) := by
  decide

/-- The regions of such an object. -/
def codeLayout (data : List UInt8) : Linker.Layout where
  regions := (Linker.initRegions {}).modify 0 fun region =>
    { region with data, size := UInt64.ofNat data.length }
  placements := [[some { region := 0, offset := 0 }]]

def codeSymbols : Linker.Symbols where
  definitions := [(str "_start",
    { address := 0x10000, size := 0, binding := .global, type := .function, object := 0 })]

def pushPopLayout : Linker.Layout :=
  codeLayout [0, 0, 0, 0, 0, 0, 0x10, 0x15, 0, 0, 0, 0, 0, 0, 0x20, 0x16, 0, 0, 0, 0, 0, 0, 0, 1]

def moveLayout : Linker.Layout := codeLayout [0, 0, 0, 0, 0, 0, 0x21, 0x10, 0, 0, 0, 0, 0, 0, 0, 1]

theorem link_pushPop : link [pushPopObject] {} = .ok pushPopImage := by
  have hinfo : Linker.buildDebugInfo pushPopLayout [pushPopObject] =
      .ok ⟨[[]], pushPopImage.debugInfo⟩ := Linker.buildDebugInfo_of_sorted rfl (by decide)
  refine @Linker.link_of_stages _ _ pushPopLayout codeSymbols pushPopLayout _ (List.cons_ne_nil _ _)
    (by decide) (by decide) (by decide) ?_
  unfold Linker.buildExecutable
  rw [hinfo]
  decide +kernel

theorem link_move : link [moveObject] {} = .ok moveImage := by
  have hinfo : Linker.buildDebugInfo moveLayout [moveObject] = .ok ⟨[[]], moveImage.debugInfo⟩ :=
    Linker.buildDebugInfo_of_sorted rfl (by decide)
  refine @Linker.link_of_stages _ _ moveLayout codeSymbols moveLayout _ (List.cons_ne_nil _ _)
    (by decide) (by decide) (by decide) ?_
  unfold Linker.buildExecutable
  rw [hinfo]
  decide +kernel

/-- The machine that has loaded `pushPop`. -/
def loadedPushPop : VirtualMachine := (load {} pushPopImage).2

/-- What is neither a LOAD nor a system call reads nothing as data. -/
theorem not_loads {vm : VirtualMachine} {machine : Isa.Instruction}
    (hop : machine.opcode ∉ [Isa.Opcode.LOAD, .SYSCALL]) (x : UInt64) : ¬vm.loads machine x := by
  rintro (⟨hload, -⟩ | ⟨hload, -⟩) <;> rw [hload] at hop <;> simp at hop

/-- The machine after an instruction that transfers no control. -/
def afterPlain (w : Monitored) (machine : Isa.Instruction) : Monitored :=
  { w with vm := w.vm.step.2, hidden := {x | x ∈ w.hidden ∧ ¬w.vm.stores machine x} }

/-- A step that reads nothing, unless it pops. -/
theorem step_afterPlain {w : Monitored} {machine : Isa.Instruction}
    (hfetch : w.vm.fetch = .ok machine) (htransfers : transfers machine.opcode = false)
    (hop : machine.opcode ∉ [Isa.Opcode.LOAD, .SYSCALL])
    (hpop : machine.opcode = .POP → ∀ x, VirtualMemory.InRange w.vm.cpu.sp 8 x → x ∉ w.hidden)
    (hstep : w.vm.step.1 = .ok ()) : w.Step (afterPlain w machine) :=
  .plain hfetch htransfers
    ⟨fun x hx => absurd hx (not_loads hop x), fun x hx => absurd hx (not_loads hop x),
      fun x hx => absurd hx (not_loads hop x), hpop⟩ (Prod.ext hstep rfl)

theorem reaches_one {w w' : Monitored} (hrunning : w.vm.cpu.halted = false) (hstep : w.Step w') :
    Monitored.monitor.Reaches w 1 w' :=
  .single (Bool.eq_false_iff.mp hrunning) ⟨rfl, hstep⟩

/-- `loadedPushPop` after the `PUSH`, and after the `POP`. -/
def pushed : Monitored := afterPlain { vm := loadedPushPop } { opcode := .PUSH, dst := ⟨1⟩ }

def popped : Monitored := afterPlain pushed { opcode := .POP, dst := ⟨2⟩ }

/-- It pushes, pops and halts. -/
theorem halts_pushPop : ∃ w, Monitored.monitor.Halts { vm := loadedPushPop } 3 w := by
  have hpush : Monitored.Step { vm := loadedPushPop } pushed :=
    step_afterPlain rfl rfl (by decide) nofun rfl
  have hpop : pushed.Step popped := step_afterPlain rfl rfl (by decide) (fun _ x _ hx => hx.1) rfl
  have hhalt : popped.Step (afterPlain popped { opcode := .HALT }) :=
    step_afterPlain rfl rfl (by decide) nofun rfl
  exact ⟨_, (reaches_one rfl hpush).trans ((reaches_one rfl hpop).trans (reaches_one rfl hhalt)),
    rfl⟩

theorem optimized_image_pushPop : ∃ a b,
    loadedPushPop.run 3 = (haltResult a, a) ∧ (load {} moveImage).2.run 3 = (haltResult b, b) ∧
      SameResult a b ∧ b.cpu.instructionCount ≤ a.cpu.instructionCount := by
  obtain ⟨source, hown⟩ := ownCode_pushPop
  obtain ⟨w, hhalts⟩ := halts_pushPop
  exact optimized_image frontEnd_pushPop hown assemble_pushPop assemble_move link_pushPop link_move
    (show load {} pushPopImage = (.ok (), loadedPushPop) from rfl)
    (show load {} moveImage = (.ok (), (load {} moveImage).2) from rfl) hhalts (by decide)

end Optimizer
end MiniTool
