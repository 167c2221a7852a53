import MiniToolchain.Optimizer.Relinked

/-!
# The optimizer and whole runs

A module is assembled, linked and run, and then optimized, assembled, linked and run again.  The
second image exists when the first one does, and has the same result, if the module has the form
that lowering gives.  It is not so for every module: the address of a label may stand in an
instruction that lowering never gives a symbol, and labels move.

## Main definitions

* `PlainCode` — code of labels and instructions that takes no address of a label.

## Main results

* `exists_optimized_image` — the optimized image exists and has the same result.
* `label_in_load` — it may fault when a `LOAD` has a label for its displacement.
-/

namespace MiniTool
namespace Optimizer

open Ir Assembler Assembler.AssemblyContext Vm Vm.VirtualMachine
open Object (ObjectFile)
open Linker (link)

/-- The code of a module is labels and instructions; every jump and every call goes to one of the
labels, in front of an instruction, and no `MOVI`, no `LEA` and no data take the address of one. -/
structure PlainCode (m : Module) (source : Section) : Prop where
  mem : source ∈ m.sections
  kind : source.kind = .text
  plain : PlainText source.items
  branches : ∀ instruction, .instruction instruction ∈ source.items →
    isBranch instruction.machine.opcode = true → instruction.machine.opcode ≠ .RET →
    ∃ reference l, instruction.symbol = some reference ∧ reference.addend = 0 ∧
      .label l ∈ source.items ∧ l.name = reference.name ∧ l.name ∉ m.weaks ∧
      Remains source.items l.name
  addresses : ∀ instruction, .instruction instruction ∈ source.items →
    instruction.machine.opcode = .MOVI ∨ instruction.machine.opcode = .LEA →
    ∀ reference, instruction.symbol = some reference →
    ∀ l, .label l ∈ source.items → l.name ≠ reference.name
  values : ∀ s ∈ m.sections, ∀ v, .symbolValue v ∈ s.items → ∀ l, .label l ∈ source.items →
    l.name ≠ v.symbol.name

/-- In the form that lowering gives, no other instruction can take one. -/
theorem PlainCode.ownCode {m : Module} {source : Section} (h : PlainCode m source)
    (hwell : m.WellFormed) : OwnCode m source where
  mem := h.mem
  kind := h.kind
  plain := h.plain
  branches := by
    intro instruction hi hbranch hret
    obtain ⟨reference, l, hsymbol, haddend, hl, hname, -, -⟩ :=
      h.branches instruction hi hbranch hret
    exact ⟨reference, l, hsymbol, haddend, hl, hname⟩
  others := by
    intro instruction hi hbranch reference hsymbol
    have hsymbolic : instruction.isSymbolic = true := by
      unfold Instruction.isSymbolic
      rw [hsymbol]
      rfl
    have htakes := takesSymbol_of_wellFormed (hwell.items source h.mem _ hi).2 hbranch hsymbolic
    refine h.addresses instruction hi ?_ reference hsymbol
    unfold takesSymbol at htakes
    rwa [Bool.or_eq_true, decide_eq_true_iff, decide_eq_true_iff] at htakes
  values := h.values

section

variable {m : Module} {source : Section} {oob : ℕ → Bool} {level : OptLevel} {o : ObjectFile}
  {executable : Executable} {vm start : VirtualMachine}

/-- A machine that has loaded an image has not halted. -/
theorem halted_of_load (hload : vm.load executable = (.ok (), start)) :
    start.cpu.halted = false := by
  obtain ⟨-, _, _, _, -, -, -, rfl⟩ := load_eq_ok hload
  rfl

theorem sameData_refl (m : Module) (o : ObjectFile) : SameData m o m o :=
  ⟨fun _ _ => Iff.rfl, fun _ _ _ _ _ => rfl⟩

/-- **What a run executes behind the label it starts at remains.** -/
theorem remains_of_run (hown : OwnCode m source) (h : Standalone m o executable)
    (hload : vm.load executable = (.ok (), start)) {n : ℕ} {w : Monitored}
    (hhalts : Monitored.monitor.Halts { vm := start } n w) :
    (∃ l, .label l ∈ source.items) ∧ ∃ source' ∈ orderedSections (run oob level m).1,
      source'.kind = .text ∧ Remains source'.items (str "_start") := by
  obtain ⟨text, _, others, himage, -⟩ := exists_imageOf h h (sameData_refl m o)
  obtain ⟨hs, p, data, f, hp, hentry, -, -, hstack, hf, -⟩ :=
    exists_section_run h.wellFormed hown h himage hload hhalts
  obtain ⟨k, hk⟩ := List.mem_iff_getElem?.mp hown.mem
  obtain ⟨s', φ, hk', -, hlabels, hrefines⟩ :=
    run_preserves_meaning oob level hk (distinctLabels_of_standalone h hs)
  obtain ⟨n', -, g, hg, -⟩ := hrefines (addressIn m o)
    (fun i => textAddress source.items (i + 1)) (fun i => textAddress s'.items (i + 1)) _ p hstack
    hentry n f hf
  have hp' : labelIndex s'.items (str "_start") = some (φ p) := by rw [hlabels, hp, Option.map_some]
  have hrunning := halted_of_load hload
  have hremains := @remains_of_halts _ _ _ (withoutCode start data) _ _ _ _ hp' hrunning hg
  have hkept := (run_accounted oob level m).2.2.2.1
  obtain ⟨hltk, hgetk⟩ := List.getElem?_eq_some_iff.mp hk
  obtain ⟨hltk', hgetk'⟩ := List.getElem?_eq_some_iff.mp hk'
  have hkind : s'.kind = .text := by
    have hone : SectionKept m.sections[k] (run oob level m).1.sections[k] := hkept.get hltk hltk'
    rw [hgetk, hgetk'] at hone
    exact hone.kind.trans hown.kind
  obtain ⟨hlt, l, hl, -⟩ := labelIndex_eq_some hp
  have hlabel : .label l ∈ source.items := by
    rw [← hl]
    exact List.getElem_mem hlt
  refine ⟨⟨l, hlabel⟩, s', mem_orderedSections (wellFormed_run h.wellFormed oob level)
    (List.mem_of_getElem? hk') ?_, hkind, hremains⟩
  obtain ⟨_, _, _, _, hitem, -⟩ := hremains
  exact List.ne_nil_of_mem (List.mem_of_getElem? hitem)

/-- **The optimizer and whole runs.**  A module of the form that lowering gives, in which nothing
but jumps and calls refers to the labels of the code, is assembled and linked alone, and the image
is run to its end, without a fault and without looking at code, below the stack pointer or at return
addresses.  Then the optimized module is assembled, linked and loaded, too, and runs to its end
within the same budget, with the same result. -/
theorem exists_optimized_image (hwell : m.WellFormed) (hcode : PlainCode m source)
    {memory : ℕ} {diagnostics after : Diag.DiagnosticEngine}
    (hassemble : assemble memory m diagnostics = .ok (o, after))
    (hlink : link [o] {} = .ok executable) (hload : vm.load executable = (.ok (), start))
    {n : ℕ} {w : Monitored} (hhalts : Monitored.monitor.Halts { vm := start } n w) {budget : UInt64}
    (hbudget : n ≤ budget.toNat) (diagnostics' : Diag.DiagnosticEngine) :
    ∃ o' after' executable' start',
      assemble memory (run oob level m).1 diagnostics' = .ok (o', after') ∧
      link [o'] {} = .ok executable' ∧ vm.load executable' = (.ok (), start') ∧
      ∃ a b, start.run budget = (haltResult a, a) ∧ start'.run budget = (haltResult b, b) ∧
        SameResult a b := by
  have hown := hcode.ownCode hwell
  have h := standalone_of_link hwell (assembled_of_assemble hassemble) hlink
  obtain ⟨hlabel, source', hsource', hkind', hremains⟩ :=
    @remains_of_run m source oob level _ _ _ _ hown h hload _ _ hhalts
  -- the optimized module is assembled
  have hwell' := wellFormed_run hwell oob level
  have hassembles := @assembles_run m oob level memory hwell
    (fun s hs hkind => by rw [hown.unique hwell hs hkind]; exact hown.plain)
    (fun s hs hkind => by rw [hown.unique hwell hs hkind]; exact hlabel)
    (assembles_of_assemble (zeroFilled_of_wellFormed hwell) hassemble)
  obtain ⟨o', after', hassemble'⟩ :=
    exists_of_assembles (zeroFilled_of_wellFormed hwell') hassembles diagnostics'
  -- and linked
  obtain ⟨executable', hlink'⟩ := exists_link_of_links
    (links_run hown h (assembled_of_assemble hassemble') hlabel hsource' hkind' hremains)
  -- and loaded
  obtain ⟨hplace, -⟩ := Linker.inPlace_of_link ⟨rfl, rfl, rfl, rfl⟩ hlink'
  obtain ⟨start', hload'⟩ := exists_load vm (Linker.validate_of_link hlink')
    (fun s hs => (hplace s hs).stack) fun s hs => (hplace s hs).heap
  have h' := standalone_of_link hwell' (assembled_of_assemble hassemble') hlink'
  obtain ⟨a, b, hrun, hrun', hsame, -⟩ :=
    sameResult_of_images hwell hown h h' hload hload' hhalts hbudget
  exact ⟨o', after', executable', start', hassemble', hlink', hload', a, b, hrun, hrun', hsame⟩

end

/-! ### An example -/

/-- A module of one section of code, whose labels are global. -/
def codeModule (items : List Item) (globals : List Str) : Module where
  sections := [{ kind := .text, name := str ".text", items }]
  globals

/-- An image of such a module. -/
def codeImageOf (data : List UInt8) (symbols : List (Str × UInt64)) (count : ℕ) : Executable :=
  { codeImage data ((List.range count).map fun i =>
      { address := 0x10000 + UInt64.ofNat (8 * i), file := 0, line := 0, column := 0 }) with
    symbols := symbols.map fun (name, address) =>
      { name, address, size := 0, kind := .function } }

/-- `_start: CALL f`, `HALT`, `f: PUSH R1`, `POP R2`, `RET` as a module. -/
def callMove : Module :=
  codeModule [
    .label { name := str "_start" },
    .instruction { machine := { opcode := .CALL }, symbol := some { name := str "f" } },
    .instruction { machine := { opcode := .HALT } },
    .label { name := str "f" },
    .instruction { machine := { opcode := .PUSH, dst := ⟨1⟩ } },
    .instruction { machine := { opcode := .POP, dst := ⟨2⟩ } },
    .instruction { machine := { opcode := .RET } }] [str "_start", str "f"]

def callMoveImage : Executable :=
  codeImageOf
    [8, 0, 0, 0, 0, 0, 0, 0x57, 0, 0, 0, 0, 0, 0, 0, 1, 0, 0, 0, 0, 0, 0, 0x10, 0x15,
      0, 0, 0, 0, 0, 0, 0x20, 0x16, 0, 0, 0, 0, 0, 0, 0, 0x58]
    [(str "_start", 0x10000), (str "f", 0x10010)] 5

theorem frontEnd_callMove : FrontEnd callMove := by
  refine ⟨{ statements := [
    .directive { type := .global, operands := [
      { type := .symbol, symbol := str "_start" }, { type := .symbol, symbol := str "f" }] },
    .label { name := str "_start" },
    .instruction { mnemonic := str "CALL", operands := [{ type := .symbol, symbol := str "f" }] },
    .instruction { mnemonic := str "HALT" },
    .label { name := str "f" },
    .instruction { mnemonic := str "PUSH", operands := [{ type := .register, reg := ⟨1⟩ }] },
    .instruction { mnemonic := str "POP", operands := [{ type := .register, reg := ⟨2⟩ }] },
    .instruction { mnemonic := str "RET" }] },
    [], {}, {}, ?_, rfl⟩
  exact Sema.accepts_of_checks (by decide) (by decide)

theorem plainCode_callMove : ∃ source, PlainCode callMove source := by
  refine ⟨_, List.mem_cons_self, rfl, ?_, ?_, ?_, ?_⟩
  · intro item hitem
    simp only [List.mem_cons, List.not_mem_nil, or_false] at hitem
    rcases hitem with rfl | rfl | rfl | rfl | rfl | rfl | rfl
    · exact .inl ⟨_, rfl⟩
    · exact .inr ⟨_, rfl⟩
    · exact .inr ⟨_, rfl⟩
    · exact .inl ⟨_, rfl⟩
    · exact .inr ⟨_, rfl⟩
    · exact .inr ⟨_, rfl⟩
    · exact .inr ⟨_, rfl⟩
  · intro instruction hi hbranch hret
    simp only [List.mem_cons, List.not_mem_nil, or_false, reduceCtorEq, false_or,
      Item.instruction.injEq] at hi
    rcases hi with rfl | rfl | rfl | rfl | rfl
    · exact ⟨_, { name := str "f" }, rfl, rfl, by simp, rfl, nofun, 3, 4, { name := str "f" }, _,
        rfl, rfl, by decide, rfl⟩
    · cases hbranch
    · cases hbranch
    · cases hbranch
    · exact absurd rfl hret
  · intro instruction hi hop
    simp only [List.mem_cons, List.not_mem_nil, or_false, reduceCtorEq, false_or,
      Item.instruction.injEq] at hi
    rcases hi with rfl | rfl | rfl | rfl | rfl <;> rcases hop with hop | hop <;> cases hop
  · intro s hs v hv
    rw [List.mem_singleton.mp hs] at hv
    simp at hv

theorem link_callMove : link [objectOf callMove] {} = .ok callMoveImage := by
  have himage : imageOf [objectOf callMove] = callMoveImage := by decide +kernel
  rw [← himage]
  exact link_imageOf (List.cons_ne_nil _ _) (by decide) (by decide) (by decide) (by decide)
    (by decide) (by decide) (by decide) (by decide) (by decide)

/-- The machine that has loaded `callMove`, and after the `CALL`, the `PUSH`, the `POP` and the
`RET`. -/
def loadedCallMove : Monitored := { vm := (load {} callMoveImage).2 }

def called : Monitored where
  vm := loadedCallMove.vm.step.2
  calls := [loadedCallMove.vm.step.2.cpu.sp]
  hidden := ∅ ∪ {x | VirtualMemory.InRange loadedCallMove.vm.step.2.cpu.sp 8 x}

def calledPushed : Monitored := afterPlain called { opcode := .PUSH, dst := ⟨1⟩ }

def calledPopped : Monitored := afterPlain calledPushed { opcode := .POP, dst := ⟨2⟩ }

def returned : Monitored where
  vm := calledPopped.vm.step.2
  hidden := {x | x ∈ calledPopped.hidden ∧ ¬VirtualMemory.InRange calledPopped.vm.cpu.sp 8 x}

/-- It calls, pushes, pops, returns and halts. -/
theorem halts_callMove : ∃ w, Monitored.monitor.Halts loadedCallMove 5 w := by
  have hcall : loadedCallMove.Step called := .call rfl rfl rfl
  have hpush : called.Step calledPushed := step_afterPlain rfl rfl (by decide) nofun rfl
  -- the return address is above what is pushed and popped
  have hsp : called.vm.cpu.sp = 0x7FFEFFF8 := rfl
  have hpushed : calledPushed.vm.cpu.sp = 0x7FFEFFF0 := rfl
  have hstore : called.vm.cpu.sp - 8 = 0x7FFEFFF0 := rfl
  have hpopped : calledPopped.vm.cpu.sp = 0x7FFEFFF8 := rfl
  have hapart : ∀ x : UInt64, VirtualMemory.InRange 0x7FFEFFF0 8 x →
      ¬VirtualMemory.InRange 0x7FFEFFF8 8 x := by
    rintro x ⟨-, hbelow⟩ ⟨habove, -⟩
    have hlow : (0x7FFEFFF0 : UInt64).toNat = 0x7FFEFFF0 := rfl
    have hhigh : (0x7FFEFFF8 : UInt64).toNat = 0x7FFEFFF8 := rfl
    omega
  have hpop : calledPushed.Step calledPopped := by
    refine step_afterPlain rfl rfl (by decide) (fun _ x hx hhidden => ?_) rfl
    rw [hpushed] at hx
    rcases hhidden.1 with hnone | hthere
    · exact hnone
    · have hreturn : VirtualMemory.InRange called.vm.cpu.sp 8 x := hthere
      rw [hsp] at hreturn
      exact hapart x hx hreturn
  have hret : calledPopped.Step returned := by
    refine .ret rfl rfl rfl (fun x hx => ⟨⟨.inr hx, ?_⟩, ?_⟩) rfl
    · rintro (⟨hop, -⟩ | ⟨-, hstored⟩ | ⟨hop, -⟩)
      · cases hop
      · rw [hpopped] at hx
        rw [hstore] at hstored
        exact hapart x hstored hx
      · cases hop
    · rintro (⟨hop, -⟩ | ⟨hop, -⟩ | ⟨hop, -⟩) <;> cases hop
  have hhalt : returned.Step (afterPlain returned { opcode := .HALT }) :=
    step_afterPlain rfl rfl (by decide) nofun rfl
  exact ⟨_, (reaches_one rfl hcall).trans ((reaches_one rfl hpush).trans
    ((reaches_one rfl hpop).trans ((reaches_one rfl hret).trans (reaches_one rfl hhalt)))), rfl⟩

theorem exists_optimized_image_callMove : ∃ o' after' executable' start',
    assemble kMaxSize (run (fun _ => false) .O1 callMove).1 {} = .ok (o', after') ∧
    link [o'] {} = .ok executable' ∧ load {} executable' = (.ok (), start') ∧
    ∃ a b, loadedCallMove.vm.run 5 = (haltResult a, a) ∧ start'.run 5 = (haltResult b, b) ∧
      SameResult a b := by
  obtain ⟨source, hcode⟩ := plainCode_callMove
  obtain ⟨w, hhalts⟩ := halts_callMove
  exact exists_optimized_image frontEnd_callMove.wellFormed hcode
    (@eq_okOr _ _ ({}, {}) (assemble kMaxSize callMove {}) (by decide)) link_callMove
    (show load {} callMoveImage = (.ok (), loadedCallMove.vm) from rfl) hhalts
    (by decide) {}

/-! ### A label in a LOAD -/

/-- `_start: NOP`, `l: LOAD R1, [R0 + l + 0xFFEFFF8]`, `HALT`: no file is lowered to a `LOAD` with a
symbol. -/
def loadLabel : Module :=
  codeModule [
    .label { name := str "_start" },
    .instruction { machine := { opcode := .NOP } },
    .label { name := str "l" },
    .instruction
      { machine := { opcode := .LOAD, dst := ⟨1⟩ }
        symbol := some { name := str "l", addend := 0xFFEFFF8 } },
    .instruction { machine := { opcode := .HALT } }] [str "_start", str "l"]

/-- The `LOAD` reads the start of the heap. -/
def loadLabelImage : Executable :=
  codeImageOf
    [0, 0, 0, 0, 0, 0, 0, 0, 0, 0, 0, 0x10, 0, 0, 0x10, 0x12, 0, 0, 0, 0, 0, 0, 0, 1]
    [(str "_start", 0x10000), (str "l", 0x10008)] 3

/-- Without the `NOP` it reads what is in front of the heap. -/
def loadMovedImage : Executable :=
  codeImageOf [0xF8, 0xFF, 0xFF, 0x0F, 0, 0, 0x10, 0x12, 0, 0, 0, 0, 0, 0, 0, 1]
    [(str "_start", 0x10000), (str "l", 0x10000)] 2

/-- `loadLabel`, optimized. -/
def loadMoved : Module := (run (fun _ => false) .O1 loadLabel).1

theorem link_loadLabel : link [objectOf loadLabel] {} = .ok loadLabelImage := by
  have himage : imageOf [objectOf loadLabel] = loadLabelImage := by decide +kernel
  rw [← himage]
  exact link_imageOf (List.cons_ne_nil _ _) (by decide) (by decide) (by decide) (by decide)
    (by decide) (by decide) (by decide) (by decide) (by decide)

theorem link_loadMoved : link [objectOf loadMoved] {} = .ok loadMovedImage := by
  have himage : imageOf [objectOf loadMoved] = loadMovedImage := by decide +kernel
  rw [← himage]
  exact link_imageOf (List.cons_ne_nil _ _) (by decide) (by decide) (by decide) (by decide)
    (by decide) (by decide) (by decide) (by decide) (by decide)

theorem plainCode_loadLabel : ∃ source, PlainCode loadLabel source := by
  refine ⟨_, List.mem_cons_self, rfl, ?_, ?_, ?_, ?_⟩
  · intro item hitem
    simp only [List.mem_cons, List.not_mem_nil, or_false] at hitem
    rcases hitem with rfl | rfl | rfl | rfl | rfl
    · exact .inl ⟨_, rfl⟩
    · exact .inr ⟨_, rfl⟩
    · exact .inl ⟨_, rfl⟩
    · exact .inr ⟨_, rfl⟩
    · exact .inr ⟨_, rfl⟩
  · intro instruction hi hbranch _
    simp only [List.mem_cons, List.not_mem_nil, or_false, reduceCtorEq, false_or,
      Item.instruction.injEq] at hi
    rcases hi with rfl | rfl | rfl <;> cases hbranch
  · intro instruction hi hop
    simp only [List.mem_cons, List.not_mem_nil, or_false, reduceCtorEq, false_or,
      Item.instruction.injEq] at hi
    rcases hi with rfl | rfl | rfl <;> rcases hop with hop | hop <;> cases hop
  · intro s hs v hv
    rw [List.mem_singleton.mp hs] at hv
    simp at hv

/-- The machine that has loaded `loadLabel`, and after the `NOP` and the `LOAD`. -/
def loadedLoadLabel : Monitored := { vm := (load {} loadLabelImage).2 }

def skippedNop : Monitored := afterPlain loadedLoadLabel { opcode := .NOP }

def loadedHeap : Monitored :=
  afterPlain skippedNop { opcode := .LOAD, dst := ⟨1⟩, imm := 0x10000000 }

/-- It reads a word of the heap and halts. -/
theorem halts_loadLabel : ∃ w, Monitored.monitor.Halts loadedLoadLabel 3 w := by
  have hnop : loadedLoadLabel.Step skippedNop := step_afterPlain rfl rfl (by decide) nofun rfl
  have hload : skippedNop.Step loadedHeap := by
    have hheap : ∀ x, skippedNop.vm.loads { opcode := .LOAD, dst := ⟨1⟩, imm := 0x10000000 } x →
        0x10000000 ≤ x.toNat ∧ x.toNat < 0x10000008 := by
      rintro x (⟨-, hx⟩ | ⟨hop, -⟩)
      · exact hx
      · cases hop
    refine .plain rfl rfl ⟨fun x hx => ?_, fun x _ hhidden => hhidden.1, fun x hx hbelow => ?_,
      nofun⟩ (Prod.ext rfl rfl)
    · obtain ⟨hfrom, hto⟩ := hheap x hx
      rintro ⟨r, hr, hexec, hin⟩
      have hregions := regions_of_load
        (show load {} loadLabelImage = (.ok (), loadedLoadLabel.vm) from rfl)
      have hsame : skippedNop.vm.memory = loadedLoadLabel.vm.memory := rfl
      rw [hsame, hregions, List.mem_append, List.mem_map] at hr
      rw [Region.contains_iff] at hin
      rcases hr with ⟨segment, hsegment, rfl⟩ | hr
      · rw [List.mem_singleton.mp hsegment] at hin
        have hend : x.toNat < 0x10018 := hin.2
        omega
      · -- neither the stack nor the heap is code
        simp only [List.mem_cons, List.not_mem_nil, or_false] at hr
        rcases hr with rfl | rfl
        · cases hexec
        · cases hexec
    · have hlimit : 0x7FEF0000 ≤ x.toNat := hbelow.1
      have hlt := (hheap x hx).2
      omega
  have hhalt : loadedHeap.Step (afterPlain loadedHeap { opcode := .HALT }) :=
    step_afterPlain rfl rfl (by decide) nofun rfl
  exact ⟨_, (reaches_one rfl hnop).trans ((reaches_one rfl hload).trans (reaches_one rfl hhalt)),
    rfl⟩

/-- **The address of a label in a LOAD.**  The `NOP` is deleted and the label moves, so that the
`LOAD` reads an address that is not mapped: what `exists_optimized_image` says is not so for modules
that lowering does not make. -/
theorem label_in_load : ¬∀ (m : Module) (source : Section) (o : ObjectFile)
    (after : Diag.DiagnosticEngine) (executable : Executable) (vm start : VirtualMachine) (n : ℕ)
    (w : Monitored) (budget : UInt64), PlainCode m source →
    assemble kMaxSize m {} = .ok (o, after) → link [o] {} = .ok executable →
    vm.load executable = (.ok (), start) → Monitored.monitor.Halts { vm := start } n w →
    n ≤ budget.toNat →
    ∃ o' after' executable' start',
      assemble kMaxSize (run (fun _ => false) .O1 m).1 {} = .ok (o', after') ∧
      link [o'] {} = .ok executable' ∧ vm.load executable' = (.ok (), start') ∧
      ∃ a b, start.run budget = (haltResult a, a) ∧ start'.run budget = (haltResult b, b) ∧
        SameResult a b := by
  intro h
  obtain ⟨source, hcode⟩ := plainCode_loadLabel
  obtain ⟨w, hhalts⟩ := halts_loadLabel
  have hassemble := @eq_okOr _ _ ({}, {}) (assemble kMaxSize loadLabel {}) (by decide)
  have hassemble' := @eq_okOr _ _ ({}, {}) (assemble kMaxSize loadMoved {}) (by decide)
  obtain ⟨o', after', executable', start', hmoved, hlink, hload, a, b, -, hrun, -⟩ :=
    h loadLabel source _ _ _ {} loadedLoadLabel.vm 3 w 3 hcode hassemble link_loadLabel rfl hhalts
      (by decide)
  rw [show (run (fun _ => false) .O1 loadLabel).1 = loadMoved from rfl, hassemble'] at hmoved
  have hobject : objectOf loadMoved = o' := congrArg Prod.fst (Except.ok.inj hmoved)
  rw [← hobject, link_loadMoved] at hlink
  rw [← Except.ok.inj hlink] at hload
  have hstart : start' = (load {} loadMovedImage).2 := (congrArg Prod.snd hload).symm
  -- the LOAD faults
  have hfault : ((load {} loadMovedImage).2.run 3).1.error = .invalidMemoryAccess := by decide
  rw [hstart] at hrun
  rw [hrun] at hfault
  cases hfault

end Optimizer
end MiniTool
