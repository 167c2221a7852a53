import MiniToolchain.Assembler.Links
import MiniToolchain.Optimizer.Reassembled

/-!
# The optimized module is linked again

The sections have become no larger, what is left of the instructions has its old values, and the
branches of a region are never too far.  So an optimized module can be linked alone when the module
itself can, if there is something left behind the label that the image is entered at.  There is,
since a run that ends has executed something there.

## Main definitions

* `Remains` — there is an instruction behind a label.

## Main results

* `remains_of_halts` — a run that ends has executed something behind the label it starts at.
* `links_run` — nothing is in the way of a link of the optimized module.
-/

namespace MiniTool
namespace Optimizer

open Ir Assembler Assembler.AssemblyContext Vm
open Object (ObjectFile)

/-! ### What is referred to -/

/-- What the passes make refers to what the instructions referred to, and in the same way. -/
theorem closed_references (p : Isa.Opcode → SymbolRef → Prop) : Closed fun i =>
    InstructionWellFormed i ∧ ∀ reference, i.symbol = some reference →
      p i.machine.opcode reference where
  move := by
    intro i j hi hj hpush hpop
    have hnone : i.symbol = none := symbol_of_wellFormed hi.1 (.inr hpush)
    refine ⟨closed_wellFormed.move hi.1 hj.1 hpush hpop, fun reference hreference => ?_⟩
    rw [show (toMov i j).symbol = none from hnone] at hreference
    cases hreference
  value := by
    intro i value hi hplain hfits
    refine ⟨closed_wellFormed.value hi.1 hplain hfits, fun reference hreference => ?_⟩
    have hsymbolic : i.isSymbolic = true := by
      unfold Instruction.isSymbolic
      rw [show i.symbol = some reference from hreference]
      rfl
    rw [hplain] at hsymbolic
    cases hsymbolic

/-! ### Distances -/

/-- The way between two places of a region fits the field of a branch. -/
theorem branchDisplacement_fits {base : UInt64} {a b : ℕ} (ha : a ≤ Linker.kRegionSize.toNat)
    (hb : b ≤ Linker.kRegionSize.toNat) :
    -2 ^ 47 ≤ (Isa.branchDisplacement (base + UInt64.ofNat a)
      (base + UInt64.ofNat b + Int64.toUInt64 0)).toInt ∧
      (Isa.branchDisplacement (base + UInt64.ofNat a)
        (base + UInt64.ofNat b + Int64.toUInt64 0)).toInt < 2 ^ 47 := by
  have hsize : Linker.kRegionSize.toNat = 0xF0000 := rfl
  have hvalue : base + UInt64.ofNat b + Int64.toUInt64 0 - (base + UInt64.ofNat a + 8) =
      UInt64.ofNat b - (UInt64.ofNat a + 8) := by
    rw [show Int64.toUInt64 0 = 0 from rfl]
    grind
  have hword : (UInt64.ofNat b - (UInt64.ofNat a + 8)).toNat = (2 ^ 64 - (a + 8) + b) % 2 ^ 64 := by
    rw [UInt64.toNat_sub, UInt64.toNat_add, UInt64.toNat_ofNat', UInt64.toNat_ofNat',
      show (8 : UInt64).toNat = 8 from rfl]
    omega
  unfold Isa.branchDisplacement
  rw [hvalue, ByteOrder.toInt_eq_ite, UInt64.toUInt64_toInt64, hword]
  split_ifs <;> omega

/-! ### What remains -/

/-- There is an instruction behind a label. -/
def Remains (items : List Item) (name : Str) : Prop :=
  ∃ (p i : ℕ) (l : Label) (instruction : Instruction), items[p]? = some (.label l) ∧
    l.name = name ∧ p < i ∧ items[i]? = some (.instruction instruction)

/-- A run that ends has executed something. -/
theorem exists_instruction_of_halts {items : List Item} {symbol : Str → UInt64}
    {returnAddress : ℕ → UInt64} {s f : State} {n : ℕ} (hrunning : s.vm.cpu.halted = false)
    (hhalts : (meaning (.ofItems symbol returnAddress items)).Halts s n f) :
    ∃ i ≥ s.position, ∃ instruction, items[i]? = some (.instruction instruction) := by
  obtain ⟨hreaches, hfinal⟩ := hhalts
  induction hreaches with
  | refl s =>
    have hhalted : s.vm.cpu.halted = true := hfinal
    rw [hrunning] at hhalted
    cases hhalted
  | @step s s' s'' c n _ hmove _ ih =>
    have hhere : ∀ {instruction : Instruction},
        (Program.ofItems symbol returnAddress items).place s.position = .run instruction →
        ∃ i ≥ s.position, ∃ instruction, items[i]? = some (.instruction instruction) :=
      fun hplace => ⟨s.position, le_rfl, _, item_of_run hplace⟩
    cases hmove with
    | skip hplace =>
      obtain ⟨i, hi, hinstruction⟩ := ih hrunning hfinal
      exact ⟨i, Nat.le_of_succ_le hi, hinstruction⟩
    | plain hplace => exact hhere hplace
    | fall hplace => exact hhere hplace
    | jump hplace => exact hhere hplace
    | call hplace => exact hhere hplace
    | ret hplace => exact hhere hplace

/-- **A run that ends has executed something behind the label it starts at.** -/
theorem remains_of_halts {items : List Item} {symbol : Str → UInt64}
    {returnAddress : ℕ → UInt64} {vm : VirtualMachine} {f : State} {p n : ℕ} {name : Str}
    (hp : labelIndex items name = some p) (hrunning : vm.cpu.halted = false)
    (hhalts : (meaning (.ofItems symbol returnAddress items)).Halts (.enter vm p) n f) :
    Remains items name := by
  obtain ⟨hlt, l, hl, hname⟩ := labelIndex_eq_some hp
  have hitem : items[p]? = some (.label l) := by rw [List.getElem?_eq_getElem hlt, hl]
  obtain ⟨i, hi, instruction, hinstruction⟩ := exists_instruction_of_halts hrunning hhalts
  have hle : p ≤ i := hi
  refine ⟨p, i, l, instruction, hitem, hname, ?_, hinstruction⟩
  rcases Nat.lt_or_eq_of_le hle with hless | heq
  · exact hless
  · rw [← heq, hitem] at hinstruction
    cases hinstruction

/-! ### The module -/

section

variable {m : Module} {source : Section} {oob : ℕ → Bool} {level : OptLevel} {o o' : ObjectFile}
  {executable : Executable}

/-- What the instructions refer to: branches to labels of the code, and the others to what fits
their fields. -/
def ReferenceFits (source : Section) (address : Str → UInt64) (opcode : Isa.Opcode)
    (reference : SymbolRef) : Prop :=
  (isBranch opcode = true → reference.addend = 0 ∧
    ∃ l, .label l ∈ source.items ∧ l.name = reference.name) ∧
  (isBranch opcode = false → (∀ l, .label l ∈ source.items → l.name ≠ reference.name) ∧
    -2 ^ 47 ≤ (address reference.name + reference.addend.toUInt64).toInt64.toInt ∧
      (address reference.name + reference.addend.toUInt64).toInt64.toInt < 2 ^ 47)

/-- What the instructions refer to in a link that succeeds. -/
theorem referenceFits_of_standalone (hown : OwnCode m source) (h : Standalone m o executable)
    {s : Section} (hs : s ∈ m.sections) {i : Instruction} (hi : .instruction i ∈ s.items)
    {reference : SymbolRef} (hreference : i.symbol = some reference) :
    ReferenceFits source (addressIn m o) i.machine.opcode reference := by
  obtain ⟨hkind, hwell⟩ := h.wellFormed.items s hs _ hi
  obtain rfl := hown.unique h.wellFormed hs hkind
  refine ⟨fun hbranch => ?_, fun hbranch => ⟨hown.others i hi hbranch reference hreference, ?_⟩⟩
  · have hret : i.machine.opcode ≠ .RET := by
      intro hret
      rw [symbol_of_wellFormed hwell (.inl hret)] at hreference
      cases hreference
    obtain ⟨reference', l, hsymbol, haddend, hl⟩ := hown.branches i hi hbranch hret
    rw [hreference] at hsymbol
    cases hsymbol
    exact ⟨haddend, l, hl⟩
  · obtain ⟨j, hj⟩ := List.mem_iff_getElem?.mp hi
    have hp := List.mem_of_getElem? (getElem?_placed hj)
    have hfits := h.itemFits (mem_orderedSections h.wellFormed hs (List.ne_nil_of_mem hi)) hp
      reference hreference
    unfold referenceValue at hfits
    dsimp only at hfits
    rw [if_neg (formatOf_ne_jump hbranch)] at hfits
    exact hfits

/-- Every instruction of plain code is at a multiple of eight bytes. -/
theorem dvd_of_placed {items : List Item} (hplain : PlainText items) {p : ℕ × Item}
    (hp : p ∈ placed items) : 8 ∣ p.1 := by
  obtain ⟨before, after, hitems, hoffset⟩ := Emission.exists_of_mem_placed hp
  rw [hoffset]
  refine PlainText.dvd_endOf (fun item hitem => hplain item ?_) 0 (Nat.dvd_zero 8)
  rw [hitems]
  exact List.mem_append_left _ hitem

/-- **Every address fits its field again.** -/
theorem itemFits_run (hown : OwnCode m source) (h : Standalone m o executable)
    (h' : LaidOut (run oob level m).1 o') {s' : Section}
    (hs' : s' ∈ orderedSections (run oob level m).1) {p : ℕ × Item} (hp : p ∈ placed s'.items) :
    ItemFits (addressIn (run oob level m).1 o') (regionBase s'.kind + UInt64.ofNat p.1) p.2 := by
  have hwell := h.wellFormed
  have hitem := h'.wellFormed.items s' (mem_of_mem_orderedSections hs') p.2
    (Emission.mem_of_mem_placed hp)
  have hplace := (Item.le_advance p.1 p.2).trans
    (Emission.advance_le_of_mem_placed Item.le_advance hp)
  have hend := hplace.trans (h'.endOf_le hs')
  obtain ⟨offset, item⟩ := p
  cases item with
  | instruction i =>
    intro reference hreference
    have hreferences := (closed_references (ReferenceFits source (addressIn m o))).instructions_run
      oob level (fun s hs i hi => ⟨(hwell.items s hs _ hi).2, fun _ hreference =>
        referenceFits_of_standalone hown h hs hi hreference⟩) s' (mem_of_mem_orderedSections hs') i
      (Emission.mem_of_mem_placed hp)
    obtain ⟨hto, hother⟩ := hreferences.2 reference hreference
    unfold referenceValue
    cases hbranch : isBranch i.machine.opcode with
    | false =>
      obtain ⟨hname, hvalue⟩ := hother hbranch
      rw [if_neg (formatOf_ne_jump hbranch),
        ← addressIn_of_run hwell hown h.toLaidOut h' hname]
      exact hvalue
    | true =>
      have hret : i.machine.opcode ≠ .RET := by
        intro hret
        rw [symbol_of_wellFormed hreferences.1 (.inl hret)] at hreference
        cases hreference
      obtain ⟨haddend, l, hl, hname⟩ := hto hbranch
      obtain ⟨_, -, -, hkept⟩ := kept_of_run hwell hown hs' hitem.1
      obtain ⟨j, hj⟩ := List.mem_iff_getElem?.mp ((hkept.items rfl).mpr hl)
      have hlabel := getElem?_placed hj
      have haddress := addressIn_of_finalAddress (h'.addressIn_of_label hs' hlabel)
      have hlabelEnd := (Item.le_advance _ _).trans (Emission.advance_le_of_mem_placed
        Item.le_advance (List.mem_of_getElem? hlabel))
      dsimp only
      rw [if_pos (formatOf_of_branch hbranch hret), haddend, ← hname, haddress]
      exact branchDisplacement_fits hend (hlabelEnd.trans (h'.endOf_le hs'))
  | symbolValue v =>
    -- the data are as they were
    have hkind : s'.kind ≠ .text := by
      intro hkind
      obtain ⟨_, -, -, hkept⟩ := kept_of_run hwell hown hs' hkind
      rcases hkept.plain hown.plain _ (Emission.mem_of_mem_placed hp) with ⟨l, hl⟩ | ⟨i, hi⟩
      · cases hl
      · cases hi
    have hs : s' ∈ orderedSections m := (orderedSections_of_run hkind).mpr hs'
    have hfits := h.itemFits hs hp
    intro hfour
    have hvalue := hfits hfour
    rwa [addressIn_of_run hwell hown h.toLaidOut h' (hown.values s' (mem_of_mem_orderedSections hs)
      v (Emission.mem_of_mem_placed hp))] at hvalue
  | label l => trivial
  | bytes b => trivial
  | space s => trivial
  | align a => trivial

/-- **Nothing is in the way of a link of the optimized module**, if something remains behind the
label that the image is entered at. -/
theorem links_run (hown : OwnCode m source) (h : Standalone m o executable)
    (h' : Assembled (run oob level m).1 o') (hlabel : ∃ l, .label l ∈ source.items)
    {source' : Section} (hsource' : source' ∈ orderedSections (run oob level m).1)
    (hkind' : source'.kind = .text)
    (hremains : Remains source'.items (str "_start")) : Links (run oob level m).1 o' := by
  have hwell := h.wellFormed
  obtain ⟨hglobals, hexterns, hweaks, -⟩ := run_accounted oob level m
  have hdeclared : declaredNames (run oob level m).1 = declaredNames m := by
    unfold declaredNames
    rw [hglobals, hexterns, hweaks]
  have hlabels : ∀ s ∈ m.sections, s.kind = .text → ∃ l, .label l ∈ s.items := by
    intro s hs hkind
    rw [hown.unique hwell hs hkind]
    exact hlabel
  have hplain : ∀ s ∈ m.sections, s.kind = .text → PlainText s.items := by
    intro s hs hkind
    rw [hown.unique hwell hs hkind]
    exact hown.plain
  have hlaidOut : LaidOut (run oob level m).1 o' := by
    refine laidOut_of_fits (wellFormed_run hwell oob level) h' fun s' hs' => ?_
    obtain ⟨s, hs, hkept⟩ := exists_kept hlabels hs'
    exact (hkept.endOf_le (hplain s (mem_of_mem_orderedSections hs))).trans (h.endOf_le hs)
  have hplain' : PlainText source'.items := by
    obtain ⟨_, -, -, hkept⟩ := kept_of_run hwell hown hsource' hkind'
    exact hkept.plain hown.plain
  refine ⟨hlaidOut, ?_, fun s' hs' p hp => itemFits_run hown h hlaidOut hs' hp, ?_, ?_, ?_⟩
  · intro s' hs' offset i hp
    have hkind := (hlaidOut.wellFormed.items s' (mem_of_mem_orderedSections hs') _
      (Emission.mem_of_mem_placed hp)).1
    obtain ⟨_, -, -, hkept⟩ := kept_of_run hwell hown hs' hkind
    exact dvd_of_placed (hkept.plain hown.plain) hp
  · intro n hnone hn
    rw [labelOf_eq_none_iff, names_labelSymbols_run hlabels, ← labelOf_eq_none_iff] at hnone
    have hbinding : bindingOf (run oob level m).1 n .external = bindingOf m n .external := by
      unfold bindingOf
      rw [hglobals, hexterns, hweaks]
    rw [hbinding]
    refine h.weak hnone ?_
    rcases hn with hn | ⟨s', hs', item, hitem, hn⟩
    · rw [hdeclared] at hn
      exact .inl hn
    · exact .inr (exists_of_itemNames hwell hlabels hs' hitem hn)
  · rw [hdeclared]
    exact h.declared
  · obtain ⟨p, i, l, instruction, hp, hname, hlt, hi⟩ := hremains
    have hplace := getElem?_placed hp
    refine ⟨source', hsource', hkind', p, _, l, hplace, hname,
      dvd_of_placed hplain' (List.mem_of_getElem? hplace), ?_⟩
    -- the instruction is behind the label, and in the section
    have hend := Emission.advance_le_of_mem_placed Item.le_advance
      (List.mem_of_getElem? (getElem?_placed hi))
    have hbefore : endOf (source'.items.take p) ≤ endOf (source'.items.take i) :=
      advance_endOf_take_le hp hi hlt
    have hadvance : endOf (source'.items.take i) + 8 ≤
        endOf source'.items := hend
    omega

end

end Optimizer
end MiniTool
