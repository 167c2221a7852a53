import MiniToolchain.Assembler.Loaded
import MiniToolchain.Optimizer.Runs

/-!
# The code of an image

The linker puts a section of code at fixed addresses, one after the other, and writes into every
branch the way to its label.  So the memory of a machine that has loaded the image holds the
section.

## Main definitions

* `PlainText` — items that are labels and instructions.
* `Names` — what an instruction names.
* `textAddress` — the address of a position.

## Main results

* `holds_of_image` — the code of an image is the section.
* `not_fetches_of_stop` — nothing is executed behind it.
-/

namespace MiniTool
namespace Optimizer

open Ir Assembler Assembler.AssemblyContext Vm Vm.VirtualMachine

/-- The items are labels and instructions. -/
def PlainText (items : List Item) : Prop :=
  ∀ item ∈ items, (∃ l, item = .label l) ∨ ∃ instruction, item = .instruction instruction

/-- The address of a position, in an image of one file. -/
def textAddress (items : List Item) (i : ℕ) : UInt64 :=
  regionBase .text + UInt64.ofNat (endOf (items.take i))

/-- What an instruction names: branches name labels, and the names of other instructions are like
this. -/
structure Names (q : Str → Prop) (instruction : Instruction) : Prop where
  ret : instruction.machine.opcode = .RET → instruction.symbol = none
  push : instruction.machine.opcode = .PUSH → instruction.symbol = none
  other : isBranch instruction.machine.opcode = false → ∀ reference,
    instruction.symbol = some reference → q reference.name

/-! ### Formats -/

theorem formatOf_of_branch {opcode : Isa.Opcode} (hbranch : isBranch opcode = true)
    (hret : opcode ≠ .RET) : Isa.formatOf opcode = some .jump := by
  cases opcode <;> first | rfl | exact absurd rfl hret | cases hbranch

theorem formatOf_ne_jump {opcode : Isa.Opcode} (hbranch : isBranch opcode = false) :
    Isa.formatOf opcode ≠ some .jump := by
  cases opcode <;> first | decide | cases hbranch; done | exact nofun

/-- What is no branch and has a symbol takes its address. -/
theorem takesSymbol_of_wellFormed {instruction : Instruction}
    (h : InstructionWellFormed instruction) (hbranch : isBranch instruction.machine.opcode = false)
    (hsymbolic : instruction.isSymbolic = true) :
    takesSymbol instruction.machine.opcode = true := by
  obtain ⟨info, hinfo, hformat⟩ := h
  have hshape := (hformat hsymbolic).1
  generalize instruction.machine.opcode = opcode at hbranch hinfo
  cases opcode <;> cases hinfo <;> first | rfl | cases hbranch; done | rcases hshape with h | h <;>
    cases h

theorem symbol_of_wellFormed {instruction : Instruction} (h : InstructionWellFormed instruction)
    (hop : instruction.machine.opcode = .RET ∨ instruction.machine.opcode = .PUSH) :
    instruction.symbol = none := by
  obtain ⟨info, hinfo, hformat⟩ := h
  cases hsymbol : instruction.symbol with
  | none => rfl
  | some reference =>
    have hsymbolic : instruction.isSymbolic = true := by
      unfold Instruction.isSymbolic
      rw [hsymbol]
      rfl
    have hshape := (hformat hsymbolic).1
    rcases hop with hop | hop
    · rw [hop] at hinfo
      cases hinfo
      rcases hshape with h | h <;> cases h
    · rw [hop] at hinfo
      cases hinfo
      rcases hshape with h | h <;> cases h

section

variable {items : List Item} {i : ℕ}

/-! ### Addresses -/

/-- Every item of plain code takes eight bytes, or none. -/
theorem PlainText.dvd_endOf (h : PlainText items) (start : ℕ) (hstart : 8 ∣ start) :
    8 ∣ Emission.endOf Item.advance start items := by
  induction items generalizing start with
  | nil => exact hstart
  | cons item items ih =>
    rw [Emission.endOf_cons]
    refine ih (fun item hitem => h item (List.mem_cons_of_mem _ hitem)) _ ?_
    rcases h item List.mem_cons_self with ⟨l, rfl⟩ | ⟨instruction, rfl⟩
    · exact hstart
    · show 8 ∣ start + 8
      omega

theorem endOf_take_succ {item : Item} (hitem : items[i]? = some item) :
    endOf (items.take (i + 1)) = item.advance (endOf (items.take i)) := by
  obtain ⟨hi, rfl⟩ := List.getElem?_eq_some_iff.mp hitem
  rw [List.take_succ_eq_append_getElem hi]
  unfold endOf
  rw [Emission.endOf_append]
  rfl

theorem textAddress_succ_label {l : Label} (hitem : items[i]? = some (.label l)) :
    textAddress items (i + 1) = textAddress items i := by
  unfold textAddress
  rw [endOf_take_succ hitem]
  rfl

theorem textAddress_succ_instruction {instruction : Instruction}
    (hitem : items[i]? = some (.instruction instruction)) :
    textAddress items (i + 1) = textAddress items i + 8 := by
  unfold textAddress
  rw [endOf_take_succ hitem, show Item.advance (endOf (items.take i)) (.instruction instruction) =
    endOf (items.take i) + 8 from rfl, UInt64.ofNat_add, ← UInt64.add_assoc]
  rfl

/-- Behind the last item. -/
theorem textAddress_of_length_le (hi : items.length ≤ i) :
    textAddress items i = regionBase .text + UInt64.ofNat (endOf items) := by
  unfold textAddress
  rw [List.take_of_length_le hi]

/-! ### Positions -/

variable {symbol : Str → UInt64} {returnAddress : ℕ → UInt64}

theorem place_cases (hplain : PlainText items) :
    (∃ l, items[i]? = some (.label l) ∧
        (Program.ofItems symbol returnAddress items).place i = .skip) ∨
      (∃ instruction, items[i]? = some (.instruction instruction) ∧
        (Program.ofItems symbol returnAddress items).place i = .run instruction) ∨
      (items.length ≤ i ∧ (Program.ofItems symbol returnAddress items).place i = .stop) := by
  rcases Nat.lt_or_ge i items.length with hi | hi
  · have hitem := List.getElem?_eq_getElem hi
    rcases hplain items[i] (List.getElem_mem hi) with ⟨l, hl⟩ | ⟨instruction, hl⟩
    · rw [hl] at hitem
      exact .inl ⟨l, hitem, place_ofItems hitem⟩
    · rw [hl] at hitem
      exact .inr (.inl ⟨instruction, hitem, place_ofItems hitem⟩)
  · exact .inr (.inr ⟨hi, place_of_length_le (by rwa [List.length_map])⟩)

end

/-! ### Code in memory -/

section

variable {m : Module} {o : Object.ObjectFile} {executable : Executable} {text : Linker.Region}
  {others : List Linker.Region} {source : Section} {code : VirtualMemory} {symbol : Str → UInt64}

/-- The size of the code is that of the section. -/
theorem size_of_image (himage : ImageOf m o executable text others)
    (hsource : source ∈ orderedSections m) (hkind : source.kind = .text) :
    text.size.toNat = endOf source.items := by
  rcases himage.code with ⟨hnone, -⟩ | ⟨other, hother, hother', hsize, -⟩
  · exact absurd hkind (hnone source hsource)
  · have hfirst := findSection_of_ordered hother
    rw [hother', ← hkind, findSection_of_ordered hsource] at hfirst
    cases hfirst
    exact hsize

/-- What is linked for an instruction encodes it. -/
theorem encodes_of_linked (h : Standalone m o executable) (hsource : source ∈ orderedSections m)
    (hkind : source.kind = .text) {i : ℕ} {instruction : Instruction} {machine : Isa.Instruction}
    (hop : machine.opcode = instruction.machine.opcode)
    (hdst : machine.dst = instruction.machine.dst) (hsrc : machine.src = instruction.machine.src)
    (himm : match instruction.symbol with
      | none => machine.imm = instruction.machine.imm
      | some reference => ∃ address, Linker.finalAddress {} [o] [symbolOf m] 0 reference.name =
        some address ∧ if Isa.formatOf instruction.machine.opcode = some .jump then
          Isa.branchTarget (textAddress source.items i) machine.imm = address +
            reference.addend.toUInt64
        else machine.imm.toUInt64 = address + reference.addend.toUInt64)
    (hnames : Names (fun name => symbol name = addressIn m o name) instruction) :
    Encodes (.ofItems symbol (fun i => textAddress source.items (i + 1)) source.items)
      (textAddress source.items) i instruction machine where
  opcode := hop
  plain := by
    intro hbranch
    unfold Program.resolve
    cases hreference : instruction.symbol with
    | none =>
      rw [hreference] at himm
      cases machine
      cases hmachine : instruction.machine
      rw [hmachine] at hop hdst hsrc himm
      simp_all
    | some reference =>
      rw [hreference] at himm
      obtain ⟨address, haddress, himm⟩ := himm
      rw [if_neg (formatOf_ne_jump hbranch)] at himm
      have hname : symbol reference.name = address := by
        rw [hnames.other hbranch reference hreference]
        unfold addressIn
        rw [haddress]
        rfl
      have himm' : machine.imm = (address + reference.addend.toUInt64).toInt64 := by
        rw [← himm]
        exact (Int64.toInt64_toUInt64 machine.imm).symm
      show machine = { instruction.machine with
        imm := (symbol reference.name + reference.addend.toUInt64).toInt64 }
      rw [hname, ← himm']
      dsimp only
      rw [← hop, ← hdst, ← hsrc]
  branch := by
    intro reference t hbranch hreference haddend htarget
    have hjump : Isa.formatOf instruction.machine.opcode = some .jump := by
      refine formatOf_of_branch hbranch fun hret => ?_
      rw [hnames.ret hret] at hreference
      cases hreference
    rw [hreference] at himm
    obtain ⟨address, haddress, himm⟩ := himm
    rw [if_pos hjump, haddend] at himm
    -- the name is a label of the section
    obtain ⟨ht, l, hl, hname⟩ := labelIndex_eq_some (show labelIndex
      ((source.items.map fresh).map Slot.item) reference.name = some t from htarget)
    rw [items_fresh] at ht
    have hitem : source.items[t]? = some (.label l) := by
      rw [List.getElem?_eq_getElem ht, ← hl]
      simp only [items_fresh]
    have hat := h.addressIn_of_label hsource (getElem?_placed hitem)
    rw [hname, haddress, hkind] at hat
    rw [himm, Option.some.inj hat]
    exact UInt64.add_zero _

/-- **The code of an image is the section.** -/
theorem holds_of_image (himage : ImageOf m o executable text others) (h : Standalone m o executable)
    (hsource : source ∈ orderedSections m) (hkind : source.kind = .text)
    (hplain : PlainText source.items) (hcode : code.regions = [mapped text])
    (hnames : ∀ instruction, .instruction instruction ∈ source.items →
      Names (fun name => symbol name = addressIn m o name) instruction) :
    Holds (.ofItems symbol (fun i => textAddress source.items (i + 1)) source.items)
      (textAddress source.items) code := by
  refine ⟨fun i hi => ?_, fun i instruction hi => ?_, fun i instruction hi => ?_,
    fun i _ _ _ => rfl⟩
  · rcases @place_cases source.items i symbol
        (fun i => textAddress source.items (i + 1)) hplain with
      ⟨l, hl, -⟩ | ⟨instruction, -, hplace⟩ | ⟨-, hplace⟩
    · exact textAddress_succ_label hl
    · rw [hplace] at hi
      cases hi
    · rw [hplace] at hi
      cases hi
  · exact textAddress_succ_instruction (item_of_run hi)
  · have hitem := item_of_run hi
    obtain ⟨k, hk⟩ := List.mem_iff_getElem?.mp hsource
    have hentry : (source, k) ∈ (orderedSections m).zipIdx := List.mem_zipIdx_iff_getElem?.mpr hk
    have hlinked := h.sectionLinked hentry (by rw [hkind]; exact SectionKind.noConfusion)
    have hp : (endOf (source.items.take i), Item.instruction instruction) ∈ placed source.items :=
      List.mem_of_getElem? (getElem?_placed hitem)
    have hthis := hlinked.item hp
    rw [h.map_find, hkind] at hthis
    obtain ⟨field, machine, hfield, hdecode, hop, hdst, hsrc, himm⟩ := hthis
    refine ⟨machine, ?_, encodes_of_linked h hsource hkind hop hdst hsrc himm
      (hnames instruction (List.mem_of_getElem? hitem))⟩
    have hend : endOf (source.items.take i) + 8 ≤ endOf source.items :=
      Emission.advance_le_of_mem_placed Item.le_advance hp
    refine himage.fetches hcode hfield hdecode ?_
      (by rw [size_of_image himage hsource hkind]; exact hend)
    exact PlainText.dvd_endOf (fun item hitem => hplain item (List.mem_of_mem_take hitem)) 0
      (Nat.dvd_zero 8)

/-- **Nothing is executed behind it.** -/
theorem not_fetches_of_stop (himage : ImageOf m o executable text others)
    (hsource : source ∈ orderedSections m) (hkind : source.kind = .text)
    (hplain : PlainText source.items) (hcode : code.regions = [mapped text])
    {returnAddress : ℕ → UInt64} (i : ℕ) (machine : Isa.Instruction)
    (hi : (Program.ofItems symbol returnAddress source.items).place i = .stop) :
    ¬Fetches code (textAddress source.items i) machine := by
  rcases @place_cases source.items i symbol returnAddress hplain with
    ⟨l, -, hplace⟩ | ⟨instruction, -, hplace⟩ | ⟨hle, -⟩
  · rw [hplace] at hi
    cases hi
  · rw [hplace] at hi
    cases hi
  · rw [textAddress_of_length_le hle, ← size_of_image himage hsource hkind]
    exact himage.not_fetches hcode machine

end

end Optimizer
end MiniTool
