import MiniToolchain.Executable.Ranged
import MiniToolchain.Linker.Load
import MiniToolchain.Object.Accepted
import MiniToolchain.Object.Ranged

/-!
# Files cannot cause an access out of range

Both readers stay in range whatever the bytes.  The linker stays in range for every list of objects,
as its indices are checked against the tables they index; only the field of a relocation is not
checked by the linker itself, and there the check of the reader has to survive the merging of
sections.

## Main definitions

* `InLayout` — every section of every object lies in its region.
* `Reached` — a relocation the last loop gets to, and the layout it finds.

## Main results

* `link_ne_outOfRange` — linking accesses nothing outside a list.
* `not_outOfBounds_of_reached` — no relocation is out of bounds.
* `files_in_range` — both, for the objects a reader accepts, and the readers.
-/

namespace MiniTool
namespace Linker

open Object Binary

/-! ### Where the sections are -/

/-- The section has no placement, or lies in its region. -/
def InRegion (regions : List Region) (input : Section) : Option Placement → Prop
  | none => input.type = .null
  | some placement => ∃ region, regions[placement.region]? = some region ∧
      placement.offset.toNat + input.size.toNat ≤ region.size.toNat

/-- Every section of every object lies in its region. -/
structure InLayout (objects : List ObjectFile) (layout : Layout) : Prop where
  rows : List.Forall₂ (fun object => List.Forall₂ (InRegion layout.regions) object.sections) objects
    layout.placements
  sound : ∀ region ∈ layout.regions, region.Sound

theorem inLayout_of_mergeSections {options : LinkOptions} {objects : List ObjectFile}
    {layout : Layout} (h : mergeSections options objects = .ok layout) :
    InLayout objects layout where
  rows := by
    refine (placedAt_of_mergeSections h).imp fun object placed hrow => hrow.imp ?_
    intro input placement hplaced
    cases placement with
    | none => exact hplaced
    | some placement =>
      obtain ⟨-, region, hregion, -, hin, -⟩ := hplaced
      exact ⟨region, hregion, hin⟩
  sound := (merged_of_mergeSections h).sound

/-- Other bytes in the regions move nothing. -/
theorem InLayout.patched {objects : List ObjectFile} {layout layout' : Layout}
    (h : InLayout objects layout) (hpatched : layout.Patched layout') :
    InLayout objects layout' where
  rows := by
    rw [hpatched.placements]
    refine h.rows.imp fun object placed hrow => hrow.imp ?_
    intro input placement hin
    cases placement with
    | none => exact hin
    | some placement =>
      obtain ⟨region, hregion, hle⟩ := hin
      obtain ⟨after, hafter, hone⟩ := hpatched.getElem?_left hregion
      exact ⟨after, hafter, by rw [hone.size]; exact hle⟩
  sound := by
    intro region hregion
    obtain ⟨i, hi⟩ := List.mem_iff_getElem?.mp hregion
    obtain ⟨before, hbefore, hone⟩ := hpatched.getElem? hi
    exact hone.sound (h.sound before (List.mem_of_getElem? hbefore))

theorem elementAt_eq_ok {α : Type} {xs : List α} {i : ℕ} {x : α} (h : xs[i]? = some x) :
    elementAt xs i = .ok x := by
  unfold elementAt
  rw [h]

/-- A section of an object has a placement. -/
theorem InLayout.placement {objects : List ObjectFile} {layout : Layout}
    (h : InLayout objects layout) {i : ℕ} {object : ObjectFile}
    (hobject : objects[i]? = some object) {k : ℕ} {s : Section}
    (hsection : object.sections[k]? = some s) :
    ∃ placed placement, layout.placements[i]? = some placed ∧ placed[k]? = some placement ∧
      InRegion layout.regions s placement := by
  obtain ⟨hi, rfl⟩ := List.getElem?_eq_some_iff.mp hobject
  obtain ⟨hk, rfl⟩ := List.getElem?_eq_some_iff.mp hsection
  have hi' : i < layout.placements.length := by
    rw [← h.rows.length_eq]
    exact hi
  have hrow := h.rows.get hi hi'
  have hk' : k < layout.placements[i].length := lt_of_lt_of_eq hk hrow.length_eq
  exact ⟨_, _, List.getElem?_eq_getElem hi', List.getElem?_eq_getElem hk', hrow.get hk hk'⟩

/-! ### The stages -/

section

variable {objects : List ObjectFile} {layout : Layout} {i : ℕ} {object : ObjectFile}

theorem addressOf_ne_outOfRange (h : InLayout objects layout) (hobject : objects[i]? = some object)
    (symbol : Symbol) : addressOf layout i object symbol ≠ .error .outOfRange := by
  unfold addressOf
  split_ifs with hsection
  · nofun
  · rw [ge_iff_le, not_le] at hsection
    obtain ⟨placed, placement, hplaced, hplacement, hin⟩ :=
      h.placement hobject (List.getElem?_eq_getElem hsection)
    rw [elementAt_eq_ok hplaced, Checked.ok_bind, elementAt_eq_ok hplacement, Checked.ok_bind]
    cases placement with
    | none => nofun
    | some placement =>
      obtain ⟨region, hregion, -⟩ := hin
      dsimp only
      rw [elementAt_eq_ok hregion]
      nofun

theorem addDefinition_ne_outOfRange (symbols : Symbols) (name : Str) (definition : Definition) :
    addDefinition symbols name definition ≠ .error .outOfRange := by
  unfold addDefinition
  split
  · nofun
  · split_ifs <;> nofun

theorem defineSymbol_ne_outOfRange (h : InLayout objects layout)
    (hobject : objects[i]? = some object) (symbols : Symbols) (symbol : Symbol) :
    defineSymbol layout i object symbols symbol ≠ .error .outOfRange := by
  unfold defineSymbol
  by_cases hdefined : symbol.defined = true
  · rw [if_pos hdefined]
    refine Checked.bind_ne_error (addressOf_ne_outOfRange h hobject symbol) fun address _ => ?_
    dsimp only
    split_ifs
    · nofun
    · exact addDefinition_ne_outOfRange _ _ _
  · rw [if_neg hdefined]
    nofun

theorem checkReference_ne_outOfRange (i : ℕ) (object : ObjectFile)
    (definitions : List (Str × Definition)) (symbol : Symbol) :
    checkReference i object definitions symbol ≠ .error .outOfRange := by
  unfold checkReference
  split_ifs <;> nofun

theorem forSymbols_ne_outOfRange {σ : Type}
    {step : ℕ → ObjectFile → σ → Symbol → Except LinkError σ}
      (hstep : ∀ i object, objects[i]? = some object → ∀ state symbol, step i object state symbol ≠
        .error .outOfRange) (state : σ) :
    forSymbols step objects state ≠ .error .outOfRange := by
  refine Checked.foldlM_ne_error_of (p := fun _ => True) (fun _ _ _ _ _ _ => trivial) ?_ trivial
  rintro state ⟨object, i⟩ hmem -
  have hobject : objects[i]? = some object := List.mk_mem_zipIdx_iff_getElem?.mp hmem
  exact Checked.foldlM_ne_error (hstep i object hobject) _ state

theorem resolveSymbols_ne_outOfRange (h : InLayout objects layout) :
    resolveSymbols layout objects ≠ .error .outOfRange := by
  unfold resolveSymbols
  refine Checked.bind_ne_error (forSymbols_ne_outOfRange (fun i object hobject =>
    defineSymbol_ne_outOfRange h hobject) {}) fun symbols _ => ?_
  have hcheck : forSymbols checkReference objects symbols.definitions ≠ .error .outOfRange :=
    forSymbols_ne_outOfRange (fun i object _ => checkReference_ne_outOfRange i object) _
  refine Checked.bind_ne_error hcheck fun definitions _ => ?_
  nofun

theorem targetOf_ne_outOfRange (h : InLayout objects layout) (hobject : objects[i]? = some object)
    (symbols : Symbols) (symbol : Symbol) :
    targetOf layout symbols i object symbol ≠ .error .outOfRange := by
  unfold targetOf
  split_ifs
  · exact addressOf_ne_outOfRange h hobject symbol
  · split <;> nofun

theorem relocate_ne_outOfRange (h : InLayout objects layout) (hobject : objects[i]? = some object)
    (symbols : Symbols) (relocation : Relocation) :
    relocate symbols i object layout relocation ≠ .error .outOfRange := by
  unfold relocate
  split_ifs with hindices
  · nofun
  · rw [not_or, ge_iff_le, ge_iff_le, not_le, not_le] at hindices
    obtain ⟨hsection, hsymbol⟩ := hindices
    obtain ⟨placed, placement, hplaced, hplacement, hin⟩ :=
      h.placement hobject (List.getElem?_eq_getElem hsection)
    rw [elementAt_eq_ok hplaced, Checked.ok_bind, elementAt_eq_ok hplacement, Checked.ok_bind]
    cases placement with
    | none => nofun
    | some placement =>
      obtain ⟨region, hregion, -⟩ := hin
      dsimp only
      rw [elementAt_eq_ok hregion, Checked.ok_bind]
      split_ifs
      · nofun
      · rw [elementAt_eq_ok (List.getElem?_eq_getElem hsymbol), Checked.ok_bind]
        refine Checked.bind_ne_error (targetOf_ne_outOfRange h hobject symbols _)
          fun address _ => ?_
        split
        · next hnone => exact absurd hnone applyRelocation_ne_none
        · nofun
        · nofun

theorem addDebugEntry_ne_outOfRange (h : InLayout objects layout)
    (hobject : objects[i]? = some object) (info : DebugInfo) (entry : DebugEntry) :
    addDebugEntry layout i object info entry ≠ .error .outOfRange := by
  unfold addDebugEntry
  split_ifs with hindices
  · nofun
  · rw [not_or, ge_iff_le, ge_iff_le, not_le, not_le] at hindices
    obtain ⟨hsection, hfile⟩ := hindices
    obtain ⟨placed, placement, hplaced, hplacement, hin⟩ :=
      h.placement hobject (List.getElem?_eq_getElem hsection)
    rw [elementAt_eq_ok hplaced, Checked.ok_bind, elementAt_eq_ok hplacement, Checked.ok_bind]
    cases placement with
    | none => nofun
    | some placement =>
      obtain ⟨region, hregion, -⟩ := hin
      dsimp only
      rw [elementAt_eq_ok (List.getElem?_eq_getElem hfile), Checked.ok_bind,
        elementAt_eq_ok hregion, Checked.ok_bind]
      nofun

end

/-! ### Relocations -/

/-- The loop over the relocations of one object. -/
def relocateObject (symbols : Symbols) (layout : Layout) (entry : ObjectFile × ℕ) :
    Except LinkError Layout :=
  entry.1.relocations.foldlM (relocate symbols entry.2 entry.1) layout

/-- A relocation that the loops get to, and the layout it finds. -/
def Reached (symbols : Symbols) (objects : List ObjectFile) (start : Layout) (i : ℕ)
    (object : ObjectFile) (relocation : Relocation) (layout : Layout) : Prop :=
  ∃ before after done rest between, objects.zipIdx = before ++ (object, i) :: after ∧
    object.relocations = done ++ relocation :: rest ∧
    before.foldlM (relocateObject symbols) start = .ok between ∧
    done.foldlM (relocate symbols i object) between = .ok layout

section

variable {options : LinkOptions} {objects : List ObjectFile} {symbols : Symbols}
  {start layout : Layout} {i : ℕ} {object : ObjectFile} {relocation : Relocation}

theorem patched_of_relocateObject {layout' : Layout} {entry : ObjectFile × ℕ}
    (h : start.Patched layout) (hstep : relocateObject symbols layout entry = .ok layout') :
    start.Patched layout' :=
  Checked.foldlM_induction (p := start.Patched)
    (fun _ _ _ _ hkeep hone => hkeep.relocate hone) h hstep

theorem Reached.patched (h : Reached symbols objects start i object relocation layout) :
    start.Patched layout := by
  obtain ⟨before, after, done, rest, between, -, -, hbefore, hdone⟩ := h
  have hbetween := Checked.foldlM_induction (p := start.Patched)
    (fun _ _ _ _ hkeep hone => patched_of_relocateObject hkeep hone) (.refl start) hbefore
  exact Checked.foldlM_induction (p := start.Patched)
    (fun _ _ _ _ hkeep hone => hkeep.relocate hone) hbetween hdone

theorem Reached.mem (h : Reached symbols objects start i object relocation layout) :
    objects[i]? = some object ∧ relocation ∈ object.relocations := by
  obtain ⟨before, after, done, rest, -, hobjects, hrelocations, -, -⟩ := h
  refine ⟨List.mk_mem_zipIdx_iff_getElem?.mp ?_, ?_⟩
  · rw [hobjects]
    simp
  · rw [hrelocations]
    simp

/-- Merging keeps the field of a relocation in the region: the section was checked to hold the
field, and the region holds the section. -/
theorem not_outOfBounds_of_reached (hwf : ∀ o ∈ objects, o.WellFormed)
    (hmerge : mergeSections options objects = .ok start)
    (hreached : Reached symbols objects start i object relocation layout)
    {placed : List (Option Placement)} {placement : Placement} {region : Region} {address : UInt64}
    (hplaced : layout.placements[i]? = some placed)
    (hplacement : placed[relocation.sectionId.toNat]? = some (some placement))
    (hregion : layout.regions[placement.region]? = some region)
    (hzero : region.zeroFilled = false) :
    applyRelocation region.data region.base
      { relocation with offset := placement.offset + relocation.offset } address ≠
        some (.error .outOfBounds) := by
  obtain ⟨hobject, hmem⟩ := hreached.mem
  have hin := (inLayout_of_mergeSections hmerge).patched hreached.patched
  have hobjectWf := hwf object (List.mem_of_getElem? hobject)
  obtain ⟨-, s, hsection, hfits⟩ := hobjectWf.relocations relocation hmem
  have hmemory := hobjectWf.memory s (List.mem_of_getElem? hsection)
  obtain ⟨placed', placement', hplaced', hplacement', hregion'⟩ := hin.placement hobject hsection
  rw [hplaced] at hplaced'
  cases hplaced'
  rw [hplacement] at hplacement'
  cases hplacement'
  obtain ⟨region', hregion', hle⟩ := hregion'
  rw [hregion] at hregion'
  cases hregion'
  have hsound := hin.sound region (List.mem_of_getElem? hregion)
  have hdata := hsound.data hzero
  have hcap : kRegionSize.toNat = 0xF0000 := rfl
  have hsize := hsound.size_le
  apply applyRelocation_ne_outOfBounds
  show (placement.offset + relocation.offset).toNat + relocationWidth relocation.type ≤ _
  rw [UInt64.toNat_add, Nat.mod_eq_of_lt (by omega)]
  omega

end

/-! ### Linking -/

theorem zipIdx_ne_outOfRange {σ : Type} {objects : List ObjectFile} {p : σ → Prop}
    {step : σ → ObjectFile × ℕ → Except LinkError σ}
    (hkeep : ∀ state entry state', p state → step state entry = .ok state' → p state')
    (hstep : ∀ state i object, objects[i]? = some object → p state →
      step state (object, i) ≠ .error .outOfRange) {state : σ} (hstate : p state) :
    objects.zipIdx.foldlM step state ≠ .error .outOfRange := by
  refine Checked.foldlM_ne_error_of (p := p) (fun s x s' _ => hkeep s x s') ?_ hstate
  rintro state ⟨object, i⟩ hmem hp
  exact hstep state i object (List.mk_mem_zipIdx_iff_getElem?.mp hmem) hp

theorem applyRelocations_ne_outOfRange {objects : List ObjectFile} {layout : Layout}
    (h : InLayout objects layout) (symbols : Symbols) :
    applyRelocations symbols objects layout ≠ .error .outOfRange := by
  refine zipIdx_ne_outOfRange (p := layout.Patched)
    (fun _ _ _ hkeep hone => patched_of_relocateObject hkeep hone) ?_ (.refl layout)
  intro state i object hobject hstate
  exact Checked.foldlM_ne_error_of (p := layout.Patched)
    (fun _ _ _ _ hkeep hone => hkeep.relocate hone)
    (fun _ relocation _ hkeep =>
      relocate_ne_outOfRange (h.patched hkeep) hobject symbols relocation) hstate

theorem buildDebugInfo_ne_outOfRange {objects : List ObjectFile} {layout : Layout}
    (h : InLayout objects layout) : buildDebugInfo layout objects ≠ .error .outOfRange := by
  unfold buildDebugInfo
  refine Checked.bind_ne_error (zipIdx_ne_outOfRange (p := fun _ => True) (fun _ _ _ _ _ => trivial)
    (fun state i object hobject _ => ?_) trivial) fun info _ => ?_
  · exact Checked.foldlM_ne_error (addDebugEntry_ne_outOfRange h hobject) object.debugInfo state
  · nofun

theorem buildExecutable_ne_outOfRange {objects : List ObjectFile} {layout : Layout}
    (h : InLayout objects layout) (options : LinkOptions) (symbols : Symbols) :
    buildExecutable options layout symbols objects ≠ .error .outOfRange := by
  unfold buildExecutable
  split
  · nofun
  · refine Checked.bind_ne_error (buildDebugInfo_ne_outOfRange h) fun info _ => ?_
    dsimp only
    split <;> nofun

/-- Linking accesses nothing outside a list. -/
theorem link_ne_outOfRange (objects : List ObjectFile) (options : LinkOptions) :
    link objects options ≠ .error .outOfRange := by
  unfold link
  split_ifs
  · nofun
  · refine Checked.bind_ne_error (mergeSections_ne_outOfRange options objects)
      fun layout hmerge => ?_
    have hin := inLayout_of_mergeSections hmerge
    refine Checked.bind_ne_error (resolveSymbols_ne_outOfRange hin) fun symbols _ => ?_
    refine Checked.bind_ne_error (applyRelocations_ne_outOfRange hin symbols)
      fun patched hpatch => ?_
    exact buildExecutable_ne_outOfRange (hin.patched (patched_of_applyRelocations hpatch)) _ _

/-- No relocation of a link is out of bounds. -/
def NoneOutOfBounds (objects : List ObjectFile) (options : LinkOptions) : Prop :=
  ∀ start symbols, mergeSections options objects = .ok start →
    resolveSymbols start objects = .ok symbols →
    ∀ i object relocation layout, Reached symbols objects start i object relocation layout →
    ∀ placed placement region address, layout.placements[i]? = some placed →
      placed[relocation.sectionId.toNat]? = some (some placement) →
      layout.regions[placement.region]? = some region → region.zeroFilled = false →
      applyRelocation region.data region.base
        { relocation with offset := placement.offset + relocation.offset } address ≠
          some (.error .outOfBounds)

/-- Reading any bytes stays in range, and so does linking any objects that were read. -/
theorem files_in_range :
    (∀ buffer, InRange (Object.Ranged.readObjectFromBuffer buffer) (readObjectFromBuffer buffer)) ∧
    (∀ buffer, InRange (Executable.Ranged.readExecutableFromBuffer buffer)
      (Executable.readExecutableFromBuffer buffer)) ∧
    ∀ objects, (∀ o ∈ objects, ∃ buffer, readObjectFromBuffer buffer = .ok o) →
      link objects {} ≠ .error .outOfRange ∧ NoneOutOfBounds objects {} := by
  refine ⟨readObjectFromBuffer_inRange, Executable.readExecutableFromBuffer_inRange, ?_⟩
  intro objects hread
  have hwf : ∀ o ∈ objects, o.WellFormed := by
    intro o ho
    obtain ⟨buffer, hbuffer⟩ := hread o ho
    exact wellFormed_of_read hbuffer
  refine ⟨link_ne_outOfRange objects {}, ?_⟩
  intro start symbols hmerge _ i object relocation layout hreached placed placement region address
    hplaced hplacement hregion hzero
  exact not_outOfBounds_of_reached hwf hmerge hreached hplaced hplacement hregion hzero

/-- `_start: JMP _start` as an object file. -/
def jumpObject : ObjectFile where
  sections := [
    {},
    { name := str ".text", type := .text, flags := SectionFlags.alloc ||| SectionFlags.exec,
      alignment := 8, data := [0, 0, 0, 0, 0, 0, 0, 0x50], size := 8, index := 1 }]
  symbols := haltObject.symbols
  relocations := [{ sectionId := 1, offset := 0, type := .pcrel48, symbol := 0, addend := 0 }]

theorem files_in_range_jump :
    link [jumpObject] {} ≠ .error .outOfRange ∧ NoneOutOfBounds [jumpObject] {} := by
  have hok : (writeObjectToBuffer jumpObject).isOk = true := by decide +kernel
  have hwf : jumpObject.WellFormed :=
    ⟨rfl, by decide, by decide, by decide, by decide, by decide⟩
  have hnames : jumpObject.NulFreeNames := ⟨by decide, by decide, by decide⟩
  refine files_in_range.2.2 [jumpObject] fun o ho => ?_
  rw [List.mem_singleton.mp ho]
  cases hwrite : writeObjectToBuffer jumpObject with
  | error e =>
    rw [hwrite] at hok
    cases hok
  | ok b => exact ⟨b, readObject_writeObject hwf hnames hwrite⟩

end Linker
end MiniTool
