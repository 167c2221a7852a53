import MiniToolchain.Linker.Conflicts
import MiniToolchain.Linker.Relocated

/-!
# The order of the objects

What can go wrong in a link of well-formed objects, other than that something does not fit, is
decided by the objects one by one and by their symbols.  So another order of the objects goes wrong
in the same way, except for the entry point: an order can put something behind a label that ends its
section.

## Main definitions

* `Linkable` — what the linker relies on in an object.
* `Overflows` — the error of what does not fit.
* `Readable` — a relocation finds an instruction where it needs one.
* `RelocationFits` — the value of a relocation fits its field.
* `EntryUsable` — the entry point can be one.

## Main results

* `readable_of_applyRelocations` — the relocations of a link that succeeds can be read.
* `overflows_of_applyRelocations` — relocations that can be read fail only because a value does not
  fit.
* `exists_applyRelocations` — relocations whose values fit are applied.
-/

namespace MiniTool
namespace Linker

open Object Bounds

/-- Something does not fit: a region is full, or a value is out of range. -/
def Overflows (e : LinkError) : Prop := ∃ d, e = .failed d ∧ d.code = .relocationOverflow

/-- What the linker relies on in an object. -/
structure Linkable (o : ObjectFile) : Prop where
  wellFormed : o.WellFormed
  laidOut : ∀ s ∈ o.sections, s.type ≠ .null
  aligned : ∀ s ∈ o.sections, 8 ∣ s.alignment.toNat
  zeros : ∀ s ∈ o.sections, s.type = .bss → s.data = []
  plain : ∀ s ∈ o.symbols.symbols, Offered s = true → s.binding = .global ∨ s.binding = .weak
  values : ∀ s ∈ o.symbols.symbols, s.defined = true →
    ∃ input, o.sections[s.sectionId.toNat]? = some input ∧ s.value.toNat ≤ input.size.toNat
  fieldsApart : o.relocations.Pairwise FieldsApart

section

variable {options : LinkOptions} {objects : List ObjectFile} {start layout : Layout}

theorem plainBindings_of_linkable (h : ∀ o ∈ objects, Linkable o) : PlainBindings objects :=
  fun o ho => (h o ho).plain

/-! ### Merging -/

/-- There is a region for everything that is laid out. -/
theorem exists_region {regions : List Region}
    (h : List.Forall₂ Region.Same (initRegions options) regions) {type : SectionType}
    (htype : type ≠ .null) : regionIndexFor regions type ≠ regions.length := by
  have htypes : regions.map Region.type = [.text, .rodata, .data, .bss] := by
    have hsame : ∀ {xs ys : List Region}, List.Forall₂ Region.Same xs ys →
        ys.map Region.type = xs.map Region.type := by
      intro xs ys hall
      induction hall with
      | nil => rfl
      | cons hone _ ih => rw [List.map_cons, List.map_cons, ih, hone.type]
    exact hsame h
  have hmem : type ∈ regions.map Region.type := by
    rw [htypes]
    cases type with
    | null => exact absurd rfl htype
    | _ => decide
  obtain ⟨region, hregion, rfl⟩ := List.mem_map.mp hmem
  unfold regionIndexFor
  have hlt := List.findIdx_lt_length_of_exists
    (p := fun other : Region => decide (other.type = region.type))
    ⟨region, hregion, decide_eq_true rfl⟩
  exact Nat.ne_of_lt hlt

theorem same_of_mergeSection {start : List Region}
    {state state' : List Region × List (Option Placement)} {input : Section}
    (h : List.Forall₂ Region.Same start state.1) (hstep : mergeSection state input = .ok state') :
    List.Forall₂ Region.Same start state'.1 := by
  rcases mergeSection_cases hstep with ⟨-, heq, -⟩ | ⟨-, _, region, hregion, -, -, -, heq, -⟩
  · rw [heq]
    exact h
  · rw [heq]
    exact forall₂_same_set h hregion (region.same_append input _)

/-- Merging fails only because a region is full. -/
theorem overflows_of_mergeSections {e : LinkError} (h : mergeSections options objects = .error e) :
    Overflows e := by
  by_contra hnot
  refine Checked.foldlM_ne_error_of
    (p := fun layout : Layout => List.Forall₂ Region.Same (initRegions options) layout.regions)
    ?_ ?_ (merged_nil options).same h
  · intro layout object layout' _ hsame hstep
    unfold mergeObject at hstep
    obtain ⟨⟨regions, placed⟩, hfold, hstep⟩ := Checked.bind_eq_ok.mp hstep
    cases hstep
    exact Checked.foldlM_induction
      (p := fun state : List Region × List (Option Placement) =>
        List.Forall₂ Region.Same (initRegions options) state.1)
      (fun _ _ _ _ hkeep hone => same_of_mergeSection hkeep hone) hsame hfold
  · intro layout object _ hsame
    unfold mergeObject
    refine Checked.bind_ne_error ?_ fun _ _ => nofun
    refine Checked.foldlM_ne_error_of
      (p := fun state : List Region × List (Option Placement) =>
        List.Forall₂ Region.Same (initRegions options) state.1) ?_ ?_ hsame
    · intro _ _ _ _ hkeep hone
      exact same_of_mergeSection hkeep hone
    · intro state input _ hkeep hfail
      unfold mergeSection at hfail
      dsimp only at hfail
      split_ifs at hfail with hnull hindex
      · exact exists_region hkeep hnull hindex
      · have hlt : regionIndexFor state.1 input.type < state.1.length :=
          lt_of_le_of_ne List.findIdx_le_length hindex
        rw [elementAt_eq_ok (List.getElem?_eq_getElem hlt), Checked.ok_bind] at hfail
        split_ifs at hfail
        cases hfail
        exact hnot ⟨_, rfl, rfl⟩

/-- Every section is put at a multiple of 8. -/
theorem dvd_placement (h : ∀ o ∈ objects, Linkable o)
    (hmerge : mergeSections options objects = .ok layout) {i k : ℕ} {placement : Placement}
    (hplacement : layout.placementAt i k = some placement) : 8 ∣ placement.offset.toNat := by
  obtain ⟨placed, hplaced, hk⟩ := placementAt_eq_some.mp hplacement
  have hrows := alignedAt_of_mergeSections hmerge
  obtain ⟨hi, rfl⟩ := List.getElem?_eq_some_iff.mp hplaced
  have hlength := hrows.length_eq
  have hrow := (hrows.get (by omega) hi).length_eq
  obtain ⟨hlt, -⟩ := List.getElem?_eq_some_iff.mp hk
  -- the section in front of the placement
  have hobject := List.getElem?_eq_getElem (show i < objects.length by omega)
  have hsection := List.getElem?_eq_getElem (show k < objects[i].sections.length by
    have hrow : objects[i].sections.length = layout.placements[i].length := hrow
    omega)
  have hmem := List.mem_of_getElem? hsection
  have hlinkable := h _ (List.mem_of_getElem? hobject)
  exact of_placement hrows hobject hsection hplacement placement rfl
    (hlinkable.wellFormed.alignment _ hmem).1 8 (by norm_num) (hlinkable.aligned _ hmem)

/-- A section of an object is put in a region of its type. -/
theorem exists_placement (h : ∀ o ∈ objects, Linkable o)
    (hmerge : mergeSections options objects = .ok start) (hpatched : start.Patched layout) {i k : ℕ}
    {o : ObjectFile} {input : Section} (hobject : objects[i]? = some o)
    (hinput : o.sections[k]? = some input) :
    ∃ placed placement region, layout.placements[i]? = some placed ∧
      placed[k]? = some (some placement) ∧ start.placementAt i k = some placement ∧
      layout.regions[placement.region]? = some region ∧ region.type = input.type ∧
      placement.offset.toNat + input.size.toNat ≤ region.size.toNat ∧
      region.zeroFilled = decide (input.type = .bss) := by
  obtain ⟨placed, found, hplaced, hfound, hin⟩ :=
    (inLayout_of_mergeSections hmerge).placement hobject hinput
  cases found with
  | none =>
    exact absurd hin ((h o (List.mem_of_getElem? hobject)).laidOut input
      (List.mem_of_getElem? hinput))
  | some placement =>
    have hat : start.placementAt i k = some placement :=
      placementAt_eq_some.mpr ⟨placed, hplaced, hfound⟩
    obtain ⟨-, region, hregion, htype, hle, -⟩ := placedAt_of_placement hmerge hobject hinput hat
    obtain ⟨after, hafter, hone⟩ := hpatched.getElem?_left hregion
    have hzero := zeroFilled_of_same (merged_of_mergeSections hmerge).same
      (List.mem_of_getElem? hregion)
    refine ⟨placed, placement, after, ?_, hfound, hat, hafter, hone.same.type.trans htype, ?_, ?_⟩
    · rw [hpatched.placements]
      exact hplaced
    · rw [hone.size]
      exact hle
    · rw [hone.same.zeroFilled, hzero, htype]

/-- A definition has an address. -/
theorem exists_addressOf (h : ∀ o ∈ objects, Linkable o)
    (hmerge : mergeSections options objects = .ok start) (hpatched : start.Patched layout) {i : ℕ}
    {o : ObjectFile} {s : Symbol} (hobject : objects[i]? = some o) (hs : s ∈ o.symbols.symbols)
    (hdefined : s.defined = true) : ∃ address, addressOf layout i o s = .ok address := by
  obtain ⟨input, hinput, -⟩ := (h o (List.mem_of_getElem? hobject)).values s hs hdefined
  obtain ⟨placed, placement, region, hplaced, hplacement, -, hregion, -⟩ :=
    exists_placement h hmerge hpatched hobject hinput
  have hlt := (List.getElem?_eq_some_iff.mp hinput).1
  unfold addressOf
  rw [if_neg (not_le.mpr hlt), elementAt_eq_ok hplaced, Checked.ok_bind, elementAt_eq_ok hplacement,
    Checked.ok_bind]
  dsimp only
  rw [elementAt_eq_ok hregion]
  exact ⟨_, rfl⟩

/-! ### Relocations -/

/-- A relocation finds an instruction where it needs one. -/
def Readable (o : ObjectFile) (r : Relocation) : Prop :=
  ∃ input field, o.sections[r.sectionId.toNat]? = some input ∧
    subspan (resize input.data input.size.toNat) r.offset.toNat (relocationWidth r.type) =
      some field ∧
    Reads r.type field r.offset

/-- The section of a relocation stores what the relocation patches. -/
theorem Linkable.exists_section {o : ObjectFile} (h : Linkable o) {r : Relocation}
    (hr : r ∈ o.relocations) : ∃ input, o.sections[r.sectionId.toNat]? = some input ∧
      input.type ≠ .bss ∧ r.offset.toNat + relocationWidth r.type ≤ input.size.toNat := by
  obtain ⟨-, input, hinput, hle⟩ := h.wellFormed.relocations r hr
  have hmem := List.mem_of_getElem? hinput
  refine ⟨input, hinput, ?_, hle.trans (h.wellFormed.memory input hmem)⟩
  intro hbss
  have hwidth : 0 < relocationWidth r.type := by
    cases r.type <;> decide
  rw [h.zeros input hmem hbss, List.length_nil] at hle
  omega

/-- Where a relocation is in the image, and what is there before it. -/
theorem fieldOf_eq (h : ∀ o ∈ objects, Linkable o)
    (hmerge : mergeSections options objects = .ok start) {i : ℕ} {o : ObjectFile}
    (hobject : objects[i]? = some o) {r : Relocation} (hr : r ∈ o.relocations) :
    ∃ input placement, o.sections[r.sectionId.toNat]? = some input ∧
      start.placementAt i r.sectionId.toNat = some placement ∧
      (placement.offset + r.offset).toNat = placement.offset.toNat + r.offset.toNat ∧
      fieldOf start ((o, i), r) =
        { region := placement.region, offset := (placement.offset + r.offset).toNat
          width := relocationWidth r.type } ∧
      (fieldOf start ((o, i), r)).read start =
        subspan (resize input.data input.size.toNat) r.offset.toNat (relocationWidth r.type) := by
  obtain ⟨input, hinput, hbss, hle⟩ := (h o (List.mem_of_getElem? hobject)).exists_section hr
  obtain ⟨_, placement, -, -, -, hat, -⟩ := exists_placement h hmerge (.refl start) hobject hinput
  obtain ⟨-, region, hregion, htype, hfits, hdata⟩ :=
    placedAt_of_placement hmerge hobject hinput hat
  have hzero := zeroFilled_of_same (merged_of_mergeSections hmerge).same
    (List.mem_of_getElem? hregion)
  rw [htype, decide_eq_false hbss] at hzero
  have hcap : kRegionSize.toNat = 0xF0000 := rfl
  have hsize := ((merged_of_mergeSections hmerge).sound region
    (List.mem_of_getElem? hregion)).size_le
  have hsum : (placement.offset + r.offset).toNat = placement.offset.toNat + r.offset.toNat := by
    rw [UInt64.toNat_add, Nat.mod_eq_of_lt (by omega)]
  have hfield : fieldOf start ((o, i), r) =
      { region := placement.region, offset := (placement.offset + r.offset).toNat
        width := relocationWidth r.type } := by
    unfold fieldOf
    rw [hat]
  refine ⟨input, placement, hinput, hat, hsum, hfield, ?_⟩
  rw [hfield]
  unfold Field.read
  dsimp only
  rw [hregion, Option.bind_some, hsum]
  exact subspan_of_subspan (hdata hzero) hle

/-- Putting a section at a multiple of 8 does not change what its relocations find. -/
theorem reads_add {type : RelocationType} {field : List UInt8} {a b : UInt64} (ha : 8 ∣ a.toNat)
    (hsum : (a + b).toNat = a.toNat + b.toNat) : Reads type field (a + b) ↔ Reads type field b := by
  have hmod : (a + b).toNat % Isa.kInstructionSize = b.toNat % Isa.kInstructionSize := by
    rw [hsum, Nat.add_mod, Nat.mod_eq_zero_of_dvd ha, Nat.zero_add, Nat.mod_mod]
  unfold Reads
  rw [hmod]

/-- The relocations of a link that succeeds can be read. -/
theorem readable_of_applyRelocations (h : ∀ o ∈ objects, Linkable o)
    (hmerge : mergeSections options objects = .ok start) {symbols : Symbols} {patched : Layout}
    (hpatch : applyRelocations symbols objects start = .ok patched) :
    ∀ o ∈ objects, ∀ r ∈ o.relocations, Readable o r := by
  intro o ho r hr
  obtain ⟨i, hobject⟩ := List.mem_iff_getElem?.mp ho
  obtain ⟨input, placement, hinput, hat, hsum, hfield, hread⟩ := fieldOf_eq h hmerge hobject hr
  have ht : ((o, i), r) ∈ turns objects := mem_turns.mpr ⟨hobject, hr⟩
  rw [applyRelocations_eq] at hpatch
  obtain ⟨before, after, hbefore, hturn, hfound, -⟩ := (framed_turn symbols start).exists_turn
    (separate_turns hmerge (fun o ho => (h o ho).wellFormed) fun o ho => (h o ho).fieldsApart)
    (.refl start) hpatch ht
  obtain ⟨placed, placement', region, symbol, target, data, hplaced, hplacement', hregion, -, -, -,
    happly, -⟩ := relocate_cases hturn
  have hat' : start.placementAt i r.sectionId.toNat = some placement' := by
    rw [hbefore.placements] at hplaced
    exact placementAt_eq_some.mpr ⟨placed, hplaced, hplacement'⟩
  rw [hat] at hat'
  cases hat'
  obtain ⟨field, bytes, hsub, hok, -⟩ := applyRelocation_eq_ok happly
  refine ⟨input, field, hinput, ?_, ?_⟩
  · rw [← hread, ← hfound, hfield]
    unfold Field.read
    dsimp only
    rw [hregion, Option.bind_some]
    exact hsub
  · exact (reads_add (dvd_placement h hmerge hat) hsum).mp
      (reads_of_patchField (length_of_subspan hsub) hok)

/-- A relocation whose field is as it was has everything it needs, so that it fails only because of
what it finds there. -/
theorem error_of_turn (h : ∀ o ∈ objects, Linkable o)
    (hmerge : mergeSections options objects = .ok start) {symbols : Symbols}
    (hresolve : resolveSymbols start objects = .ok symbols) {i : ℕ} {o : ObjectFile}
    (hobject : objects[i]? = some o) {r : Relocation} (hr : r ∈ o.relocations)
    (hpatched : start.Patched layout)
    (hfound : (fieldOf start ((o, i), r)).read layout = (fieldOf start ((o, i), r)).read start) :
    ∃ input placement region symbol address,
      o.sections[r.sectionId.toNat]? = some input ∧
      start.placementAt i r.sectionId.toNat = some placement ∧
      (placement.offset + r.offset).toNat = placement.offset.toNat + r.offset.toNat ∧
      layout.regions[placement.region]? = some region ∧
      o.symbols.symbols[r.symbol]? = some symbol ∧
      targetOf layout symbols i o symbol = .ok address ∧
      subspan region.data (placement.offset + r.offset).toNat (relocationWidth r.type) =
        subspan (resize input.data input.size.toNat) r.offset.toNat (relocationWidth r.type) ∧
      ∀ e, turn symbols layout ((o, i), r) = .error e → ∃ e' d,
        applyRelocation region.data region.base { r with offset := placement.offset + r.offset }
          address = some (.error e') ∧ e = .failed d ∧
        d.code = if e' = .overflow then .relocationOverflow else .invalidRelocation := by
  have hone := h o (List.mem_of_getElem? hobject)
  obtain ⟨hlt, -⟩ := hone.wellFormed.relocations r hr
  obtain ⟨input, hinput, hbss, -⟩ := hone.exists_section hr
  obtain ⟨input', placement, hinput', hat, hsum, hfield, hread⟩ := fieldOf_eq h hmerge hobject hr
  rw [hinput] at hinput'
  cases hinput'
  obtain ⟨placed, placement', region, hplaced, hplacement, hat', hregion, -, -, hzero⟩ :=
    exists_placement h hmerge hpatched hobject hinput
  rw [hat] at hat'
  cases hat'
  rw [decide_eq_false hbss] at hzero
  have hsymbol := List.getElem?_eq_getElem hlt
  have hmem := List.mem_of_getElem? hsymbol
  -- the symbol of a relocation has an address
  have htarget : ∃ address, targetOf layout symbols i o o.symbols.symbols[r.symbol] =
      .ok address := by
    unfold targetOf
    by_cases hprivate : o.symbols.symbols[r.symbol].defined = true ∧
        o.symbols.symbols[r.symbol].binding = .local
    · rw [if_pos hprivate]
      exact exists_addressOf h hmerge hpatched hobject hmem hprivate.1
    · rw [if_neg hprivate]
      have hv : ((o, i), o.symbols.symbols[r.symbol]) ∈ visits objects :=
        List.mem_flatMap.mpr ⟨(o, i), List.mem_zipIdx_iff_getElem?.mpr hobject,
          List.mem_map_of_mem hmem⟩
      obtain ⟨d, hd⟩ := Option.ne_none_iff_exists'.mp
        (lookup_of_resolveSymbols (plainBindings_of_linkable h) hresolve hv hprivate)
      rw [hd]
      exact ⟨_, rfl⟩
  obtain ⟨address, haddress⟩ := htarget
  refine ⟨input, placement, region, _, address, hinput, hat, hsum, hregion, hsymbol, haddress,
    ?_, ?_⟩
  · rw [hread, hfield] at hfound
    unfold Field.read at hfound
    dsimp only at hfound
    rwa [hregion, Option.bind_some] at hfound
  · intro e hturn
    have hchecks : ¬(r.sectionId.toNat ≥ o.sections.length ∨ r.symbol ≥ o.symbols.size) := by
      rw [not_or, ge_iff_le, ge_iff_le, not_le, not_le]
      exact ⟨(List.getElem?_eq_some_iff.mp hinput).1, hlt⟩
    unfold turn relocate at hturn
    dsimp only at hturn
    rw [if_neg hchecks, elementAt_eq_ok hplaced, Checked.ok_bind, elementAt_eq_ok hplacement,
      Checked.ok_bind] at hturn
    dsimp only at hturn
    rw [elementAt_eq_ok hregion, Checked.ok_bind, hzero, if_neg (by decide),
      elementAt_eq_ok hsymbol, Checked.ok_bind, haddress, Checked.ok_bind] at hturn
    split at hturn
    · next hnone => exact absurd hnone applyRelocation_ne_none
    · next e' herror =>
      cases hturn
      exact ⟨e', _, herror, rfl, rfl⟩
    · cases hturn

/-- Relocations that can be read fail only because a value does not fit. -/
theorem overflows_of_applyRelocations (h : ∀ o ∈ objects, Linkable o)
    (hmerge : mergeSections options objects = .ok start) {symbols : Symbols}
    (hresolve : resolveSymbols start objects = .ok symbols)
    (hreadable : ∀ o ∈ objects, ∀ r ∈ o.relocations, Readable o r) {e : LinkError}
    (hfail : applyRelocations symbols objects start = .error e) : Overflows e := by
  by_contra hnot
  rw [applyRelocations_eq] at hfail
  refine (framed_turn symbols start).foldlM_ne_error
    (separate_turns hmerge (fun o ho => (h o ho).wellFormed) fun o ho => (h o ho).fieldsApart)
    (.refl start) ?_ hfail
  rintro ⟨⟨o, i⟩, r⟩ ht layout hpatched hfound hturn
  obtain ⟨hobject, hr⟩ := mem_turns.mp ht
  obtain ⟨input, placement, region, symbol, address, hinput, hat, hsum, -, -, -, hsame, herrors⟩ :=
    error_of_turn h hmerge hresolve hobject hr hpatched hfound
  obtain ⟨e', d, herror, rfl, hcode⟩ := herrors e hturn
  obtain ⟨input', field, hinput', hsub, hreads⟩ :=
    hreadable o (List.mem_of_getElem? hobject) r hr
  rw [hinput] at hinput'
  cases hinput'
  have hoverflow := overflow_of_applyRelocation (hsame.trans hsub)
    ((reads_add (dvd_placement h hmerge hat) hsum).mpr hreads) herror
  rw [hoverflow, if_pos rfl] at hcode
  exact hnot ⟨d, rfl, hcode⟩

/-- The value of a relocation fits its field, where a link puts it. -/
def RelocationFits (options : LinkOptions) (objects : List ObjectFile) (i : ℕ) (o : ObjectFile)
    (r : Relocation) : Prop :=
  ∀ input base symbol address field, o.sections[r.sectionId.toNat]? = some input →
    sectionAddress options objects i r.sectionId.toNat = some base →
    o.symbols.symbols[r.symbol]? = some symbol →
    finalAddress options objects (objects.map fun o => o.symbols.find) i symbol.name =
      some address →
    subspan (resize input.data input.size.toNat) r.offset.toNat (relocationWidth r.type) =
      some field →
    Fits r.type field r.offset (address + r.addend.toUInt64) (base + r.offset)

/-- The offset matters only for where the field of an instruction is. -/
theorem fits_add {type : RelocationType} {field : List UInt8} {a b target place : UInt64}
    (ha : 8 ∣ a.toNat) (hsum : (a + b).toNat = a.toNat + b.toNat)
    (h : Fits type field b target place) : Fits type field (a + b) target place := by
  have hmod : (a + b).toNat % Isa.kInstructionSize = b.toNat % Isa.kInstructionSize := by
    rw [hsum, Nat.add_mod, Nat.mod_eq_zero_of_dvd ha, Nat.zero_add, Nat.mod_mod]
  cases type with
  | imm48 =>
    obtain ⟨haligned, hrest⟩ := h
    exact ⟨hmod.trans haligned, hrest⟩
  | pcrel48 =>
    obtain ⟨haligned, hrest⟩ := h
    exact ⟨hmod.trans haligned, hrest⟩
  | _ => exact h

/-- **Relocations whose values fit are applied.** -/
theorem exists_applyRelocations (h : ∀ o ∈ objects, Linkable o)
    (hmerge : mergeSections options objects = .ok start) {symbols : Symbols}
    (hresolve : resolveSymbols start objects = .ok symbols)
    (hfits : ∀ (i : ℕ) (o : ObjectFile), objects[i]? = some o → ∀ r ∈ o.relocations,
      RelocationFits options objects i o r) :
    ∃ patched, applyRelocations symbols objects start = .ok patched := by
  cases hpatch : applyRelocations symbols objects start with
  | ok patched => exact ⟨patched, rfl⟩
  | error e =>
    exfalso
    rw [applyRelocations_eq] at hpatch
    refine (framed_turn symbols start).foldlM_ne_error
      (separate_turns hmerge (fun o ho => (h o ho).wellFormed) fun o ho => (h o ho).fieldsApart)
      (.refl start) ?_ hpatch
    rintro ⟨⟨o, i⟩, r⟩ ht layout hpatched hfound hturn
    obtain ⟨hobject, hr⟩ := mem_turns.mp ht
    obtain ⟨input, placement, region, symbol, address, hinput, hat, hsum, hregion, hsymbol,
      htarget, hsame, herrors⟩ := error_of_turn h hmerge hresolve hobject hr hpatched hfound
    obtain ⟨e', d, herror, -, -⟩ := herrors e hturn
    -- the field lies in the section, and the section in the region
    have hone := h o (List.mem_of_getElem? hobject)
    obtain ⟨input', hinput', -, hle⟩ := hone.exists_section hr
    rw [hinput] at hinput'
    cases hinput'
    obtain ⟨before, hbefore, hpatchedRegion⟩ := hpatched.getElem? hregion
    have hsub := @Bounds.subspan_of_le _ (resize input.data input.size.toNat) r.offset.toNat
      (relocationWidth r.type) (by rw [length_resize]; exact hle)
    have hbase : sectionAddress options objects i r.sectionId.toNat =
        some (region.base + placement.offset) := by
      unfold sectionAddress
      rw [hmerge]
      dsimp only
      rw [hat, Option.bind_some, hbefore, hpatchedRegion.same.base]
      rfl
    have hfinal := finalAddress_of_targetOf hmerge hpatched (plainBindings_of_linkable h) hresolve
      hobject (SymbolTable.find_of_mem (List.mem_of_getElem? hsymbol)) htarget
    have hvalue := fits_add (dvd_placement h hmerge hat) hsum
      (hfits i o hobject r hr input _ symbol address _ hinput hbase hsymbol hfinal hsub)
    rw [UInt64.add_assoc] at hvalue
    have happlicable : Applicable region.data region.base
        { r with offset := placement.offset + r.offset } address :=
      ⟨_, hsame.trans hsub, hvalue⟩
    obtain ⟨data, hok⟩ := isOk_applyRelocation.mpr happlicable
    rw [hok] at herror
    cases herror

end

end Linker
end MiniTool
