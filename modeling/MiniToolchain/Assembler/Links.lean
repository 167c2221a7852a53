import MiniToolchain.Assembler.Reordered
import MiniToolchain.Assembler.Standalone
import MiniToolchain.Assembler.Success
import MiniToolchain.Linker.Fits

/-!
# When a module is linked alone

Whether the object of a module can be linked without other files can be told from the module and the
addresses of its names: the sections have to fit into their regions and the addresses into their
fields, a name without a definition has to be weak, and there has to be something behind the label
that the image is entered at.

## Main definitions

* `ItemFits` — what an item refers to fits the field of the item.
* `Links` — nothing is in the way of a link of the module alone.

## Main results

* `Standalone.itemFits` — in a link that succeeds, every address fits its field.
* `exists_link_of_links` — a module without a hindrance is linked.
-/

namespace MiniTool
namespace Assembler

open Object Linker Bounds AssemblyContext

/-! ### Values -/

/-- The value an instruction at a place gets for what it refers to. -/
def referenceValue (address : Str → UInt64) (place : UInt64) (opcode : Isa.Opcode)
    (reference : Ir.SymbolRef) : Int64 :=
  let target := address reference.name + reference.addend.toUInt64
  if Isa.formatOf opcode = some .jump then Isa.branchDisplacement place target
  else target.toInt64

/-- What an item at a place refers to fits the field of the item. -/
def ItemFits (address : Str → UInt64) (place : UInt64) : Ir.Item → Prop
  | .instruction i => ∀ reference, i.symbol = some reference →
      -2 ^ 47 ≤ (referenceValue address place i.machine.opcode reference).toInt ∧
        (referenceValue address place i.machine.opcode reference).toInt < 2 ^ 47
  | .symbolValue v =>
    v.width = 4 → (address v.symbol.name + v.symbol.addend.toUInt64).toNat < 2 ^ 32
  | _ => True

/-- An instruction that has a symbol can take any value of 48 bits for it. -/
theorem exists_encode_value {i : Ir.Instruction} (hwell : Ir.InstructionWellFormed i)
    (hsymbolic : i.isSymbolic = true) (hencodable : Encodable (.instruction i)) {value : Int64}
    (hvalue : -2 ^ 47 ≤ value.toInt ∧ value.toInt < 2 ^ 47) :
    ∃ w, Isa.encode { placeholder i with imm := value } = .ok w := by
  obtain ⟨w, hw⟩ := hencodable
  obtain ⟨info, hinfo, hcanonical, -⟩ := Isa.encode_eq_ok_iff.mp hw
  obtain ⟨info', hinfo', hformat⟩ := hwell
  rw [(placeholder_fields i).1, hinfo'] at hinfo
  cases hinfo
  have hopcode : Isa.findOpcode (placeholder i).opcode = Isa.findOpcode i.machine.opcode :=
    congrArg Isa.findOpcode (placeholder_fields i).1
  refine Isa.exists_encode ⟨_, hopcode.trans hinfo', ?_⟩
  obtain ⟨hdstValid, hsrcValid, hdst, hsrc, -, -, -⟩ := hcanonical
  refine ⟨hdstValid, hsrcValid, hdst, hsrc, ?_, fun _ _ => hvalue, ?_⟩
  · rcases (hformat hsymbolic).1 with hthis | hthis <;> rw [hthis] <;> nofun
  · rcases (hformat hsymbolic).1 with hthis | hthis <;> rw [hthis] <;> nofun

section

variable {m : Ir.Module} {o : ObjectFile} {executable : Executable}

theorem addressIn_of_finalAddress {name : Str} {address : UInt64}
    (h : finalAddress {} [o] [symbolOf m] 0 name = some address) :
    addressIn m o name = address := by
  unfold addressIn
  rw [h]
  rfl

/-- **The values of the relocations fit** when those of the items do. -/
theorem LaidOut.relocationFits (h : LaidOut m o)
    (haligned : ∀ source ∈ orderedSections m, ∀ (offset : ℕ) (i : Ir.Instruction),
      (offset, .instruction i) ∈ placed source.items → 8 ∣ offset)
    (hfits : ∀ source ∈ orderedSections m, ∀ p ∈ placed source.items,
      ItemFits (addressIn m o) (regionBase source.kind + UInt64.ofNat p.1) p.2) :
    ∀ r ∈ o.relocations, RelocationFits {} [o] 0 o r := by
  intro r hr input base symbol address field hinput hbase hsymbol hfinal hsub
  obtain ⟨reference, hreference, hindexOf, heq⟩ := h.assembled.exists_reference hr
  obtain ⟨⟨source, k⟩, hentry, p, hp, hof⟩ := mem_sectionReferences.mp hreference
  obtain ⟨hstored, hindex, hoffset, hwidth⟩ :=
    width_of_referenceOf (assemblable_of_wellFormed h.wellFormed) hentry hp hof
  have hsource := List.mem_of_getElem? (List.mem_zipIdx_iff_getElem?.mp hentry)
  -- the relocation is that of the item
  have hsection : r.sectionId.toNat = k := by
    rw [heq]
    show (UInt32.ofNat reference.index).toNat = k
    rw [hindex, toNat_index hentry]
  have hplace : r.offset = UInt64.ofNat p.1 := by
    rw [heq]
    exact congrArg UInt64.ofNat hoffset
  have htype : r.type = reference.type := by
    rw [heq]
    rfl
  have haddend : r.addend = reference.symbol.addend := by
    rw [heq]
    rfl
  rw [hsection, h.assembled.getElem?_sections hentry] at hinput
  cases hinput
  rw [hsection, h.sectionAddress_eq hentry] at hbase
  cases hbase
  obtain ⟨hlt, hname⟩ := SymbolTable.indexOf_eq_some.mp hindexOf
  rw [List.getElem?_eq_getElem hlt] at hsymbol
  rw [← Option.some.inj hsymbol, hname, h.map_find] at hfinal
  have hitem := hfits source hsource p hp
  have haddress := addressIn_of_finalAddress hfinal
  have hlength : relocationWidth r.type = (itemBytes p.1 p.2).length := by
    have hadvance := length_itemBytes p.1 p.2
    rw [htype]
    omega
  rw [hplace, h.assembled.toNat_offset hentry hp, hlength,
    h.assembled.subspan_item hentry hstored hp] at hsub
  cases hsub
  rw [htype, haddend, hplace]
  obtain ⟨offset, item⟩ := p
  cases item with
  | symbolValue v =>
    have hreference : reference = { index := k, offset, symbol := v.symbol
                                    type := if v.width = 4 then .abs32 else .abs64 } :=
      (Option.some.inj hof).symm
    rw [hreference] at haddress ⊢
    dsimp only at haddress ⊢
    split_ifs with hfour
    · have hvalue := hitem hfour
      rw [haddress] at hvalue
      exact hvalue
    · trivial
  | instruction i =>
    obtain ⟨reference', hsymbol', rfl⟩ := Option.map_eq_some_iff.mp hof
    dsimp only at haddress ⊢
    have hvalue := hitem reference' hsymbol'
    unfold referenceValue at hvalue
    rw [haddress] at hvalue
    have hsymbolic : i.isSymbolic = true := by
      unfold Ir.Instruction.isSymbolic
      rw [hsymbol']
      rfl
    have hcode := h.wellFormed.items source (mem_of_mem_orderedSections hsource) _
      (Emission.mem_of_mem_placed hp)
    have hcarries : ∀ {value : Int64}, -2 ^ 47 ≤ value.toInt ∧ value.toInt < 2 ^ 47 →
        Carries (itemBytes offset (.instruction i)) (UInt64.ofNat offset) value := by
      intro value hrange
      refine ⟨?_, hrange.1, hrange.2, _, (h.assembled.decode_item hentry hp).2,
        exists_encode_value hcode.2 hsymbolic
          (h.assembled.encodable source hsource _ (Emission.mem_of_mem_placed hp)) hrange⟩
      rw [h.assembled.toNat_offset hentry hp]
      exact Nat.mod_eq_zero_of_dvd (haligned source hsource offset i hp)
    rw [relocationForInstruction_eq]
    split_ifs at hvalue ⊢ with hjump
    · exact hcarries hvalue
    · exact hcarries hvalue
  | label l => cases hof
  | bytes b => cases hof
  | space s => cases hof
  | align a => cases hof

/-- **In a link that succeeds, every address fits its field.** -/
theorem Standalone.itemFits (h : Standalone m o executable) {source : Ir.Section}
    (hsource : source ∈ orderedSections m) {p : ℕ × Ir.Item} (hp : p ∈ placed source.items) :
    ItemFits (addressIn m o) (regionBase source.kind + UInt64.ofNat p.1) p.2 := by
  obtain ⟨k, hk⟩ := List.mem_iff_getElem?.mp hsource
  have hentry : (source, k) ∈ (orderedSections m).zipIdx := List.mem_zipIdx_iff_getElem?.mpr hk
  have hassemblable := (assemblable_of_wellFormed h.wellFormed).items source
    (mem_of_mem_orderedSections hsource) p.2 (Emission.mem_of_mem_placed hp)
  obtain ⟨offset, item⟩ := p
  cases item with
  | symbolValue v =>
    intro hfour
    obtain ⟨field, address, hfield, haddress, hload⟩ :=
      (h.sectionLinked hentry hassemblable.1).symbolValue_item hp
    rw [h.map_find] at haddress
    rw [addressIn_of_finalAddress haddress, ← hload, hfour]
    obtain ⟨segment, -, hspan⟩ := Option.bind_eq_some_iff.mp hfield
    have hlength := length_of_subspan hspan
    rw [hfour] at hlength
    exact ByteOrder.load_lt (by decide) hlength.ge
  | instruction i =>
    intro reference hsymbol
    obtain ⟨field, machine, target, -, hdecode, hopcode, -, -, htarget, himm⟩ :=
      (h.sectionLinked hentry hassemblable).symbolic_instruction hp hsymbol
    rw [h.map_find] at htarget
    unfold referenceValue
    rw [addressIn_of_finalAddress htarget]
    -- the immediate that is decoded is the value
    have hvalue : (if Isa.formatOf i.machine.opcode = some .jump then
        Isa.branchDisplacement (regionBase source.kind + UInt64.ofNat offset)
          (target + reference.addend.toUInt64)
      else (target + reference.addend.toUInt64).toInt64) = machine.imm := by
      split_ifs at himm ⊢
      · rw [← himm, Isa.branchDisplacement_branchTarget]
      · rw [← himm]
        exact Int64.toInt64_toUInt64 machine.imm
    dsimp only at hvalue ⊢
    rw [hvalue]
    obtain ⟨w, info, hinfo, hcanonical, -⟩ := Isa.encodes_of_decodeFrom hdecode
    obtain ⟨info', hinfo', hformat⟩ := (h.wellFormed.items source
      (mem_of_mem_orderedSections hsource) _ (Emission.mem_of_mem_placed hp)).2
    rw [hopcode, hinfo'] at hinfo
    cases hinfo
    have hsymbolic : i.isSymbolic = true := by
      unfold Ir.Instruction.isSymbolic
      rw [hsymbol]
      rfl
    refine hcanonical.signed ?_ ?_
    · rcases (hformat hsymbolic).1 with hthis | hthis <;> rw [hthis] <;> rfl
    · rcases (hformat hsymbolic).1 with hthis | hthis <;> rw [hthis] <;> rfl
  | label l => trivial
  | bytes b => trivial
  | space s => trivial
  | align a => trivial

/-! ### Names -/

/-- An item of the module refers to the name. -/
def Refers (m : Ir.Module) (n : Str) : Prop :=
  ∃ source ∈ orderedSections m, ∃ item ∈ source.items, n ∈ itemNames item

theorem mem_referencedNames {n : Str} : n ∈ referencedNames m ↔ Refers m n := by
  unfold referencedNames
  rw [List.mem_map]
  constructor
  · rintro ⟨reference, hreference, rfl⟩
    obtain ⟨⟨source, k⟩, hentry, p, hp, hof⟩ := mem_sectionReferences.mp hreference
    refine ⟨source, List.mem_of_getElem? (List.mem_zipIdx_iff_getElem?.mp hentry), p.2,
      Emission.mem_of_mem_placed hp, ?_⟩
    rw [← map_referenceOf k p.1, hof]
    exact List.mem_cons_self
  · rintro ⟨source, hsource, item, hitem, hn⟩
    obtain ⟨k, hk⟩ := List.mem_iff_getElem?.mp hsource
    obtain ⟨j, hj⟩ := List.mem_iff_getElem?.mp hitem
    have hp := List.mem_of_getElem? (getElem?_placed hj)
    rw [← map_referenceOf k (endOf (source.items.take j))] at hn
    obtain ⟨reference, hof, rfl⟩ := List.mem_map.mp hn
    exact ⟨reference, mem_sectionReferences.mpr
      ⟨(source, k), List.mem_zipIdx_iff_getElem?.mpr hk, _, hp, Option.mem_toList.mp hof⟩, rfl⟩

/-- The symbols of an object. -/
theorem mem_symbols_iff (h : Assembled m o) {s : Symbol} :
    s ∈ o.symbols.symbols ↔ symbolOf m s.name = some s := by
  rw [← h.find]
  exact ⟨SymbolTable.find_of_mem, fun hfind => (SymbolTable.mem_of_find hfind).1⟩

/-- A name without a definition. -/
theorem symbolOf_of_undefined {n : Str} (hlabel : labelOf m n = none)
    (h : n ∈ declaredNames m ∨ Refers m n) :
    symbolOf m n = some { name := n, binding := bindingOf m n .external } := by
  unfold symbolOf
  rw [hlabel]
  exact if_pos (h.imp_right mem_referencedNames.mpr)

/-- A name with a definition. -/
theorem symbolOf_of_label {n : Str} {s : Symbol} (hlabel : labelOf m n = some s) :
    symbolOf m n = some (withBinding (bindingOf m n .local) s) := by
  unfold symbolOf
  rw [hlabel]

/-- **In a link that succeeds, a name without a definition is weak.** -/
theorem Standalone.weak (h : Standalone m o executable) {n : Str} (hlabel : labelOf m n = none)
    (hn : n ∈ declaredNames m ∨ Refers m n) : bindingOf m n .external = .weak := by
  obtain ⟨-, _, _, _, -, hresolve, -, -⟩ := link_cases h.linked
  have hs : ({ name := n, binding := bindingOf m n .external } : Symbol) ∈ o.symbols.symbols :=
    (mem_symbols_iff h.assembled).mpr (symbolOf_of_undefined hlabel hn)
  exact weak_of_resolveSymbols (h.assembled.linkable h.wellFormed) hresolve _ hs rfl

/-- **In a link that succeeds, the entry point is declared.** -/
theorem Standalone.declared (h : Standalone m o executable) :
    str "_start" ∈ declaredNames m := by
  have hlinkable : ∀ o' ∈ [o], Linkable o' :=
    List.forall_mem_singleton.mpr (h.assembled.linkable h.wellFormed)
  obtain ⟨o', s, hcandidate, -⟩ := candidate_of_link hlinkable ⟨rfl, rfl, rfl, rfl⟩ h.linked
  have hsymbol := hcandidate.symbol
  rw [List.mem_singleton.mp hcandidate.object, mem_symbols_iff h.assembled,
    show s.name = str "_start" from hcandidate.named] at hsymbol
  obtain ⟨hdefined, hbinding⟩ := (Bool.and_eq_true _ _).mp hcandidate.offered
  by_contra hnot
  unfold symbolOf at hsymbol
  cases hlabel : labelOf m (str "_start") with
  | none =>
    rw [hlabel] at hsymbol
    dsimp only at hsymbol
    split_ifs at hsymbol
    rw [← Option.some.inj hsymbol] at hdefined
    cases hdefined
  | some t =>
    rw [hlabel, bindingOf_of_not_declared hnot] at hsymbol
    rw [← Option.some.inj hsymbol] at hbinding
    cases hbinding

/-! ### The module -/

/-- The sections of the module have been given their regions, and nothing is in the way of a link of
the module alone. -/
structure Links (m : Ir.Module) (o : ObjectFile) : Prop extends LaidOut m o where
  aligned : ∀ source ∈ orderedSections m, ∀ (offset : ℕ) (i : Ir.Instruction),
    (offset, .instruction i) ∈ placed source.items → 8 ∣ offset
  values : ∀ source ∈ orderedSections m, ∀ p ∈ placed source.items,
    ItemFits (addressIn m o) (regionBase source.kind + UInt64.ofNat p.1) p.2
  weak : ∀ n, labelOf m n = none → n ∈ declaredNames m ∨ Refers m n →
    bindingOf m n .external = .weak
  declared : str "_start" ∈ declaredNames m
  entered : ∃ source ∈ orderedSections m, source.kind = .text ∧ ∃ (p offset : ℕ) (l : Ir.Label),
    (placed source.items)[p]? = some (offset, .label l) ∧ l.name = str "_start" ∧ 8 ∣ offset ∧
      offset < endOf source.items

/-- **Sections that fit are laid out.** -/
theorem laidOut_of_fits (hwell : m.WellFormed) (h : Assembled m o)
    (hfits : ∀ source ∈ orderedSections m, endOf source.items ≤ kRegionSize.toNat) :
    LaidOut m o := by
  refine ⟨hwell, h, exists_mergeSections (h.linkable hwell).laidOut (types_of_assembled h) ?_⟩
  intro s hs
  rw [h.sections] at hs
  obtain ⟨entry, hentry, rfl⟩ := List.mem_map.mp hs
  rw [UInt64.le_iff_toNat_le, size_emitted (h.endOf_le hentry)]
  exact hfits entry.1 (List.mem_of_getElem? (List.mem_zipIdx_iff_getElem?.mp hentry))

theorem LaidOut.endOf_le (h : LaidOut m o) {source : Ir.Section}
    (hsource : source ∈ orderedSections m) : endOf source.items ≤ kRegionSize.toNat := by
  obtain ⟨k, hk⟩ := List.mem_iff_getElem?.mp hsource
  have hentry : (source, k) ∈ (orderedSections m).zipIdx := List.mem_zipIdx_iff_getElem?.mpr hk
  obtain ⟨layout, hmerge⟩ := h.merged
  have hlinkable : ∀ o' ∈ [o], Linkable o' :=
    List.forall_mem_singleton.mpr (h.assembled.linkable h.wellFormed)
  have hsize := size_le_of_mergeSections hlinkable hmerge List.mem_cons_self _
    (List.mem_of_getElem? (h.assembled.getElem?_sections hentry))
  rw [UInt64.le_iff_toNat_le, size_emitted (h.assembled.endOf_le hentry)] at hsize
  exact hsize

/-- **A module without a hindrance is linked.** -/
theorem exists_link_of_links (h : Links m o) : ∃ executable, link [o] {} = .ok executable := by
  have hlinkable := h.assembled.linkable h.wellFormed
  obtain ⟨layout, hmerge⟩ := h.merged
  -- the symbol that the image is entered at
  obtain ⟨source, hsource, hkind, p, offset, l, hp, hname, hdvd, hlt⟩ := h.entered
  obtain ⟨k, hk⟩ := List.mem_iff_getElem?.mp hsource
  have hentry : (source, k) ∈ (orderedSections m).zipIdx := List.mem_zipIdx_iff_getElem?.mpr hk
  obtain ⟨s, hs, hsection, hvalue⟩ := labelOf_of_placed h.assembled.labels hk hp rfl
  rw [hname] at hs
  obtain ⟨hmem, hnamed⟩ := labelOf_eq_some hs
  have hdefined := (defined_of_mem_labelSymbols hmem).1
  obtain ⟨hbinding, hnotLocal⟩ := bindingOf_of_declared h.declared .local
  have hsymbol := symbolOf_of_label hs
  generalize ht : withBinding (bindingOf m (str "_start") .local) s = t at hsymbol
  have htname : t.name = str "_start" := by
    rw [← ht]
    exact hnamed
  have htmem : t ∈ o.symbols.symbols := by
    rw [mem_symbols_iff h.assembled, htname]
    exact hsymbol
  have hall : ∀ u ∈ o.symbols.symbols, u.name = str "_start" → u = t := by
    intro u hu huname
    rw [mem_symbols_iff h.assembled, huname, hsymbol] at hu
    exact (Option.some.inj hu).symm
  have husable : EntryUsable o t := by
    have hplace : (UInt64.ofNat offset).toNat = offset :=
      h.assembled.toNat_offset hentry (List.mem_of_getElem? hp)
    refine ⟨emitted (source, k), ?_, ?_, ?_, ?_⟩
    · rw [← ht]
      show o.sections[s.sectionId.toNat]? = _
      rw [hsection, toNat_index hentry]
      exact h.assembled.getElem?_sections hentry
    · rw [emitted_eq]
      show sectionTypeOf source.kind = .text
      rw [hkind]
      rfl
    · rw [← ht]
      show 8 ∣ s.value.toNat
      rw [hvalue, hplace]
      exact hdvd
    · rw [← ht, size_emitted (h.assembled.endOf_le hentry)]
      show s.value.toNat < _
      rw [hvalue, hplace]
      exact hlt
  refine exists_link_single ⟨rfl, rfl, rfl, rfl⟩ hlinkable (types_of_assembled h.assembled)
    (size_le_of_mergeSections (List.forall_mem_singleton.mpr hlinkable) hmerge List.mem_cons_self)
    ?_ (h.relocationFits h.aligned h.values) ⟨t, List.mem_cons_self, htmem, htname, ?_, ?_⟩ ?_
  · -- what is not defined is weak
    intro u hu hundefined
    rw [mem_symbols_iff h.assembled] at hu
    unfold symbolOf at hu
    cases hlabel : labelOf m u.name with
    | some v =>
      rw [hlabel] at hu
      have hv := (defined_of_mem_labelSymbols (labelOf_eq_some hlabel).1).1
      rw [← Option.some.inj hu] at hundefined
      exact absurd (hv.symm.trans hundefined) (by decide)
    | none =>
      rw [hlabel] at hu
      dsimp only at hu
      split_ifs at hu with hthere
      have hweak := h.weak u.name hlabel (hthere.imp_right mem_referencedNames.mp)
      rw [← Option.some.inj hu]
      exact hweak
  · rw [Offered, Bool.and_eq_true, decide_eq_true_iff, ← ht]
    refine ⟨hdefined, ?_⟩
    show bindingOf m (str "_start") .local ≠ .local
    rw [hbinding]
    exact hnotLocal
  · intro u hu huname _ hglobal
    rw [show allSymbols [o] = o.symbols.symbols from List.append_nil _] at hu
    rw [hall u hu huname] at hglobal
    exact hglobal
  · intro u hcandidate
    rw [hall u hcandidate.symbol hcandidate.named]
    exact husable

end

end Assembler
end MiniTool
