import MiniToolchain.Assembler.Standalone
import MiniToolchain.Vm.Monitored

/-!
# A module linked alone, in memory

The loader maps the code of an image and its data to regions of their own.  The data are the same
for two images that differ in their code only, and what the linker has put into the code is what the
machine fetches.

## Main definitions

* `mapped` — the region of the machine that a region of the linker becomes.
* `dataRegions` — what is mapped besides the code.

## Main results

* `ImageOf.exists_apart` — the memory of a machine that has loaded an image is code and data.
* `ImageOf.fetches` — what is fetched is what the image holds.
* `ImageOf.entry` — the entry point is in the code.
-/

namespace MiniTool
namespace Assembler

open Object Linker Bounds AssemblyContext
open Executable (SegmentFlags hasFlag)
open Vm (VirtualMachine VirtualMemory Permission hasPermission)

/-- The region of the machine for a region of the linker. -/
def mapped (region : Linker.Region) : Vm.Region := Vm.VirtualMachine.regionOf (segmentOf region)

/-- What is mapped besides the code. -/
def dataRegions (others : List Linker.Region) : List Vm.Region :=
  (others.filter fun region => region.size ≠ 0).map mapped ++
    [Vm.VirtualMachine.stackRegion, Vm.VirtualMachine.heapRegion]

section

variable {m : Ir.Module} {o : ObjectFile} {executable : Executable} {text : Linker.Region}
  {others : List Linker.Region} {vm start : VirtualMachine} {code : VirtualMemory}

namespace ImageOf

/-- The code is where code is put. -/
theorem text_eq (h : ImageOf m o executable text others) : text.type = .text ∧
    text.flags = SegmentFlags.read ||| SegmentFlags.exec ∧ text.name = str ".text" ∧
    text.base = regionBase .text ∧ text.zeroFilled = false := by
  have hone := (List.forall₂_cons.mp h.same).1
  exact ⟨hone.type, hone.flags, hone.name, hone.base, hone.zeroFilled⟩

/-- Nothing else is. -/
theorem hasFlag_others (h : ImageOf m o executable text others) {region : Linker.Region}
    (hregion : region ∈ others) : hasFlag region.flags SegmentFlags.exec = false := by
  have hrest : List.Forall₂ Region.Same (initRegions {}).tail others :=
    (List.forall₂_cons.mp h.same).2
  obtain ⟨i, hi, rfl⟩ := List.mem_iff_getElem.mp hregion
  have hlength := hrest.length_eq
  have hone := hrest.get (by omega) hi
  have hstart : ∀ start ∈ (initRegions {}).tail, hasFlag start.flags SegmentFlags.exec = false := by
    decide
  have hflags := hstart _ (List.get_mem _ ⟨i, by omega⟩)
  rw [← hone.flags] at hflags
  exact hflags

theorem segments (h : ImageOf m o executable text others) :
    executable.segments = ((text :: others).filter fun region => region.size ≠ 0).map
      segmentOf := by
  obtain ⟨layout, symbols, hregions, hbuild⟩ := h.built
  obtain ⟨_, _, -, -, rfl, -⟩ := buildExecutable_cases hbuild
  rw [← hregions]

/-- **Code and data are mapped apart.** -/
theorem exists_apart (h : ImageOf m o executable text others) (hsize : text.size ≠ 0)
    (hload : vm.load executable = (.ok (), start)) :
    ∃ code data : VirtualMemory, code.regions = [mapped text] ∧ data.regions = dataRegions others ∧
      data.heapNext = Vm.kHeapBase ∧ VirtualMemory.Apart code data start.memory := by
  obtain ⟨-, hflags, hname, -, -⟩ := h.text_eq
  have hregions := Vm.VirtualMachine.regions_of_load hload
  rw [h.segments, List.filter_cons_of_pos (by simpa using hsize), List.map_cons, List.map_cons,
    List.map_map, List.cons_append] at hregions
  have hcode : ∀ r ∈ [mapped text], hasPermission r.permissions Permission.exec = true ∧
      hasPermission r.permissions Permission.write = false ∧ r.name ≠ str "heap" := by
    intro r hr
    obtain rfl := List.mem_singleton.mp hr
    show hasPermission (Vm.permissionsOf text.flags) Permission.exec = true ∧
      hasPermission (Vm.permissionsOf text.flags) Permission.write = false ∧ text.name ≠ str "heap"
    rw [hflags, hname]
    decide
  have hdata : ∀ r ∈ dataRegions others, hasPermission r.permissions Permission.exec = false := by
    intro r hr
    rcases List.mem_append.mp hr with hr | hr
    · obtain ⟨region, hregion, rfl⟩ := List.mem_map.mp hr
      show hasPermission (Vm.permissionsOf region.flags) Permission.exec = false
      rw [Vm.VirtualMachine.hasPermission_exec_permissionsOf]
      exact h.hasFlag_others (List.mem_filter.mp hregion).1
    · simp only [List.mem_cons, List.not_mem_nil, or_false] at hr
      rcases hr with rfl | rfl <;> decide
  obtain ⟨code, data, hfront, hrest, hnext, hapart⟩ :=
    VirtualMemory.exists_apart (show start.memory.regions = [mapped text] ++
      dataRegions others from hregions) hcode hdata
  exact ⟨code, data, hfront, hrest, hnext.trans (Vm.VirtualMachine.heapNext_of_load hload), hapart⟩

/-- The address of a place in the code. -/
theorem toNat_place (h : ImageOf m o executable text others) {offset : ℕ}
    (hoffset : offset ≤ text.size.toNat) :
    (regionBase .text + UInt64.ofNat offset).toNat = 0x10000 + offset := by
  have hsize := (h.sound text List.mem_cons_self).size_le
  have hcap : kRegionSize.toNat = 0xF0000 := rfl
  have hbase : (regionBase .text).toNat = 0x10000 := rfl
  rw [UInt64.toNat_add, hbase, UInt64.toNat_ofNat', Nat.mod_eq_of_lt (a := offset) (by omega),
    Nat.mod_eq_of_lt (by omega)]

/-- **What is fetched is what the image holds.** -/
theorem fetches (h : ImageOf m o executable text others) (hcode : code.regions = [mapped text])
    {offset : ℕ} {field : List UInt8} {machine : Isa.Instruction}
    (hbytes : executable.bytesAt (regionBase .text + UInt64.ofNat offset) 8 = some field)
    (hdecode : Isa.decodeFrom field = .ok machine) (haligned : 8 ∣ offset)
    (hfits : offset + 8 ≤ text.size.toNat) :
    Vm.VirtualMachine.Fetches code (regionBase .text + UInt64.ofNat offset) machine := by
  obtain ⟨-, hflags, -, hbase, hzero⟩ := h.text_eq
  obtain ⟨layout, symbols, hregions, hbuild⟩ := h.built
  have hplace := h.toNat_place (show offset ≤ text.size.toNat by omega)
  have htextBase : text.base.toNat = 0x10000 := by
    rw [hbase]
    rfl
  have hlength : text.data.length = text.size.toNat := (h.sound text List.mem_cons_self).data hzero
  have hat := @bytesAt_of_region {} layout symbols [o] executable hbuild text
    (by rw [hregions]; exact List.mem_cons_self) hzero offset 8 (by decide) hfits
  rw [hbase, hbytes, subspan_of_le (by omega)] at hat
  obtain rfl := Option.some.inj hat
  refine ⟨?_, ByteOrder.load 8 ((text.data.drop offset).take 8), ?_, ?_⟩
  · apply UInt64.toNat_inj.mp
    rw [UInt64.toNat_mod, hplace]
    show (0x10000 + offset) % 8 = 0
    omega
  · have hcheck : code.checkAccess (regionBase .text + UInt64.ofNat offset) 8 Permission.exec =
        .ok (mapped text) := by
      have hstop : (mapped text).stop = 0x10000 + text.size.toNat := by
        show text.base.toNat + text.size.toNat = _
        rw [htextBase]
      refine VirtualMemory.checkAccess_eq_ok.mpr ⟨?_, Vm.Region.contains_iff.mpr ⟨?_, ?_⟩, ?_, ?_⟩
      · rw [hcode]
        exact List.mem_cons_self
      · show text.base.toNat ≤ _
        omega
      · omega
      · show _ + 8 ≤ _
        omega
      · show hasPermission (Vm.permissionsOf text.flags) Permission.exec = true
        rw [hflags]
        decide
    have hword : VirtualMemory.bytesOf (mapped text) (regionBase .text + UInt64.ofNat offset) 8 =
        (text.data.drop offset).take 8 := by
      have hoffset : (regionBase .text + UInt64.ofNat offset - text.base).toNat = offset := by
        rw [UInt64.toNat_sub_of_le _ _ (UInt64.le_iff_toNat_le.mpr (by omega)), hplace, htextBase]
        omega
      have hdata : (mapped text).data = Window.overwrite (fun _ => 0) 0 text.data := by
        show Window.overwrite _ 0 ((if text.zeroFilled then [] else text.data).take (min
          (if text.zeroFilled then [] else text.data).length text.size.toNat)) = _
        rw [hzero, if_neg Bool.false_ne_true, hlength, Nat.min_self, ← hlength, List.take_length]
      show Window.window (mapped text).data
        (regionBase .text + UInt64.ofNat offset - text.base).toNat 8 = _
      rw [hoffset, hdata, Window.window_overwrite _ (by omega)]
    unfold VirtualMemory.fetchInstruction
    rw [hcheck, ← hword]
    rfl
  · unfold Isa.decodeFrom at hdecode
    rwa [if_neg (by
      rw [List.length_take, List.length_drop]
      show ¬min 8 (text.data.length - offset) < 8
      omega)] at hdecode

/-- Nothing is fetched behind the code. -/
theorem not_fetches (h : ImageOf m o executable text others) (hcode : code.regions = [mapped text])
    (machine : Isa.Instruction) :
    ¬Vm.VirtualMachine.Fetches code (regionBase .text + UInt64.ofNat text.size.toNat) machine := by
  rintro ⟨-, word, hword, -⟩
  obtain ⟨r, hcheck, -⟩ := Checked.bind_eq_ok.mp hword
  obtain ⟨hr, hcontains, -⟩ := VirtualMemory.checkAccess_eq_ok.mp hcheck
  rw [hcode] at hr
  obtain rfl := List.mem_singleton.mp hr
  have hlt := (Vm.Region.contains_iff.mp hcontains).2
  have hstop : (mapped text).stop = (regionBase .text).toNat + text.size.toNat := by
    show text.base.toNat + text.size.toNat = _
    rw [h.text_eq.2.2.2.1]
  have hbase : (regionBase .text).toNat = 0x10000 := rfl
  have hplace := h.toNat_place (Nat.le_refl _)
  omega

/-- **The entry point is a label of the code.** -/
theorem entry (himage : ImageOf m o executable text others) (h : Standalone m o executable) :
    text.size ≠ 0 ∧ ∃ source ∈ orderedSections m, source.kind = .text ∧
      ∃ (p offset : ℕ) (l : Ir.Label), (placed source.items)[p]? = some (offset, .label l) ∧
        l.name = str "_start" ∧ executable.entryPoint = regionBase .text + UInt64.ofNat offset := by
  obtain ⟨-, layout, symbols, patched, hmerge, hresolve, hpatch, hbuild⟩ := link_cases h.linked
  obtain ⟨d, _, hd, -, hexecutable, hvalid⟩ := buildExecutable_cases hbuild
  have hentry : executable.entryPoint = d.address := by rw [hexecutable]
  obtain ⟨-, segment, hsegment, hexec, hfrom, hto⟩ :=
    entry_of_valid (Executable.validate_eq_ok.mp hvalid)
  rw [himage.segments] at hsegment
  obtain ⟨region, hregion, rfl⟩ := List.mem_map.mp hsegment
  obtain ⟨hmem, hsize⟩ := List.mem_filter.mp hregion
  -- only code can be executed
  obtain rfl : region = text := by
    rcases List.mem_cons.mp hmem with rfl | hother
    · rfl
    · have hflags := himage.hasFlag_others hother
      rw [show (segmentOf region).flags = region.flags from rfl, hflags] at hexec
      cases hexec
  have hcap : kRegionSize.toNat = 0xF0000 := rfl
  have hle := (himage.sound region List.mem_cons_self).size_le
  have hbase : region.base.toNat = 0x10000 := by
    rw [himage.text_eq.2.2.2.1]
    rfl
  have hfrom' : region.base.toNat ≤ executable.entryPoint.toNat := hfrom
  have hto' : executable.entryPoint.toNat < region.base.toNat + region.size.toNat := hto
  refine ⟨by simpa using hsize, ?_⟩
  rcases exists_candidate h.plain hresolve hd with
    ⟨hzero, -⟩ | ⟨i, o', s, hobject, hcandidate, haddress⟩
  · rw [hentry, hzero] at hfrom'
    have hnone : region.base.toNat ≤ 0 := hfrom'
    omega
  · have hsame := hcandidate.object
    obtain rfl := List.mem_singleton.mp hsame
    obtain rfl : i = 0 := by
      have hlt := (List.getElem?_eq_some_iff.mp hobject).1
      rw [List.length_singleton] at hlt
      omega
    have hdefined := ((Bool.and_eq_true _ _).mp hcandidate.offered).1
    have hfind := h.assembled.find s.name
    rw [SymbolTable.find_of_mem hcandidate.symbol, hcandidate.named] at hfind
    have hwhere := symbolAddress_of_addressOf hmerge (Layout.Patched.refl layout) haddress
    cases hlabel : labelOf m (str "_start") with
    | none =>
      unfold symbolOf at hfind
      rw [show ({} : LinkOptions).entry = str "_start" from rfl, hlabel] at hfind
      dsimp only at hfind
      split_ifs at hfind
      cases hfind
      cases hdefined
    | some s' =>
      have hbound : s = withBinding (bindingOf m (str "_start") .local) s' := by
        unfold symbolOf at hfind
        rw [show ({} : LinkOptions).entry = str "_start" from rfl, hlabel] at hfind
        exact Option.some.inj hfind
      obtain ⟨source, p, offset, l, hsource, hp, hname, hat⟩ := h.symbolAddress_of_labelOf hlabel
      have haddress' : executable.entryPoint = regionBase source.kind + UInt64.ofNat offset := by
        rw [hentry]
        rw [hbound] at hwhere
        exact Option.some.inj (hwhere.symm.trans hat)
      have hoffset : offset ≤ kMaxSize :=
        (Emission.advance_le_of_mem_placed Ir.Item.le_advance (List.mem_of_getElem? hp)).trans
          (h.assembled.fits source hsource)
      have hkind : source.kind = .text := by
        -- the other regions lie behind the code
        by_contra hnot
        have hfar : 0x100000 ≤ (regionBase source.kind).toNat ∧
            (regionBase source.kind).toNat ≤ 0x300000 := by
          cases hk : source.kind with
          | text => exact absurd hk hnot
          | _ => decide
        have hmax : kMaxSize = 2 ^ 63 - 1 := rfl
        rw [haddress', UInt64.toNat_add, UInt64.toNat_ofNat',
          Nat.mod_eq_of_lt (a := offset) (by omega), Nat.mod_eq_of_lt (by omega)] at hto'
        omega
      rw [hkind] at haddress'
      exact ⟨source, hsource, hkind, p, offset, l, hp, hname, haddress'⟩

end ImageOf

end

end Assembler
end MiniTool
