import MiniToolchain.Linker.Entry
import MiniToolchain.Linker.Single

/-!
# When a link of one object succeeds

Nothing is in the way of an object that is linked alone, when its sections fit into their regions
and its values into their fields, it needs no definition from other objects, and its entry point
stands in front of something.

## Main results

* `exists_mergeSections` — sections of different types that fit are laid out.
* `size_le_of_mergeSections`, `weak_of_resolveSymbols` — what a link that succeeds says of them.
* `exists_link_single` — the object is linked.
-/

namespace MiniTool
namespace Linker

open Object Bounds

/-- Sections of different types, for which there are empty regions. -/
theorem exists_foldlM_mergeSection {sections : List Section} {regions : List Region}
    {placed : List (Option Placement)} (hsections : (sections.map Section.type).Nodup)
    (hregions : ∀ s ∈ sections, ∃ r ∈ regions, r.type = s.type)
    (hempty : ∀ r ∈ regions, ∀ s ∈ sections, s.type = r.type → r.size = 0)
    (hsize : ∀ s ∈ sections, s.size ≤ kRegionSize) :
    ∃ state, sections.foldlM mergeSection (regions, placed) = .ok state := by
  induction sections generalizing regions placed with
  | nil => exact ⟨_, rfl⟩
  | cons s sections ih =>
    obtain ⟨hnew, hsections'⟩ := List.nodup_cons.mp hsections
    obtain ⟨hfirst, hsize'⟩ := List.forall_mem_cons.mp hsize
    have hkeep : ∃ regions' placed', mergeSection (regions, placed) s = .ok (regions', placed') ∧
        regions'.map Region.type = regions.map Region.type ∧
        ∀ r ∈ regions', r ∈ regions ∨ r.type = s.type := by
      by_cases hnull : s.type = .null
      · refine ⟨regions, placed ++ [none], ?_, rfl, fun r hr => .inl hr⟩
        unfold mergeSection
        dsimp only
        rw [if_pos hnull]
      · obtain ⟨r, hr, htype⟩ := hregions s List.mem_cons_self
        have hlt : regionIndexFor regions s.type < regions.length :=
          List.findIdx_lt_length_of_exists ⟨r, hr, decide_eq_true htype⟩
        have hget := List.getElem?_eq_getElem hlt
        have hthis : regions[regionIndexFor regions s.type].type = s.type := by
          have hfound := @List.findIdx_getElem _ (fun region : Region => region.type = s.type)
            regions hlt
          exact of_decide_eq_true hfound
        have hzero := hempty _ (List.getElem_mem hlt) s List.mem_cons_self hthis.symm
        refine ⟨regions.set _ ((regions[regionIndexFor regions s.type]).append s 0),
          placed ++ [some { region := regionIndexFor regions s.type, offset := 0 }], ?_,
          types_set hget, fun r hr => ?_⟩
        · unfold mergeSection
          dsimp only
          rw [if_neg hnull, if_neg hlt.ne, elementAt_eq_ok hget, Checked.ok_bind, hzero,
            alignUp_zero, if_neg]
          rw [not_or, UInt64.sub_zero, gt_iff_lt, gt_iff_lt, UInt64.not_lt, UInt64.not_lt]
          exact ⟨by decide, hfirst⟩
        · rcases List.mem_or_eq_of_mem_set hr with hr | rfl
          · exact .inl hr
          · exact .inr hthis
    obtain ⟨regions', placed', hone, htypes, hmem⟩ := hkeep
    rw [List.foldlM_cons, hone]
    refine @ih regions' placed' hsections' (fun t ht => ?_) (fun r hr t ht heq => ?_) hsize'
    · obtain ⟨r, hr, htype⟩ := hregions t (List.mem_cons_of_mem _ ht)
      have hin : t.type ∈ regions'.map Region.type := by
        rw [htypes, ← htype]
        exact List.mem_map_of_mem hr
      obtain ⟨r', hr', htype'⟩ := List.mem_map.mp hin
      exact ⟨r', hr', htype'⟩
    · rcases hmem r hr with hr | hsame
      · exact hempty r hr t (List.mem_cons_of_mem _ ht) heq
      · -- the region of this section is not that of a later one
        rw [hsame] at heq
        exact absurd (heq ▸ List.mem_map_of_mem ht) hnew

section

variable {options : LinkOptions} {o : ObjectFile}

/-- **Sections of different types that fit are laid out.** -/
theorem exists_mergeSections (hlaidOut : ∀ s ∈ o.sections, s.type ≠ .null)
    (hsections : (o.sections.map Section.type).Nodup)
    (hsize : ∀ s ∈ o.sections, s.size ≤ kRegionSize) :
    ∃ layout, mergeSections options [o] = .ok layout := by
  have hregions : ∀ s ∈ o.sections, ∃ r ∈ initRegions options, r.type = s.type := by
    intro s hs
    have hmem : s.type ∈ (initRegions options).map Region.type := by
      show s.type ∈ [SectionType.text, .rodata, .data, .bss]
      have hnull := hlaidOut s hs
      generalize s.type = type at hnull
      cases type with
      | null => exact absurd rfl hnull
      | _ => decide
    exact List.mem_map.mp hmem
  have hempty : ∀ r ∈ initRegions options, ∀ s ∈ o.sections, s.type = r.type → r.size = 0 := by
    intro r hr _ _ _
    simp only [initRegions, List.mem_cons, List.not_mem_nil, or_false] at hr
    rcases hr with rfl | rfl | rfl | rfl <;> rfl
  obtain ⟨⟨regions, placed⟩, hfold⟩ :=
    @exists_foldlM_mergeSection o.sections _ [] hsections hregions hempty hsize
  refine ⟨{ regions, placements := [placed] }, ?_⟩
  show mergeObject { regions := initRegions options } o >>= _ = _
  unfold mergeObject
  dsimp only
  rw [hfold]
  rfl

/-- A section that is laid out fits into a region. -/
theorem size_le_of_mergeSections {objects : List ObjectFile} {layout : Layout}
    (h : ∀ o ∈ objects, Linkable o) (hmerge : mergeSections options objects = .ok layout)
    (ho : o ∈ objects) : ∀ s ∈ o.sections, s.size ≤ kRegionSize := by
  intro s hs
  obtain ⟨i, hobject⟩ := List.mem_iff_getElem?.mp ho
  obtain ⟨k, hsection⟩ := List.mem_iff_getElem?.mp hs
  obtain ⟨_, placement, region, -, -, -, hregion, -, hle, -⟩ :=
    exists_placement h hmerge (.refl layout) hobject hsection
  have hsize := ((merged_of_mergeSections hmerge).sound region
    (List.mem_of_getElem? hregion)).size_le
  rw [UInt64.le_iff_toNat_le]
  omega

/-- An object that is linked alone refers weakly to what it does not define. -/
theorem weak_of_resolveSymbols (hlinkable : Linkable o) {layout : Layout} {symbols : Symbols}
    (hresolve : resolveSymbols layout [o] = .ok symbols) :
    ∀ s ∈ o.symbols.symbols, s.defined = false → s.binding = .weak := by
  intro s hs hundefined
  have hsymbols : allSymbols [o] = o.symbols.symbols := List.append_nil _
  -- names are not used twice in a table
  have hsame : ∀ t ∈ allSymbols [o], ∀ u ∈ allSymbols [o], t.name = u.name → t = u := by
    rw [hsymbols]
    intro t ht u hu hname
    have hfind := SymbolTable.find_of_mem ht
    rw [hname, SymbolTable.find_of_mem hu] at hfind
    exact (Option.some.inj hfind).symm
  have hs' : s ∈ allSymbols [o] := by rwa [hsymbols]
  have hunmixed : Unmixed [o] := by
    intro t ht u hu hname hweak hstrong
    rw [hsame t ht u hu hname] at hweak
    exact absurd hweak.2 hstrong.2
  by_contra hstrong
  have hplain := plainBindings_of_linkable (List.forall_mem_singleton.mpr hlinkable)
  obtain ⟨t, ht, hname, hoffered⟩ :=
    supplied_of_resolveSymbols hplain hunmixed hresolve s hs' ⟨hundefined, hstrong⟩
  rw [hsame t ht s hs' hname] at hoffered
  unfold Offered at hoffered
  rw [hundefined] at hoffered
  cases hoffered

/-- **The object is linked.** -/
theorem exists_link_single (hbases : options.DefaultBases) (hlinkable : Linkable o)
    (hsections : (o.sections.map Section.type).Nodup)
    (hsize : ∀ s ∈ o.sections, s.size ≤ kRegionSize)
    (hweak : ∀ s ∈ o.symbols.symbols, s.defined = false → s.binding = .weak)
    (hfits : ∀ r ∈ o.relocations, RelocationFits options [o] 0 o r)
    (hexists : ∃ s, Candidate [o] options.entry o s)
    (husable : ∀ s, Candidate [o] options.entry o s → EntryUsable o s) :
    ∃ executable, link [o] options = .ok executable := by
  have hall : ∀ o' ∈ [o], Linkable o' := List.forall_mem_singleton.mpr hlinkable
  have hsymbols : allSymbols [o] = o.symbols.symbols := List.append_nil _
  have hno : NoConflicts [o] := by
    unfold NoConflicts
    rw [hsymbols]
    have hnames := o.symbols.nodup
    unfold List.Nodup at hnames
    rw [List.pairwise_map] at hnames
    exact hnames.imp fun hne hconflicts => hne hconflicts.1
  have hsupplied : Supplied [o] := by
    intro s hs hstrong
    rw [hsymbols] at hs
    exact absurd (hweak s hs hstrong.1) hstrong.2
  obtain ⟨start, hmerge⟩ := @exists_mergeSections options o hlinkable.laidOut hsections hsize
  obtain ⟨symbols, hresolve⟩ : ∃ symbols, resolveSymbols start [o] = .ok symbols := by
    refine exists_resolveSymbols (plainBindings_of_linkable hall) (fun v hv hdefined => ?_) hno
      hsupplied
    obtain ⟨hobject, hs⟩ := mem_visits hv
    exact exists_addressOf hall hmerge (.refl start) hobject hs hdefined
  have hfits' : ∀ (i : ℕ) (o' : ObjectFile), [o][i]? = some o' → ∀ r ∈ o'.relocations,
      RelocationFits options [o] i o' r := by
    intro i o' hobject r hr
    obtain ⟨hlt, heq⟩ := List.getElem?_eq_some_iff.mp hobject
    have hzero : i = 0 := by
      rw [List.length_singleton] at hlt
      omega
    subst hzero
    have hsame : o = o' := heq
    rw [← hsame] at hr ⊢
    exact hfits r hr
  obtain ⟨patched, hpatch⟩ := exists_applyRelocations hall hmerge hresolve hfits'
  have husable' : ∀ o' s, Candidate [o] options.entry o' s → EntryUsable o' s := by
    intro o' s hcandidate
    have hsame := List.mem_singleton.mp hcandidate.object
    rw [hsame] at hcandidate ⊢
    exact husable s hcandidate
  obtain ⟨executable, hbuild⟩ :=
    exists_buildExecutable hall hbases hmerge hresolve hpatch ⟨o, hexists⟩ husable'
  exact ⟨executable, link_of_stages (List.cons_ne_nil _ _) hmerge hresolve hpatch hbuild⟩

end

end Linker
end MiniTool
