import MiniToolchain.Linker.Entry

/-!
# The line table of a link

The debug entries of the objects, with final addresses and one table of files for all of them,
sorted by address.

## Main definitions

* `Line`, `lineOf` — what a debug entry of an object stands for.
* `linesOf` — what those of all objects stand for.
* `Shows` — an entry of the line table says so.

## Main results

* `lines_of_buildDebugInfo` — the line table shows the lines of the objects.
* `find?_address` — the entry for an address, when no two have one address.
-/

namespace MiniTool

/-- The entry of the line table for an address. -/
def Executable.debugEntryFor (executable : Executable) (address : UInt64) :
    Option Executable.DebugEntry :=
  executable.debugInfo.find? fun entry => entry.address = address

namespace Linker

open Object

/-- A place in a source file, and the address it is for. -/
structure Line where
  address : UInt64
  file : Str
  line : UInt32
  column : UInt32

/-- What a debug entry of an object stands for in a link. -/
def lineOf (options : LinkOptions) (objects : List ObjectFile) (i : ℕ) (o : ObjectFile)
    (entry : DebugEntry) : Option Line :=
  if entry.sectionId.toNat ≥ o.sections.length ∨ entry.file.toNat ≥ o.sourceFiles.length then none
  else
    (sectionAddress options objects i entry.sectionId.toNat).map fun base =>
      { address := base + entry.offset
        file := o.sourceFiles.getD entry.file.toNat []
        line := entry.line
        column := entry.column }

/-- What the debug entries of all objects stand for, in order. -/
def linesOf (options : LinkOptions) (objects : List ObjectFile) : List Line :=
  objects.zipIdx.flatMap fun entry =>
    entry.1.debugInfo.filterMap (lineOf options objects entry.2 entry.1)

/-- The entry says what the line says. -/
structure Shows (files : List Str) (entry : Executable.DebugEntry) (l : Line) : Prop where
  address : entry.address = l.address
  file : files[entry.file.toNat]? = some l.file
  line : entry.line = l.line
  column : entry.column = l.column

theorem Shows.mono {files files' : List Str} (hstarts : files <+: files')
    {entry : Executable.DebugEntry} {l : Line} (h : Shows files entry l) : Shows files' entry l :=
  { h with file := (List.prefix_iff_getElem?.mp hstarts _
      (List.getElem?_eq_some_iff.mp h.file).1).trans (by
        obtain ⟨hlt, hget⟩ := List.getElem?_eq_some_iff.mp h.file
        rw [hget]) }

/-- The entries so far show the lines, and there are no more files than lines. -/
structure Built (info : DebugInfo) (lines : List Line) : Prop where
  shows : List.Forall₂ (Shows info.sourceFiles) info.entries lines
  files : info.sourceFiles.length ≤ lines.length

section

variable {options : LinkOptions} {objects : List ObjectFile} {start layout : Layout} {i : ℕ}
  {o : ObjectFile} {info info' : DebugInfo}

/-- The file is in the table now, at its index. -/
theorem fileIndex_spec (info : DebugInfo) (file : Str) (h : info.sourceFiles.length < 2 ^ 32) :
    (info.fileIndex file).2.entries = info.entries ∧
      info.sourceFiles <+: (info.fileIndex file).2.sourceFiles ∧
      (info.fileIndex file).2.sourceFiles.length ≤ info.sourceFiles.length + 1 ∧
      (info.fileIndex file).2.sourceFiles[(info.fileIndex file).1.toNat]? = some file := by
  unfold DebugInfo.fileIndex
  cases hfind : info.sourceFiles.findIdx? fun known => known = file with
  | some index =>
    obtain ⟨hlt, heq, -⟩ := List.findIdx?_eq_some_iff_getElem.mp hfind
    have hindex : (UInt32.ofNat index).toNat = index :=
      UInt32.toNat_ofNat_of_lt' (by simp only [UInt32.size]; omega)
    refine ⟨rfl, List.prefix_rfl, Nat.le_succ _, ?_⟩
    dsimp only
    rw [hindex, List.getElem?_eq_getElem hlt]
    exact congrArg some (by simpa using heq)
  | none =>
    have hindex : (UInt32.ofNat info.sourceFiles.length).toNat = info.sourceFiles.length :=
      UInt32.toNat_ofNat_of_lt' (by simp only [UInt32.size]; omega)
    refine ⟨rfl, List.prefix_append _ _, ?_, ?_⟩
    · exact (@List.length_append _ info.sourceFiles [file]).le
    · dsimp only
      rw [hindex, List.getElem?_concat_length]

/-- One debug entry. -/
theorem addDebugEntry_cases (hmerge : mergeSections options objects = .ok start)
    (hpatched : start.Patched layout) {entry : DebugEntry}
    (h : addDebugEntry layout i o info entry = .ok info') :
    (lineOf options objects i o entry = none ∧ info' = info) ∨
    ∃ l, lineOf options objects i o entry = some l ∧
      info' = { (info.fileIndex l.file).2 with
        entries := (info.fileIndex l.file).2.entries ++
          [{ address := l.address, file := (info.fileIndex l.file).1
             line := l.line, column := l.column }] } := by
  unfold addDebugEntry at h
  unfold lineOf
  by_cases hout : entry.sectionId.toNat ≥ o.sections.length ∨
    entry.file.toNat ≥ o.sourceFiles.length
  · rw [if_pos hout] at h ⊢
    cases h
    exact Or.inl ⟨rfl, rfl⟩
  rw [if_neg hout] at h ⊢
  obtain ⟨placed, hplaced, h⟩ := Checked.bind_eq_ok.mp h
  obtain ⟨found, hfound, h⟩ := Checked.bind_eq_ok.mp h
  have hrow : start.placements[i]? = some placed := by
    rw [← hpatched.placements]
    exact getElem?_of_elementAt hplaced
  unfold sectionAddress
  rw [hmerge]
  dsimp only
  cases found with
  | none =>
    cases h
    have hnone : start.placementAt i entry.sectionId.toNat = none := by
      unfold Layout.placementAt
      rw [hrow, Option.bind_some, getElem?_of_elementAt hfound]
      rfl
    rw [hnone]
    exact Or.inl ⟨rfl, rfl⟩
  | some placement =>
    obtain ⟨file, hfile, h⟩ := Checked.bind_eq_ok.mp h
    obtain ⟨region, hregion, h⟩ := Checked.bind_eq_ok.mp h
    cases h
    have hat : start.placementAt i entry.sectionId.toNat = some placement :=
      placementAt_eq_some.mpr ⟨placed, hrow, getElem?_of_elementAt hfound⟩
    -- relocations have not moved the region
    obtain ⟨before, hbefore, hone⟩ := hpatched.getElem? (getElem?_of_elementAt hregion)
    have hname : o.sourceFiles.getD entry.file.toNat [] = file := by
      rw [List.getD_eq_getElem?_getD, getElem?_of_elementAt hfile]
      rfl
    refine Or.inr ⟨{ address := region.base + placement.offset + entry.offset, file
                     line := entry.line, column := entry.column }, ?_, rfl⟩
    rw [hat, Option.bind_some, hbefore, Option.map_some, Option.map_some, hname, hone.same.base]

theorem Built.addDebugEntry (hmerge : mergeSections options objects = .ok start)
    (hpatched : start.Patched layout) {entry : DebugEntry} {lines : List Line}
    (h : Built info lines) (hsmall : lines.length < 2 ^ 32)
    (hstep : addDebugEntry layout i o info entry = .ok info') :
    Built info' (lines ++ (lineOf options objects i o entry).toList) := by
  rcases addDebugEntry_cases hmerge hpatched hstep with ⟨hnone, rfl⟩ | ⟨l, hsome, rfl⟩
  · rw [hnone]
    exact ⟨by simpa using h.shows, by simpa using h.files⟩
  · have hfew := h.files
    obtain ⟨hentries, hstarts, hlength, hfile⟩ := fileIndex_spec info l.file (by omega)
    rw [hsome]
    refine ⟨?_, ?_⟩
    · rw [hentries]
      refine List.rel_append (h.shows.imp fun _ _ hone => hone.mono hstarts) ?_
      exact .cons ⟨rfl, hfile, rfl, rfl⟩ .nil
    · rw [List.length_append, Option.toList_some, List.length_singleton]
      exact hlength.trans (by omega)

/-- The debug entries of one object. -/
theorem Built.addDebugEntries (hmerge : mergeSections options objects = .ok start)
    (hpatched : start.Patched layout) {entries : List DebugEntry} {lines : List Line}
    (h : Built info lines)
    (hsmall : lines.length + (entries.filterMap (lineOf options objects i o)).length < 2 ^ 32)
    (hfold : entries.foldlM (Linker.addDebugEntry layout i o) info = .ok info') :
    Built info' (lines ++ entries.filterMap (lineOf options objects i o)) := by
  induction entries generalizing info lines with
  | nil =>
    cases hfold
    rw [List.filterMap_nil, List.append_nil]
    exact h
  | cons entry entries ih =>
    rw [List.foldlM_cons] at hfold
    obtain ⟨next, hone, hrest⟩ := Checked.bind_eq_ok.mp hfold
    have hcons : (entry :: entries).filterMap (lineOf options objects i o) =
        (lineOf options objects i o entry).toList ++
          entries.filterMap (lineOf options objects i o) := by
      cases hline : lineOf options objects i o entry with
      | none => rw [List.filterMap_cons_none hline]; rfl
      | some l => rw [List.filterMap_cons_some hline]; rfl
    rw [hcons, List.length_append] at hsmall
    rw [hcons, ← List.append_assoc]
    refine ih (h.addDebugEntry hmerge hpatched (by omega) hone) ?_ hrest
    rw [List.length_append]
    omega

/-- **The line table shows the lines of the objects**, as long as there are not too many. -/
theorem lines_of_buildDebugInfo (hmerge : mergeSections options objects = .ok start)
    (hpatched : start.Patched layout) (hsmall : (linesOf options objects).length < 2 ^ 32)
    (h : buildDebugInfo layout objects = .ok info) :
    ∃ entries : List Executable.DebugEntry, info.entries.Perm entries ∧
      List.Forall₂ (Shows info.sourceFiles) entries (linesOf options objects) := by
  have hrun : ∀ (rest : List (ObjectFile × ℕ)) (info info' : DebugInfo) (lines : List Line),
      Built info lines →
      lines.length + (rest.flatMap fun entry =>
        entry.1.debugInfo.filterMap (lineOf options objects entry.2 entry.1)).length < 2 ^ 32 →
      rest.foldlM (fun info entry =>
        entry.1.debugInfo.foldlM (Linker.addDebugEntry layout entry.2 entry.1) info)
          info = .ok info' →
      Built info' (lines ++ rest.flatMap fun entry =>
        entry.1.debugInfo.filterMap (lineOf options objects entry.2 entry.1)) := by
    intro rest
    induction rest with
    | nil =>
      intro info info' lines hbuilt _ hfold
      cases hfold
      rw [List.flatMap_nil, List.append_nil]
      exact hbuilt
    | cons entry rest ih =>
      intro info info' lines hbuilt hlength hfold
      rw [List.foldlM_cons] at hfold
      obtain ⟨next, hone, hrest⟩ := Checked.bind_eq_ok.mp hfold
      rw [List.flatMap_cons, List.length_append] at hlength
      rw [List.flatMap_cons, ← List.append_assoc]
      refine ih next info' _ (hbuilt.addDebugEntries hmerge hpatched (by omega) hone) ?_ hrest
      rw [List.length_append]
      omega
  unfold buildDebugInfo at h
  obtain ⟨all, hfold, h⟩ := Checked.bind_eq_ok.mp h
  cases h
  have hbuilt := hrun objects.zipIdx {} all [] ⟨.nil, le_rfl⟩
    (by rw [List.length_nil, Nat.zero_add]; exact hsmall) hfold
  rw [List.nil_append] at hbuilt
  exact ⟨all.entries, List.mergeSort_perm _ _, hbuilt.shows⟩

end

/-- The entry for an address, when no two entries have one address. -/
theorem find?_address {entries : List Executable.DebugEntry}
    (hnodup : (entries.map Executable.DebugEntry.address).Nodup) {entry : Executable.DebugEntry}
    (h : entry ∈ entries) :
    (entries.find? fun other => other.address = entry.address) = some entry := by
  induction entries with
  | nil => cases h
  | cons first entries ih =>
    rw [List.map_cons, List.nodup_cons] at hnodup
    rcases List.mem_cons.mp h with rfl | h
    · rw [List.find?_cons_of_pos (by simp)]
    · have hne : first.address ≠ entry.address := by
        intro heq
        exact hnodup.1 (heq ▸ List.mem_map_of_mem h)
      rw [List.find?_cons_of_neg (by simpa using hne)]
      exact ih hnodup.2 h

end Linker
end MiniTool
