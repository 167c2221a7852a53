import MiniToolchain.Object.ObjectIo

/-!
# What the reader accepts

An object that was read from a file is well formed: every cross-reference was checked while its
table was read.

## Main results

* `wellFormed_of_read` — what the reader returns is well formed.
-/

namespace MiniTool
namespace Object

open Binary Checked RecordTable

/-- A section the reader returns. -/
theorem section_of_check {stringTable blob : List UInt8} {fields : SectionRecord} {s : Section}
    (h : SectionRecord.check stringTable blob fields = .ok s) :
    (s.alignment ≠ 0 ∧ s.alignment &&& (s.alignment - 1) = 0) ∧ s.data.length ≤ s.size.toNat := by
  obtain ⟨_, -, h⟩ := bind_eq_ok.mp h
  obtain ⟨_, halignment, h⟩ := bind_eq_ok.mp h
  obtain ⟨_, -, h⟩ := bind_eq_ok.mp h
  obtain ⟨_, hmemory, h⟩ := bind_eq_ok.mp h
  obtain ⟨name, -, h⟩ := bind_eq_ok.mp h
  cases h
  have halignment := reject_eq_ok.mp halignment
  have hmemory := reject_eq_ok.mp hmemory
  rw [not_or, not_not] at halignment
  rw [UInt64.lt_iff_toNat_lt, not_lt] at hmemory
  refine ⟨halignment, ?_⟩
  show ((blob.drop fields.dataOffset.toNat).take fields.dataSize.toNat).length ≤
    fields.memorySize.toNat
  rw [List.length_take]
  omega

/-- What the symbol loop keeps: the sections of the symbols exist. -/
theorem accept_cases {stringTable : List UInt8} {sectionCount : UInt32} {t t' : SymbolTable}
    {fields : SymbolRecord} (h : SymbolRecord.accept stringTable sectionCount t fields = .ok t') :
    ∃ symbol : Symbol, t'.symbols = t.symbols ++ [symbol] ∧
      (symbol.sectionId = kUndefinedSection ∨ symbol.sectionId.toNat < sectionCount.toNat) := by
  obtain ⟨_, -, h⟩ := bind_eq_ok.mp h
  obtain ⟨_, -, h⟩ := bind_eq_ok.mp h
  obtain ⟨_, hsection, h⟩ := bind_eq_ok.mp h
  obtain ⟨name, -, h⟩ := bind_eq_ok.mp h
  obtain ⟨_, hnew, h⟩ := bind_eq_ok.mp h
  have hnew := SymbolTable.find_eq_none.mp (not_not.mp (reject_eq_ok.mp hnew))
  rw [SymbolTable.addSymbol_of_new hnew] at h
  cases h
  refine ⟨_, rfl, ?_⟩
  have hsection := reject_eq_ok.mp hsection
  rw [not_and_or, not_not, ge_iff_le, UInt32.le_iff_toNat_le, not_le] at hsection
  exact hsection

theorem symbols_of_accept {stringTable : List UInt8} {sectionCount : UInt32}
    {table : List SymbolRecord} :
    ∀ {t t' : SymbolTable}, table.foldlM (SymbolRecord.accept stringTable sectionCount) t = .ok t' →
      t'.size = t.size + table.length ∧ ((∀ s ∈ t.symbols,
        s.sectionId = kUndefinedSection ∨ s.sectionId.toNat < sectionCount.toNat) →
      ∀ s ∈ t'.symbols,
        s.sectionId = kUndefinedSection ∨ s.sectionId.toNat < sectionCount.toNat) := by
  induction table with
  | nil =>
    intro t t' h
    cases h
    exact ⟨rfl, id⟩
  | cons fields rest ih =>
    intro t t' h
    rw [List.foldlM_cons] at h
    obtain ⟨next, hstep, hrest⟩ := bind_eq_ok.mp h
    obtain ⟨symbol, hnext, hsymbol⟩ := accept_cases hstep
    obtain ⟨hsize, hkeep⟩ := ih hrest
    have hone : next.size = t.size + 1 := by
      unfold SymbolTable.size
      rw [hnext, List.length_append, List.length_singleton]
    refine ⟨by rw [hsize, hone, List.length_cons]; omega, fun ht => hkeep fun s hs => ?_⟩
    rw [hnext, List.mem_append, List.mem_singleton] at hs
    rcases hs with hs | rfl
    · exact ht s hs
    · exact hsymbol

/-- A relocation the reader returns fits its section. -/
theorem relocation_of_check {sections : List Section} {sectionCount symbolCount : UInt32}
    (hcount : sections.length = sectionCount.toNat) {fields : RelocationRecord} {r : Relocation}
    (h : RelocationRecord.check sections sectionCount symbolCount fields = .ok r) :
    r.symbol < symbolCount.toNat ∧ ∃ s, sections[r.sectionId.toNat]? = some s ∧
      r.offset.toNat + relocationWidth r.type ≤ s.data.length := by
  obtain ⟨_, -, h⟩ := bind_eq_ok.mp h
  obtain ⟨_, hsection, h⟩ := bind_eq_ok.mp h
  obtain ⟨_, hsymbol, h⟩ := bind_eq_ok.mp h
  obtain ⟨_, hfits, h⟩ := bind_eq_ok.mp h
  cases h
  have hsection := reject_eq_ok.mp hsection
  have hsymbol := reject_eq_ok.mp hsymbol
  have hfits := reject_eq_ok.mp hfits
  rw [ge_iff_le, UInt32.le_iff_toNat_le, ← hcount, not_le] at hsection
  rw [ge_iff_le, UInt32.le_iff_toNat_le, not_le] at hsymbol
  rw [List.getD_eq_getElem _ {} hsection] at hfits
  refine ⟨hsymbol, _, List.getElem?_eq_getElem hsection, ?_⟩
  show fields.offset.toNat + relocationWidth (RelocationType.ofValue fields.type) ≤ _
  omega

theorem debugEntry_of_check {sectionCount sourceCount : UInt32} {entry d : DebugEntry}
    (h : DebugEntry.check sectionCount sourceCount entry = .ok d) :
    d.sectionId.toNat < sectionCount.toNat ∧ d.file.toNat < sourceCount.toNat := by
  obtain ⟨_, hsection, h⟩ := bind_eq_ok.mp h
  obtain ⟨_, hfile, h⟩ := bind_eq_ok.mp h
  cases h
  have hsection := reject_eq_ok.mp hsection
  have hfile := reject_eq_ok.mp hfile
  rw [ge_iff_le, UInt32.le_iff_toNat_le, not_le] at hsection hfile
  exact ⟨hsection, hfile⟩

/-- What the reader returns is well formed. -/
theorem wellFormed_of_read {buffer : List UInt8} {o : ObjectFile}
    (h : readObjectFromBuffer buffer = .ok o) : o.WellFormed := by
  have hlen : kHeaderSize ≤ buffer.length := by
    obtain ⟨_, hlen, -⟩ := bind_eq_ok.mp h
    exact not_lt.mp (reject_eq_ok.mp hlen)
  rw [readObjectFromBuffer_eq hlen] at h
  obtain ⟨_, -, h⟩ := bind_eq_ok.mp h
  obtain ⟨_, hheader, h⟩ := bind_eq_ok.mp h
  obtain ⟨⟨stringTable, blob⟩, -, h⟩ := bind_eq_ok.mp h
  obtain ⟨_, hversion, -⟩ := bind_eq_ok.mp hheader
  obtain ⟨sections, hsections, h⟩ := bind_eq_ok.mp h
  obtain ⟨symbols, hsymbols, h⟩ := bind_eq_ok.mp h
  obtain ⟨relocations, hrelocations, h⟩ := bind_eq_ok.mp h
  obtain ⟨debugInfo, hdebug, h⟩ := bind_eq_ok.mp h
  obtain ⟨sourceFiles, hsources, h⟩ := bind_eq_ok.mp h
  cases h
  have hcount : sections.length = (headerAt buffer).sectionCount.toNat := by
    rw [← (mapM_eq_ok_iff.mp hsections).length_eq, length_records]
  have hfiles : sourceFiles.length = (headerAt buffer).sourceCount.toNat := by
    rw [← (mapM_eq_ok_iff.mp hsources).length_eq, length_records]
  obtain ⟨hsize, hkeep⟩ := symbols_of_accept hsymbols
  rw [length_records] at hsize
  have hsize : symbols.size = (headerAt buffer).symbolCount.toNat := hsize.trans (Nat.zero_add _)
  have hall := forall_of_mapM hsections fun _ _ => section_of_check
  exact {
    version := not_not.mp (reject_eq_ok.mp hversion)
    alignment := fun s hs => (hall s hs).1
    memory := fun s hs => (hall s hs).2
    symbols := by
      intro s hs
      rw [hcount]
      exact hkeep (fun s hs => absurd hs List.not_mem_nil) s hs
    relocations := by
      rw [hsize]
      exact forall_of_mapM hrelocations fun _ _ => relocation_of_check hcount
    debugInfo := by
      rw [hcount, hfiles]
      exact forall_of_mapM hdebug fun _ _ => debugEntry_of_check }

end Object
end MiniTool
