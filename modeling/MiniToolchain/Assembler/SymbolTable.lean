import MiniToolchain.Common.Types
import Mathlib.Data.List.Nodup

/-!
# Symbol tables

The symbols of one object file, in a stable order: relocations refer to symbols by index, so adding
a symbol never renumbers an existing one.  Names are distinct, which is the invariant the private
name index of the source maintains; it is a field here.

## Main definitions

* `Symbol`, `SymbolTable`.
* `SymbolTable.find`, `SymbolTable.findOrAdd`, `SymbolTable.addSymbol`, `SymbolTable.modify`.
-/

namespace MiniTool

/-- Index of a section within an object file. -/
abbrev SectionId := UInt32

/-- The section of a symbol that is referenced but not defined here. -/
abbrev kUndefinedSection : SectionId := 0xFFFFFFFF

inductive SymbolBinding
  /-- Visible only inside this object. -/
  | local
  /-- Visible to the linker; two definitions are an error. -/
  | global
  /-- A definition a strong one overrides, or a reference that resolves to 0. -/
  | weak
  /-- Declared here, defined elsewhere. -/
  | external
  deriving DecidableEq, Repr

namespace SymbolBinding

def value : SymbolBinding → UInt8
  | .local => 0
  | .global => 1
  | .weak => 2
  | .external => 3

/-- The enumerator with the given value; only used once the value is known to be valid. -/
def ofValue (v : UInt8) : SymbolBinding :=
  if v = 0 then .local else if v = 1 then .global else if v = 2 then .weak else .external

theorem ofValue_value (b : SymbolBinding) : ofValue b.value = b := by cases b <;> rfl

theorem value_le_external (b : SymbolBinding) : b.value ≤ SymbolBinding.external.value := by
  cases b <;> decide

end SymbolBinding

inductive SymbolType
  | noType
  | object
  | function
  | sectionSymbol
  deriving DecidableEq, Repr

namespace SymbolType

def value : SymbolType → UInt8
  | noType => 0
  | object => 1
  | function => 2
  | sectionSymbol => 3

/-- The enumerator with the given value; only used once the value is known to be valid. -/
def ofValue (v : UInt8) : SymbolType :=
  if v = 0 then noType else if v = 1 then object else if v = 2 then function else sectionSymbol

theorem ofValue_value (t : SymbolType) : ofValue t.value = t := by cases t <;> rfl

theorem value_le_sectionSymbol (t : SymbolType) : t.value ≤ SymbolType.sectionSymbol.value := by
  cases t <;> decide

end SymbolType

structure Symbol where
  name : Str
  binding : SymbolBinding := .local
  type : SymbolType := .noType
  /-- The section this symbol lives in, or `kUndefinedSection`. -/
  sectionId : SectionId := kUndefinedSection
  /-- Offset within that section, when defined. -/
  value : UInt64 := 0
  size : UInt64 := 0
  defined : Bool := false
  deriving DecidableEq, Repr

/-- The symbols of one object file; their names are distinct. -/
structure SymbolTable where
  symbols : List Symbol
  nodup : (symbols.map Symbol.name).Nodup
  deriving DecidableEq

namespace SymbolTable

def empty : SymbolTable := ⟨[], List.nodup_nil⟩

/-- The index of a name: what the name index of the source maps it to. -/
def indexOf (t : SymbolTable) (name : Str) : Option ℕ :=
  t.symbols.findIdx? fun s => s.name = name

def find (t : SymbolTable) (name : Str) : Option Symbol :=
  t.symbols.find? fun s => s.name = name

def size (t : SymbolTable) : ℕ := t.symbols.length

/-- The symbol at an index; the indices in use are ones the table returned. -/
def symbolAt (t : SymbolTable) (i : ℕ) : Symbol := t.symbols.getD i { name := [] }

/-- Changes a symbol in place; its name stays. -/
def modify (t : SymbolTable) (i : ℕ) (f : Symbol → Symbol) (hf : ∀ s, (f s).name = s.name) :
    SymbolTable where
  symbols := t.symbols.modify i f
  nodup := by
    have hmap : (t.symbols.modify i f).map Symbol.name = t.symbols.map Symbol.name := by
      apply List.ext_getElem (by simp)
      intro j hj _
      simp only [List.getElem_map, List.getElem_modify]
      split_ifs with hij
      · exact hf _
      · rfl
    rw [hmap]
    exact t.nodup

theorem indexOf_eq_none {t : SymbolTable} {name : Str} :
    t.indexOf name = none ↔ name ∉ t.symbols.map Symbol.name := by
  rw [indexOf, List.findIdx?_eq_none_iff]
  simp only [decide_eq_false_iff_not, List.mem_map, not_exists, not_and]

theorem indexOf_eq_some {t : SymbolTable} {name : Str} {i : ℕ} :
    t.indexOf name = some i ↔ ∃ h : i < t.symbols.length, t.symbols[i].name = name := by
  rw [indexOf, List.findIdx?_eq_some_iff_getElem]
  constructor
  · rintro ⟨h, hname, _⟩
    exact ⟨h, by simpa using hname⟩
  · rintro ⟨h, hname⟩
    refine ⟨h, by simpa using hname, fun j hj => ?_⟩
    intro hjname'
    have hjname := of_decide_eq_true hjname'
    have hlt : j < t.symbols.length := hj.trans h
    have hinj := @List.Nodup.getElem_inj_iff _ _ t.nodup j (by simpa using hlt) i
      (by simpa using h)
    simp only [List.getElem_map] at hinj
    exact hj.ne (hinj.mp (by rw [hjname, hname]))

/-- Appends a symbol with a new name. -/
def push (t : SymbolTable) (symbol : Symbol) (hnew : t.indexOf symbol.name = none) :
    SymbolTable where
  symbols := t.symbols ++ [symbol]
  nodup := by
    rw [List.map_append, List.map_singleton, List.nodup_append]
    refine ⟨t.nodup, List.pairwise_singleton _ _, ?_⟩
    intro name hname other hother heq
    rw [List.mem_singleton.mp hother] at heq
    exact indexOf_eq_none.mp hnew (heq ▸ hname)

/-- Puts a symbol in the place of one with the same name. -/
def replace (t : SymbolTable) (symbol : Symbol) (i : ℕ)
    (hold : t.indexOf symbol.name = some i) : SymbolTable where
  symbols := t.symbols.set i symbol
  nodup := by
    obtain ⟨hi, hname⟩ := indexOf_eq_some.mp hold
    have hmap : (t.symbols.set i symbol).map Symbol.name = t.symbols.map Symbol.name := by
      apply List.ext_getElem (by simp)
      intro j hj _
      simp only [List.getElem_map, List.getElem_set]
      split_ifs with hij
      · subst hij
        exact hname.symm
      · rfl
    rw [hmap]
    exact t.nodup

/-- Adds a symbol, or replaces the entry with the same name; returns its index. -/
def addSymbol (t : SymbolTable) (symbol : Symbol) : ℕ × SymbolTable :=
  match h : t.indexOf symbol.name with
  | some i => (i, t.replace symbol i h)
  | none => (t.symbols.length, t.push symbol h)

/-- The index of a name; the first mention of it adds an undefined local symbol. -/
def findOrAdd (t : SymbolTable) (name : Str) : ℕ × SymbolTable :=
  match t.indexOf name with
  | some i => (i, t)
  | none => t.addSymbol { name }

theorem find_eq_none {t : SymbolTable} {name : Str} :
    t.find name = none ↔ t.indexOf name = none := by
  rw [find, indexOf, List.find?_eq_none, List.findIdx?_eq_none_iff]
  simp

theorem addSymbol_of_new {t : SymbolTable} {symbol : Symbol} (h : t.indexOf symbol.name = none) :
    t.addSymbol symbol = (t.symbols.length, t.push symbol h) := by
  unfold addSymbol
  split
  · next i hi =>
    rw [h] at hi
    cases hi
  · rfl

/-! ### Lookups -/

theorem mem_of_find {t : SymbolTable} {name : Str} {s : Symbol} (h : t.find name = some s) :
    s ∈ t.symbols ∧ s.name = name :=
  ⟨List.mem_of_find?_eq_some h, by simpa using List.find?_some h⟩

/-- Names are distinct, so a lookup finds the symbol at an index under its own name. -/
theorem find_of_getElem? {t : SymbolTable} {i : ℕ} {s : Symbol} (h : t.symbols[i]? = some s) :
    t.find s.name = some s ∧ t.indexOf s.name = some i := by
  obtain ⟨hi, rfl⟩ := List.getElem?_eq_some_iff.mp h
  refine ⟨?_, indexOf_eq_some.mpr ⟨hi, rfl⟩⟩
  cases hfind : t.find t.symbols[i].name with
  | none =>
    rw [find_eq_none, indexOf_eq_none] at hfind
    exact absurd (List.mem_map_of_mem (List.getElem_mem hi)) hfind
  | some s =>
    obtain ⟨hmem, hname⟩ := mem_of_find hfind
    obtain ⟨j, hj, rfl⟩ := List.mem_iff_getElem.mp hmem
    have hinj := @List.Nodup.getElem_inj_iff _ _ t.nodup j (by simpa using hj) i (by simpa using hi)
    simp only [List.getElem_map] at hinj
    simp only [hinj.mp hname]

theorem find_of_mem {t : SymbolTable} {s : Symbol} (h : s ∈ t.symbols) :
    t.find s.name = some s := by
  obtain ⟨i, hi⟩ := List.mem_iff_getElem?.mp h
  exact (find_of_getElem? hi).1

/-- The symbol with a name is the one at the index of the name. -/
theorem getElem?_of_indexOf {t : SymbolTable} {name : Str} {i : ℕ} (h : t.indexOf name = some i) :
    ∃ s, t.symbols[i]? = some s ∧ s.name = name ∧ t.find name = some s := by
  obtain ⟨hi, hname⟩ := indexOf_eq_some.mp h
  have hget := List.getElem?_eq_getElem hi
  have hfind := (find_of_getElem? hget).1
  rw [hname] at hfind
  exact ⟨_, hget, hname, hfind⟩

theorem exists_indexOf {t : SymbolTable} {name : Str} {s : Symbol} (h : t.find name = some s) :
    ∃ i, t.indexOf name = some i ∧ t.symbols[i]? = some s := by
  obtain ⟨hmem, rfl⟩ := mem_of_find h
  obtain ⟨i, hi⟩ := List.mem_iff_getElem?.mp hmem
  exact ⟨i, (find_of_getElem? hi).2, hi⟩

/-- The names of a table, in the order of their indices. -/
def names (t : SymbolTable) : List Str := t.symbols.map Symbol.name

theorem indexOf_eq_some_names {t : SymbolTable} {name : Str} {i : ℕ} :
    t.indexOf name = some i ↔ t.names[i]? = some name := by
  rw [indexOf_eq_some, names, List.getElem?_eq_some_iff]
  simp only [List.length_map, List.getElem_map]

/-- A table that only grew still has every name at its index. -/
theorem indexOf_of_prefix {t t' : SymbolTable} (h : t.names <+: t'.names) {name : Str} {i : ℕ}
    (hi : t.indexOf name = some i) : t'.indexOf name = some i := by
  rw [indexOf_eq_some_names] at hi ⊢
  obtain ⟨added, hadded⟩ := h
  obtain ⟨hlt, -⟩ := List.getElem?_eq_some_iff.mp hi
  rw [← hadded, List.getElem?_append_left hlt, hi]

@[simp] theorem names_modify (t : SymbolTable) (i : ℕ) (f : Symbol → Symbol)
    (hf : ∀ s, (f s).name = s.name) : (t.modify i f hf).names = t.names := by
  unfold names modify
  apply List.ext_getElem (by rw [List.length_map, List.length_map, List.length_modify])
  intro j hj _
  simp only [List.getElem_map, List.getElem_modify]
  split_ifs with hij
  · exact hf _
  · rfl

/-- The symbol an update finds: a new name starts as an undefined local one. -/
def findOrNew (t : SymbolTable) (name : Str) : Symbol := (t.find name).getD { name }

theorem findOrNew_name (t : SymbolTable) (name : Str) : (t.findOrNew name).name = name := by
  unfold findOrNew
  cases hfind : t.find name with
  | none => rfl
  | some s => exact (mem_of_find hfind).2

/-- What `findOrAdd` returns: a table with the name, at the index it returns. -/
theorem findOrAdd_spec (t : SymbolTable) (name : Str) :
    (t.findOrAdd name).2.symbols[(t.findOrAdd name).1]? = some (t.findOrNew name) ∧
      t.names <+: (t.findOrAdd name).2.names ∧
      ∀ n, n ≠ name → (t.findOrAdd name).2.find n = t.find n := by
  unfold findOrAdd
  cases hindex : t.indexOf name with
  | some i =>
    obtain ⟨s, hget, -, hfind⟩ := getElem?_of_indexOf hindex
    refine ⟨?_, List.prefix_refl _, fun _ _ => rfl⟩
    rw [findOrNew, hfind]
    exact hget
  | none =>
    dsimp only
    rw [addSymbol_of_new hindex]
    refine ⟨?_, ?_, fun n hn => ?_⟩
    · rw [findOrNew, find_eq_none.mpr hindex]
      exact List.getElem?_concat_length
    · unfold names push
      rw [List.map_append]
      exact List.prefix_append _ _
    · unfold find push
      rw [List.find?_append, List.find?_cons_of_neg (by simpa using fun h => hn h.symm)]
      simp

/-- Changing the symbol at an index. -/
theorem find_modify {t : SymbolTable} {i : ℕ} {s : Symbol} (hi : t.symbols[i]? = some s)
    (f : Symbol → Symbol) (hf : ∀ s, (f s).name = s.name) (n : Str) :
    (t.modify i f hf).find n = if n = s.name then some (f s) else t.find n := by
  have hself : (t.modify i f hf).symbols[i]? = some (f s) := by
    show (t.symbols.modify i f)[i]? = _
    rw [List.getElem?_modify_eq, hi]
    rfl
  split_ifs with hn
  · have := (find_of_getElem? hself).1
    rwa [hf, ← hn] at this
  · cases hfind : t.find n with
    | none =>
      rw [find_eq_none, indexOf_eq_none] at hfind ⊢
      have hnames := names_modify t i f hf
      unfold names at hnames
      rwa [hnames]
    | some s' =>
      obtain ⟨j, hindex, hget⟩ := exists_indexOf hfind
      have hne : i ≠ j := by
        rintro rfl
        rw [hi] at hget
        cases hget
        exact hn (mem_of_find hfind).2.symm
      have hother : (t.modify i f hf).symbols[j]? = some s' := by
        show (t.symbols.modify i f)[j]? = _
        rw [List.getElem?_modify_ne f t.symbols hne, hget]
      have := (find_of_getElem? hother).1
      rwa [(mem_of_find hfind).2] at this

/-- The assembler's updates: find a name, adding it if it is new, and change its symbol. -/
theorem find_update (t : SymbolTable) (name : Str) (f : Symbol → Symbol)
    (hf : ∀ s, (f s).name = s.name) (n : Str) :
    ((t.findOrAdd name).2.modify (t.findOrAdd name).1 f hf).find n =
      if n = name then some (f (t.findOrNew name)) else t.find n := by
  obtain ⟨hget, -, hother⟩ := t.findOrAdd_spec name
  rw [find_modify hget, findOrNew_name]
  split_ifs with hn
  · rfl
  · exact hother n hn

theorem names_findOrAdd_modify (t : SymbolTable) (name : Str) (f : Symbol → Symbol)
    (hf : ∀ s, (f s).name = s.name) :
    t.names <+: ((t.findOrAdd name).2.modify (t.findOrAdd name).1 f hf).names := by
  rw [names_modify]
  exact (t.findOrAdd_spec name).2.1

theorem symbolAt_findOrAdd (t : SymbolTable) (name : Str) :
    (t.findOrAdd name).2.symbolAt (t.findOrAdd name).1 = t.findOrNew name := by
  unfold symbolAt
  rw [List.getD_eq_getElem?_getD, (t.findOrAdd_spec name).1]
  rfl

end SymbolTable

end MiniTool
