import MiniToolchain.Assembler.Assembler
import MiniToolchain.Lib.Checked
import Mathlib.Tactic.Tauto

/-!
# The symbols of a file by name

After the first pass the assembler only changes symbols under their names: a directive sets a
binding, a reference makes a name that is neither defined nor declared external.  An update finds
the name, adding it when it is new, so that a table never loses a name and no name moves to another
index.

## Main definitions

* `Touched f names t t'` — the symbols with these names were updated with `f`.
* `promote` — what a reference does to a symbol.
* `bindingOf` — the binding the directives of a file give a name.

## Main results

* `applyBindings_spec`, `referenceSymbol_spec` — the symbols after the directives, and after a
  reference.
-/

namespace MiniTool
namespace Assembler

open Object AssemblyContext

/-! ### Updates -/

/-- The symbols with these names were updated with `f`, and no others; an update finds its name or
adds it. -/
structure Touched (f : Symbol → Symbol) (names : List Str) (t t' : SymbolTable) : Prop where
  kept : t.names <+: t'.names
  find : ∀ n, t'.find n = if n ∈ names then some (f (t.findOrNew n)) else t.find n

namespace Touched

variable {f : Symbol → Symbol} {names more : List Str} {t t' t'' : SymbolTable}

theorem refl (f : Symbol → Symbol) (t : SymbolTable) : Touched f [] t t :=
  ⟨List.prefix_refl _, fun n => by rw [if_neg List.not_mem_nil]⟩

theorem findOrNew (h : Touched f names t t') (n : Str) :
    t'.findOrNew n = if n ∈ names then f (t.findOrNew n) else t.findOrNew n := by
  unfold SymbolTable.findOrNew
  rw [h.find]
  split_ifs
  · rfl
  · rfl

theorem trans (hf : ∀ s, f (f s) = f s) (h : Touched f names t t') (h' : Touched f more t' t'') :
    Touched f (names ++ more) t t'' := by
  refine ⟨h.kept.trans h'.kept, ?_⟩
  intro n
  rw [h'.find, h.find, h.findOrNew]
  by_cases hn : n ∈ names
  · simp only [hn, if_true, hf, List.mem_append, true_or, ite_self]
  · simp only [hn, if_false, List.mem_append, false_or]

/-- One update. -/
theorem update (t : SymbolTable) (name : Str) (f : Symbol → Symbol)
    (hf : ∀ s, (f s).name = s.name) :
    Touched f [name] t ((t.findOrAdd name).2.modify (t.findOrAdd name).1 f hf) := by
  refine ⟨t.names_findOrAdd_modify name f hf, ?_⟩
  intro n
  rw [t.find_update]
  simp only [List.mem_singleton]
  split_ifs with hn
  · rw [hn]
  · rfl

/-- A name that is looked up without an update. -/
theorem findOrAdd (t : SymbolTable) (name : Str) (hf : f (t.findOrNew name) = t.findOrNew name) :
    Touched f [name] t (t.findOrAdd name).2 := by
  obtain ⟨hget, hnames, hother⟩ := t.findOrAdd_spec name
  refine ⟨hnames, ?_⟩
  intro n
  simp only [List.mem_singleton]
  split_ifs with hn
  · have hfind := (SymbolTable.find_of_getElem? hget).1
    rw [SymbolTable.findOrNew_name] at hfind
    rw [hn, hfind, hf]
  · exact hother n hn

end Touched

/-! ### Directives -/

/-- Setting a binding. -/
def withBinding (binding : SymbolBinding) (s : Symbol) : Symbol := { s with binding }

theorem withBinding_withBinding (binding : SymbolBinding) (s : Symbol) :
    withBinding binding (withBinding binding s) = withBinding binding s := rfl

theorem setBinding_spec (binding : SymbolBinding) (names : List Str) (c : AssemblyContext) :
    (names.foldl (setBinding binding) c).failed = c.failed ∧
    (names.foldl (setBinding binding) c).object =
      { c.object with symbols := (names.foldl (setBinding binding) c).object.symbols } ∧
    Touched (withBinding binding) names c.object.symbols
      (names.foldl (setBinding binding) c).object.symbols := by
  induction names generalizing c with
  | nil => exact ⟨rfl, rfl, .refl _ _⟩
  | cons name names ih =>
    obtain ⟨hfailed, hobject, htouched⟩ := ih (setBinding binding c name)
    refine ⟨hfailed, hobject, ?_⟩
    have hfirst : Touched (withBinding binding) [name] c.object.symbols
        (setBinding binding c name).object.symbols :=
      .update c.object.symbols name (withBinding binding) fun _ => rfl
    exact hfirst.trans (withBinding_withBinding _) htouched

theorem failed_declareExtern {c : AssemblyContext} {name : Str}
    (h : (c.declareExtern name).failed = false) : c.failed = false ∧
      (c.object.symbols.findOrNew name).defined = false ∧
      Touched (withBinding .external) [name] c.object.symbols
        (c.declareExtern name).object.symbols := by
  have hat := c.object.symbols.symbolAt_findOrAdd name
  unfold AssemblyContext.declareExtern at h ⊢
  dsimp only at h ⊢
  rw [hat] at h ⊢
  by_cases hdefined : (c.object.symbols.findOrNew name).defined = true
  · rw [if_pos hdefined] at h
    cases h
  · rw [if_neg hdefined] at h ⊢
    exact ⟨h, by simpa using hdefined,
      .update c.object.symbols name (withBinding .external) fun _ => rfl⟩

theorem object_declareExtern (c : AssemblyContext) (name : Str) :
    (c.declareExtern name).object =
      { c.object with symbols := (c.declareExtern name).object.symbols } := by
  unfold AssemblyContext.declareExtern
  dsimp only
  split
  · rfl
  · rfl

/-- `.extern` is an error for a name that is defined. -/
theorem declareExterns_spec {names : List Str} {c : AssemblyContext}
    (hok : (names.foldl declareExtern c).failed = false) :
    c.failed = false ∧
    (∀ n ∈ names, (c.object.symbols.findOrNew n).defined = false) ∧
    (names.foldl declareExtern c).object =
      { c.object with symbols := (names.foldl declareExtern c).object.symbols } ∧
    Touched (withBinding .external) names c.object.symbols
      (names.foldl declareExtern c).object.symbols := by
  induction names generalizing c with
  | nil => exact ⟨hok, fun _ h => absurd h List.not_mem_nil, rfl, .refl _ _⟩
  | cons name names ih =>
    obtain ⟨hone, hundefined, hobject, htouched⟩ := ih hok
    obtain ⟨hfailed, hfirst, htouched'⟩ := failed_declareExtern hone
    refine ⟨hfailed, ?_, ?_, htouched'.trans (withBinding_withBinding _) htouched⟩
    · -- setting a binding defines nothing
      intro n hn
      rcases List.mem_cons.mp hn with rfl | hn
      · exact hfirst
      · have hlater := hundefined n hn
        rw [htouched'.findOrNew] at hlater
        split_ifs at hlater
        · exact hlater
        · exact hlater
    · rw [List.foldl_cons, hobject, object_declareExtern]

/-- The binding the directives of a file give a name: `.extern` wins over `.weak`, and that over
`.global`. -/
def bindingOf (m : Ir.Module) (n : Str) (otherwise : SymbolBinding) : SymbolBinding :=
  if n ∈ m.externs then .external
  else if n ∈ m.weaks then .weak
  else if n ∈ m.globals then .global
  else otherwise

/-- The names in the directives of a file. -/
def declaredNames (m : Ir.Module) : List Str := m.globals ++ m.weaks ++ m.externs

/-- A directive never makes a symbol local. -/
theorem bindingOf_of_declared {m : Ir.Module} {n : Str} (h : n ∈ declaredNames m)
    (otherwise : SymbolBinding) :
    bindingOf m n otherwise = bindingOf m n .external ∧ bindingOf m n .external ≠ .local := by
  simp only [declaredNames, List.mem_append] at h
  unfold bindingOf
  split_ifs with hexternal hweak hglobal
  · exact ⟨rfl, nofun⟩
  · exact ⟨rfl, nofun⟩
  · exact ⟨rfl, nofun⟩
  · tauto

theorem bindingOf_of_not_declared {m : Ir.Module} {n : Str} (h : n ∉ declaredNames m)
    (otherwise : SymbolBinding) : bindingOf m n otherwise = otherwise := by
  simp only [declaredNames, List.mem_append, not_or] at h
  rw [bindingOf, if_neg h.2, if_neg h.1.2, if_neg h.1.1]

/-- The symbols after the directives. -/
theorem applyBindings_spec {c : AssemblyContext} {m : Ir.Module}
    (hok : (c.applyBindings m).failed = false) :
    c.failed = false ∧
    (∀ n ∈ m.externs, (c.object.symbols.findOrNew n).defined = false) ∧
    (c.applyBindings m).object =
      { c.object with symbols := (c.applyBindings m).object.symbols } ∧
    c.object.symbols.names <+: (c.applyBindings m).object.symbols.names ∧
    ∀ n, (c.applyBindings m).object.symbols.find n =
      if n ∈ declaredNames m then
        some (withBinding (bindingOf m n .local) (c.object.symbols.findOrNew n))
      else c.object.symbols.find n := by
  unfold AssemblyContext.applyBindings at hok ⊢
  dsimp only at hok ⊢
  obtain ⟨hfailed₁, hobject₁, htouched₁⟩ := setBinding_spec .global m.globals c
  generalize m.globals.foldl (setBinding .global) c = c₁ at *
  obtain ⟨hfailed₂, hobject₂, htouched₂⟩ := setBinding_spec .weak m.weaks c₁
  generalize m.weaks.foldl (setBinding .weak) c₁ = c₂ at *
  obtain ⟨hfailed₃, hundefined, hobject₃, htouched₃⟩ := declareExterns_spec hok
  generalize m.externs.foldl declareExtern c₂ = c₃ at *
  refine ⟨?_, ?_, ?_, ?_, ?_⟩
  · rw [← hfailed₁, ← hfailed₂]
    exact hfailed₃
  · intro n hn
    have hlater := hundefined n hn
    rw [htouched₂.findOrNew, htouched₁.findOrNew] at hlater
    split_ifs at hlater <;> exact hlater
  · rw [hobject₃, hobject₂, hobject₁]
  · exact htouched₁.kept.trans (htouched₂.kept.trans htouched₃.kept)
  · intro n
    rw [htouched₃.find, htouched₂.findOrNew, htouched₁.findOrNew, htouched₂.find,
      htouched₁.findOrNew, htouched₁.find]
    unfold declaredNames bindingOf
    simp only [List.mem_append]
    by_cases h₃ : n ∈ m.externs <;> by_cases h₂ : n ∈ m.weaks <;> by_cases h₁ : n ∈ m.globals <;>
      simp only [h₁, h₂, h₃, if_true, if_false, or_true, true_or, or_self] <;> rfl

/-! ### References -/

/-- A name that a reference finds neither defined nor declared becomes external. -/
def promote (s : Symbol) : Symbol :=
  if s.defined = false ∧ s.binding = .local then { s with binding := .external } else s

theorem promote_of_defined {s : Symbol} (h : s.defined = true) : promote s = s := by
  rw [promote, if_neg]
  rintro ⟨hundefined, -⟩
  rw [h] at hundefined
  cases hundefined

theorem promote_of_binding {s : Symbol} (h : s.binding ≠ .local) : promote s = s := by
  rw [promote, if_neg]
  rintro ⟨-, hlocal⟩
  exact h hlocal

theorem promote_promote (s : Symbol) : promote (promote s) = promote s := by
  by_cases h : s.defined = false ∧ s.binding = .local
  · rw [promote, promote, if_pos h, if_neg]
    rintro ⟨-, hbinding⟩
    cases hbinding
  · rw [promote, promote, if_neg h, if_neg h]

theorem failed_referenceSymbol {c : AssemblyContext} {reference : Ir.SymbolRef}
    {location : SourceLocation} (h : (c.referenceSymbol reference location).2.failed = false) :
    c.failed = false := by
  unfold AssemblyContext.referenceSymbol at h
  dsimp only at h
  split_ifs at h
  · cases h
  · exact h
  · exact h

/-- The symbols after a reference. -/
theorem referenceSymbol_spec {c : AssemblyContext} {reference : Ir.SymbolRef}
    {location : SourceLocation} (hok : (c.referenceSymbol reference location).2.failed = false) :
    (c.referenceSymbol reference location).2.object =
      { c.object with symbols := (c.referenceSymbol reference location).2.object.symbols } ∧
    Touched promote [reference.name] c.object.symbols
      (c.referenceSymbol reference location).2.object.symbols ∧
    (c.referenceSymbol reference location).2.object.symbols.indexOf reference.name =
      some (c.referenceSymbol reference location).1 := by
  obtain ⟨hget, hnames, -⟩ := c.object.symbols.findOrAdd_spec reference.name
  have hindex := (SymbolTable.find_of_getElem? hget).2
  rw [SymbolTable.findOrNew_name] at hindex
  have hat := c.object.symbols.symbolAt_findOrAdd reference.name
  unfold AssemblyContext.referenceSymbol at hok ⊢
  dsimp only at hok ⊢
  rw [hat] at hok ⊢
  by_cases hcase : (c.object.symbols.findOrNew reference.name).defined = false ∧
      (c.object.symbols.findOrNew reference.name).binding = .local
  · rw [if_pos hcase] at hok ⊢
    by_cases hlocal : reference.name.startsWith (str ".L") = true
    · rw [if_pos hlocal] at hok
      cases hok
    · rw [if_neg hlocal]
      have hupdate := Touched.update c.object.symbols reference.name (withBinding .external)
        fun _ => rfl
      refine ⟨rfl, ⟨hupdate.kept, ?_⟩, ?_⟩
      · -- the only symbol that is changed is one that `promote` changes
        intro n
        refine (hupdate.find n).trans ?_
        simp only [List.mem_singleton]
        split_ifs with hn
        · rw [hn, promote, if_pos hcase]
          rfl
        · rfl
      · refine SymbolTable.indexOf_of_prefix ?_ hindex
        have hnames := (c.object.symbols.findOrAdd reference.name).2.names_modify
          (c.object.symbols.findOrAdd reference.name).1 (withBinding .external) fun _ => rfl
        exact hnames.symm ▸ List.prefix_refl _
  · rw [if_neg hcase] at hok ⊢
    exact ⟨rfl, .findOrAdd _ _ (by rw [promote, if_neg hcase]), hindex⟩

end Assembler
end MiniTool
