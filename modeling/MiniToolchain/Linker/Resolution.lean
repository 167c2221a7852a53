import MiniToolchain.Linker.Order
import MiniToolchain.Linker.Owner

/-!
# Which definition a link takes

Two global definitions of a name are the only reason for which a link reports a duplicate symbol,
wherever they stand.  Without them a reference that the object does not keep to itself gets the
global definition of its name, or the first weak one.

## Main definitions

* `ReportsDuplicate` — the error of a name with two global definitions.
* `globalDefinitions` — the global definitions of a name.
* `Takes` — the definition that stands for a name outside the objects that keep it to themselves.

## Main results

* `reportsDuplicate_iff` — when a link reports a duplicate symbol.
* `takes_of_targetOf` — the address a reference gets is that of the definition it takes.
-/

namespace MiniTool
namespace Linker

open Object

/-! ### Duplicate symbols -/

/-- The error of a name with two global definitions. -/
def ReportsDuplicate (e : LinkError) : Prop := ∃ d, e = .failed d ∧ d.code = .duplicateSymbol

theorem not_reportsDuplicate_of_code {code : Diag.ErrorCode} (h : code ≠ .duplicateSymbol)
    {message : String} : ¬ReportsDuplicate (.failed (Diag.error code {} message)) := by
  rintro ⟨d, heq, hcode⟩
  cases heq
  exact h hcode

theorem not_reportsDuplicate_outOfRange : ¬ReportsDuplicate .outOfRange := by
  rintro ⟨d, heq, -⟩
  cases heq

theorem ne_error_elementAt {α : Type} (xs : List α) (i : ℕ) {e : LinkError}
    (he : ReportsDuplicate e) : elementAt xs i ≠ .error e := by
  intro h
  unfold elementAt at h
  split at h
  · cases h
  · cases h
    exact not_reportsDuplicate_outOfRange he

section

variable {objects : List ObjectFile} {layout : Layout} {symbols : Symbols} {e : LinkError}

theorem reportsDuplicate_of_addDefinition {name : Str} {d : Definition}
    (h : addDefinition symbols name d = .error e) : ReportsDuplicate e := by
  unfold addDefinition at h
  split at h
  · cases h
  · split_ifs at h
    cases h
    exact ⟨_, rfl, rfl⟩

theorem reportsDuplicate_of_defineSymbol {v : (ObjectFile × ℕ) × Symbol}
    (haddress : v.2.defined = true → ∃ address, addressOf layout v.1.2 v.1.1 v.2 = .ok address)
    (h : defineSymbol layout v.1.2 v.1.1 symbols v.2 = .error e) : ReportsDuplicate e := by
  unfold defineSymbol at h
  by_cases hdefined : v.2.defined = true
  · obtain ⟨address, hok⟩ := haddress hdefined
    rw [if_pos hdefined, hok, Checked.ok_bind] at h
    dsimp only at h
    by_cases hlocal : v.2.binding = .local
    · rw [if_pos hlocal] at h
      cases h
    · rw [if_neg hlocal] at h
      exact reportsDuplicate_of_addDefinition h
  · rw [if_neg hdefined] at h
    cases h

theorem checkReference_ne_error (he : ReportsDuplicate e) (i : ℕ) (object : ObjectFile)
    (definitions : List (Str × Definition)) (s : Symbol) :
    checkReference i object definitions s ≠ .error e := by
  intro h
  unfold checkReference at h
  split_ifs at h
  cases h
  exact not_reportsDuplicate_of_code (by decide) he

theorem addressOf_ne_error (he : ReportsDuplicate e) (i : ℕ) (object : ObjectFile) (s : Symbol) :
    addressOf layout i object s ≠ .error e := by
  unfold addressOf
  split_ifs
  · intro h
    cases h
    exact not_reportsDuplicate_of_code (by decide) he
  · refine Checked.bind_ne_error (ne_error_elementAt _ _ he) fun placed _ => ?_
    refine Checked.bind_ne_error (ne_error_elementAt _ _ he) fun found _ => ?_
    cases found with
    | none =>
      intro h
      cases h
      exact not_reportsDuplicate_of_code (by decide) he
    | some placement => exact Checked.bind_ne_error (ne_error_elementAt _ _ he) fun _ _ => nofun

theorem targetOf_ne_error (he : ReportsDuplicate e) (i : ℕ) (object : ObjectFile) (s : Symbol) :
    targetOf layout symbols i object s ≠ .error e := by
  unfold targetOf
  split_ifs
  · exact addressOf_ne_error he i object s
  · split
    · intro h
      cases h
      exact not_reportsDuplicate_of_code (by decide) he
    · nofun

theorem relocate_ne_error (he : ReportsDuplicate e) (i : ℕ) (object : ObjectFile)
    (relocation : Relocation) : relocate symbols i object layout relocation ≠ .error e := by
  unfold relocate
  split_ifs
  · intro h
    cases h
    exact not_reportsDuplicate_of_code (by decide) he
  · refine Checked.bind_ne_error (ne_error_elementAt _ _ he) fun placed _ => ?_
    refine Checked.bind_ne_error (ne_error_elementAt _ _ he) fun found _ => ?_
    cases found with
    | none =>
      intro h
      cases h
      exact not_reportsDuplicate_of_code (by decide) he
    | some placement =>
      refine Checked.bind_ne_error (ne_error_elementAt _ _ he) fun region _ => ?_
      split_ifs
      · intro h
        cases h
        exact not_reportsDuplicate_of_code (by decide) he
      · refine Checked.bind_ne_error (ne_error_elementAt _ _ he) fun s _ => ?_
        refine Checked.bind_ne_error (targetOf_ne_error he _ _ _) fun address _ => ?_
        dsimp only
        split
        · intro h
          cases h
          exact not_reportsDuplicate_outOfRange he
        · intro h
          cases h
          refine not_reportsDuplicate_of_code ?_ he
          split_ifs <;> decide
        · nofun

theorem applyRelocations_ne_error (he : ReportsDuplicate e) :
    applyRelocations symbols objects layout ≠ .error e :=
  Checked.foldlM_ne_error (fun _ _ =>
    Checked.foldlM_ne_error (fun _ _ => relocate_ne_error he _ _ _) _ _) _ _

theorem addDebugEntry_ne_error (he : ReportsDuplicate e) (i : ℕ) (object : ObjectFile)
    (info : DebugInfo) (entry : DebugEntry) :
    addDebugEntry layout i object info entry ≠ .error e := by
  unfold addDebugEntry
  split_ifs
  · nofun
  · refine Checked.bind_ne_error (ne_error_elementAt _ _ he) fun placed _ => ?_
    refine Checked.bind_ne_error (ne_error_elementAt _ _ he) fun found _ => ?_
    cases found with
    | none => nofun
    | some placement =>
      refine Checked.bind_ne_error (ne_error_elementAt _ _ he) fun file _ => ?_
      exact Checked.bind_ne_error (ne_error_elementAt _ _ he) fun _ _ => nofun

theorem buildExecutable_ne_error (he : ReportsDuplicate e) (options : LinkOptions) :
    buildExecutable options layout symbols objects ≠ .error e := by
  unfold buildExecutable
  split
  · intro h
    cases h
    exact not_reportsDuplicate_of_code (by decide) he
  · refine Checked.bind_ne_error ?_ fun info _ => ?_
    · unfold buildDebugInfo
      refine Checked.bind_ne_error ?_ fun _ _ => nofun
      exact Checked.foldlM_ne_error (fun _ _ =>
        Checked.foldlM_ne_error (fun _ _ => addDebugEntry_ne_error he _ _ _ _) _ _) _ _
    · dsimp only
      split
      · intro h
        cases h
        exact not_reportsDuplicate_of_code (by decide) he
      · nofun

/-- Resolution fails with a duplicate symbol exactly when there is one, as the first pass goes
first. -/
theorem reportsDuplicate_of_resolveSymbols (hplain : PlainBindings objects)
    (haddress : ∀ v ∈ visits objects, v.2.defined = true →
      ∃ address, addressOf layout v.1.2 v.1.1 v.2 = .ok address)
    (h : resolveSymbols layout objects = .error e) : ReportsDuplicate e ↔ ¬NoConflicts objects := by
  have hfirst := (resolved_nil layout).foldlM_isOk (plain_of_visits hplain) .nil
  rw [List.nil_append, map_visits] at hfirst
  unfold resolveSymbols at h
  rw [forSymbols_eq] at h
  cases hfold : (visits objects).foldlM (fun symbols v =>
      defineSymbol layout v.1.2 v.1.1 symbols v.2) ({} : Symbols) with
  | error e' =>
    rw [hfold] at h
    cases h
    constructor
    · intro _ hno
      obtain ⟨symbols, hok⟩ := hfirst.mpr ⟨haddress, hno⟩
      rw [hfold] at hok
      cases hok
    · intro _
      by_contra hnot
      refine Checked.foldlM_ne_error_of (p := fun _ : Symbols => True) (fun _ _ _ _ _ _ => trivial)
        ?_ trivial hfold
      intro symbols v hv _ hfail
      exact hnot (reportsDuplicate_of_defineSymbol (haddress v hv) hfail)
  | ok symbols =>
    rw [hfold, Checked.ok_bind, forSymbols_eq] at h
    constructor
    · intro he
      refine absurd h (Checked.bind_ne_error ?_ fun _ _ => nofun)
      exact Checked.foldlM_ne_error (fun _ _ => checkReference_ne_error he _ _ _ _) _ _
    · intro hconflicts
      exact absurd (hfirst.mp ⟨symbols, hfold⟩).2 hconflicts

/-- **When a link reports a duplicate symbol.** -/
theorem reportsDuplicate_iff {options : LinkOptions} (h : ∀ o ∈ objects, Linkable o)
    (hmerge : mergeSections options objects = .ok layout) :
    (∃ e, link objects options = .error e ∧ ReportsDuplicate e) ↔ ¬NoConflicts objects := by
  have hplain := plainBindings_of_linkable h
  have haddress : ∀ v ∈ visits objects, v.2.defined = true →
      ∃ address, addressOf layout v.1.2 v.1.1 v.2 = .ok address := by
    intro v hv hdefined
    obtain ⟨hobject, hs⟩ := mem_visits hv
    exact exists_addressOf h hmerge (.refl layout) hobject hs hdefined
  unfold link
  by_cases hnil : objects = []
  · -- no objects, no symbols
    subst hnil
    rw [if_pos rfl]
    constructor
    · rintro ⟨e, heq, he⟩
      cases heq
      exact absurd he (not_reportsDuplicate_of_code (by decide))
    · intro hnot
      exact absurd List.Pairwise.nil hnot
  rw [if_neg hnil, hmerge, Checked.ok_bind]
  cases hresolve : resolveSymbols layout objects with
  | error e =>
    rw [Checked.error_bind, ← reportsDuplicate_of_resolveSymbols hplain haddress hresolve]
    constructor
    · rintro ⟨_, heq, he⟩
      cases heq
      exact he
    · exact fun he => ⟨e, rfl, he⟩
  | ok symbols =>
    constructor
    · rintro ⟨e, heq, he⟩
      rw [Checked.ok_bind] at heq
      exact absurd heq (Checked.bind_ne_error (applyRelocations_ne_error he) fun _ _ =>
        buildExecutable_ne_error he options)
    · exact fun hnot => absurd (noConflicts_of_resolveSymbols hplain hresolve) hnot

/-- The global definitions of a name. -/
def globalDefinitions (objects : List ObjectFile) (name : Str) : List Symbol :=
  (allSymbols objects).filter fun s => s.name = name && Offered s && s.binding = .global

theorem mem_globalDefinitions {name : Str} {s : Symbol} :
    s ∈ globalDefinitions objects name ↔
      s ∈ allSymbols objects ∧ s.name = name ∧ Offered s = true ∧ s.binding = .global := by
  unfold globalDefinitions
  rw [List.mem_filter, Bool.and_eq_true, Bool.and_eq_true, decide_eq_true_eq, decide_eq_true_eq,
    and_assoc]

/-- A conflict is a name with two global definitions. -/
theorem not_noConflicts_iff : ¬NoConflicts objects ↔
    ∃ name, 2 ≤ (globalDefinitions objects name).length := by
  constructor
  · intro hnot
    unfold NoConflicts at hnot
    rw [List.pairwise_iff_forall_sublist] at hnot
    push Not at hnot
    obtain ⟨s, t, hsub, hname, ⟨hsOffered, hs⟩, htOffered, ht⟩ := hnot
    refine ⟨t.name, ?_⟩
    have hfilter := hsub.filter fun s => s.name = t.name && Offered s && s.binding = .global
    rw [List.filter_cons_of_pos (by simp [hname, hsOffered, hs]),
      List.filter_cons_of_pos (by simp [htOffered, ht])] at hfilter
    exact hfilter.length_le
  · rintro ⟨name, htwo⟩ hno
    have hpairs := List.Pairwise.filter
      (fun s : Symbol => s.name = name && Offered s && s.binding = .global) hno
    match hdefinitions : globalDefinitions objects name with
    | [] =>
      rw [hdefinitions] at htwo
      cases htwo
    | [s] =>
      rw [hdefinitions, List.length_singleton] at htwo
      omega
    | s :: t :: rest =>
      unfold globalDefinitions at hdefinitions
      have hmem : ∀ u ∈ s :: t :: rest, u.name = name ∧ Offered u = true ∧ u.binding = .global := by
        intro u hu
        rw [← hdefinitions] at hu
        exact (mem_globalDefinitions.mp hu).2
      rw [hdefinitions, List.pairwise_cons] at hpairs
      obtain ⟨hs, hsGlobal⟩ := hmem s List.mem_cons_self
      obtain ⟨ht, htGlobal⟩ := hmem t (List.mem_cons_of_mem _ List.mem_cons_self)
      exact hpairs.1 t List.mem_cons_self ⟨hs.trans ht.symm, hsGlobal, htGlobal⟩

end

/-! ### The definition of a name -/

/-- The object with the number offers a definition of the name to the others. -/
def OffersAt (objects : List ObjectFile) (name : Str) (j : ℕ) (t : Symbol) : Prop :=
  ∃ object, objects[j]? = some object ∧ t ∈ object.symbols.symbols ∧ t.name = name ∧
    Offered t = true

/-- The definition that stands for a name outside the objects that keep it to themselves: the only
global one, or the first weak one when there is none. -/
structure Takes (objects : List ObjectFile) (name : Str) (j : ℕ) (t : Symbol) : Prop where
  offers : OffersAt objects name j t
  best : (t.binding = .global ∧ ∀ j' t', OffersAt objects name j' t' → t'.binding = .global →
      j' = j ∧ t' = t) ∨
    (t.binding = .weak ∧ ∀ j' t', OffersAt objects name j' t' → t'.binding = .weak ∧ j ≤ j')

section

variable {objects : List ObjectFile} {name : Str} {i j : ℕ} {s t : Symbol}

theorem offersAt_iff : OffersAt objects name j t ↔
    ((objects.map fun o => o.symbols.find)[j]?.bind fun find => find name) = some t ∧
      Offered t = true := by
  rw [List.getElem?_map]
  constructor
  · rintro ⟨object, hobject, ht, rfl, hoffered⟩
    rw [hobject]
    exact ⟨SymbolTable.find_of_mem ht, hoffered⟩
  · rintro ⟨hfind, hoffered⟩
    obtain ⟨find, hmap, hname⟩ := Option.bind_eq_some_iff.mp hfind
    obtain ⟨object, hobject, rfl⟩ := Option.map_eq_some_iff.mp hmap
    obtain ⟨hmem, hnamed⟩ := SymbolTable.mem_of_find hname
    exact ⟨object, hobject, hmem, hnamed, hoffered⟩

theorem definedIn_iff : DefinedIn objects name ↔ ∃ j t, OffersAt objects name j t := by
  constructor
  · rintro ⟨t, ht, hname, hoffered⟩
    obtain ⟨object, hobject, hmem⟩ := List.mem_flatMap.mp ht
    obtain ⟨j, hj⟩ := List.mem_iff_getElem?.mp hobject
    exact ⟨j, t, object, hj, hmem, hname, hoffered⟩
  · rintro ⟨j, t, object, hobject, hmem, hname, hoffered⟩
    exact ⟨t, List.mem_flatMap.mpr ⟨object, List.mem_of_getElem? hobject, hmem⟩, hname, hoffered⟩

theorem definedIn_of_definitionOf :
    definitionOf (objects.map fun o => o.symbols.find) name = none ↔ ¬DefinedIn objects name := by
  unfold definitionOf
  rw [chosen_eq_none, List.eq_nil_iff_forall_not_mem, definedIn_iff]
  constructor
  · rintro hnone ⟨j, t, hoffers⟩
    exact hnone (j, t) (mem_definers.mpr (offersAt_iff.mp hoffers))
  · rintro hnot ⟨j, t⟩ hmem
    exact hnot ⟨j, t, offersAt_iff.mpr (mem_definers.mp hmem)⟩

/-- **The definition resolution leaves** is the one that stands for the name. -/
theorem takes_of_definitionOf (hplain : PlainBindings objects) (hno : NoConflicts objects)
    (h : definitionOf (objects.map fun o => o.symbols.find) name = some (j, t)) :
    Takes objects name j t := by
  have hmem := chosen_mem h
  have hoffers := offersAt_iff.mpr (mem_definers.mp hmem)
  have hbinding : ∀ {k u}, OffersAt objects name k u → u.binding = .global ∨ u.binding = .weak := by
    rintro k u ⟨object, hobject, hu, -, hoffered⟩
    exact hplain object (List.mem_of_getElem? hobject) u hu hoffered
  refine ⟨hoffers, ?_⟩
  rcases hbinding hoffers with hglobal | hweak
  · refine Or.inl ⟨hglobal, fun k u hu huGlobal => ?_⟩
    obtain ⟨ht, htOffered⟩ := offersAt_iff.mp hoffers
    obtain ⟨hfind, huOffered⟩ := offersAt_iff.mp hu
    have hsame := eq_of_noConflicts hno ht hfind htOffered huOffered hglobal huGlobal
    -- an object has one symbol for the name
    rw [hsame, ht] at hfind
    exact ⟨hsame, (Option.some.inj hfind).symm⟩
  · -- a weak one is chosen only when there is nothing better, and then it is the first
    have hnone := find?_of_not_strong h (by simp [hweak])
    refine Or.inr ⟨hweak, fun k u hu => ?_⟩
    have hk := mem_definers.mpr (offersAt_iff.mp hu)
    have hnot := List.find?_eq_none.mp hnone (k, u) hk
    refine ⟨(hbinding hu).resolve_left (by simpa using hnot), ?_⟩
    unfold definitionOf chosen at h
    rw [hnone, Option.none_or] at h
    have hpairs := pairwise_definers (objects.map fun o => o.symbols.find) name
    cases hdefiners : definers (objects.map fun o => o.symbols.find) name with
    | nil =>
      rw [hdefiners] at hmem
      cases hmem
    | cons first rest =>
      rw [hdefiners] at h hpairs hk
      cases h
      rcases List.mem_cons.mp hk with heq | hrest
      · rw [(Prod.mk.inj heq).1]
      · exact ((List.pairwise_cons.mp hpairs).1 _ hrest).le

/-- **The address a reference gets** is that of the definition it takes; 0 if there is none. -/
theorem takes_of_targetOf {start layout : Layout} {symbols : Symbols} {object : ObjectFile}
    (h : ∀ o ∈ objects, Linkable o)
    (hresolve : resolveSymbols start objects = .ok symbols) (hobject : objects[i]? = some object)
    (hs : s ∈ object.symbols.symbols) (hshared : ¬(s.defined = true ∧ s.binding = .local)) :
    (DefinedIn objects s.name → ∃ j t definer, Takes objects s.name j t ∧
      objects[j]? = some definer ∧
      targetOf layout symbols i object s = addressOf start j definer t) ∧
    (¬DefinedIn objects s.name → targetOf layout symbols i object s = .ok 0) := by
  have hplain := plainBindings_of_linkable h
  have hresolved := resolved_of_resolveSymbols hplain hresolve s.name
  unfold targetOf
  rw [if_neg hshared]
  constructor
  · intro hdefined
    cases hdefinition : definitionOf (objects.map fun o => o.symbols.find) s.name with
    | none => exact absurd hdefined (definedIn_of_definitionOf.mp hdefinition)
    | some offer =>
      rw [hdefinition] at hresolved
      obtain ⟨d, definer, hlookup, hdefiner, haddress⟩ := hresolved
      have htakes := takes_of_definitionOf hplain (noConflicts_of_resolveSymbols hplain hresolve)
        hdefinition
      exact ⟨offer.1, offer.2, definer, htakes, hdefiner, by rw [hlookup, haddress]⟩
  · intro hnot
    rw [definedIn_of_definitionOf.mpr hnot] at hresolved
    have hv : ((object, i), s) ∈ visits objects :=
      List.mem_flatMap.mpr ⟨(object, i), List.mem_zipIdx_iff_getElem?.mpr hobject,
        List.mem_map_of_mem hs⟩
    obtain ⟨d, hd⟩ := Option.ne_none_iff_exists'.mp
      (lookup_of_resolveSymbols hplain hresolve hv hshared)
    rw [hd]
    exact congrArg Except.ok (hresolved d hd)

/-- Relocations move nothing. -/
theorem addressOf_of_patched {start layout : Layout} (h : start.Patched layout) (i : ℕ)
    (object : ObjectFile) (s : Symbol) :
    addressOf layout i object s = addressOf start i object s := by
  unfold addressOf
  rw [h.placements]
  congr 2
  funext placed
  congr 1
  funext found
  cases found with
  | none => rfl
  | some placement =>
    dsimp only
    unfold elementAt
    cases hregion : start.regions[placement.region]? with
    | none =>
      have hlength := h.regions.length_eq
      rw [List.getElem?_eq_none_iff] at hregion
      rw [List.getElem?_eq_none (by omega)]
    | some region =>
      obtain ⟨after, hafter, hone⟩ := h.getElem?_left hregion
      rw [hafter]
      show Except.ok _ = Except.ok _
      rw [hone.same.base]

end

end Linker
end MiniTool
