import MiniToolchain.Linker.Conflicts

/-!
# Whose definition a name gets

A name of a file stands for the file's own definition if that is local or global, or if it is weak
and no other file has a better one or an earlier one.  Which file it is depends only on what the
files define and how, and not on where their definitions stand.

## Main definitions

* `ownerOf` — the file whose definition a name of a file gets.

## Main results

* `finalAddress_of_ownerOf` — the address of a name is that of the definition of its owner.
* `ownerOf_congr` — the owner depends only on what is defined, and how.
* `ownerOf_own` — when it is the file itself.
-/

namespace MiniTool
namespace Linker

open Object

/-- The file whose definition a name of the file `i` gets, if there is one. -/
def ownerOf (finds : List (Str → Option Symbol)) (i : ℕ) (name : Str) : Option ℕ :=
  match (finds[i]?.bind fun find => find name).filter
      fun s => s.defined && s.binding = .local with
  | some _ => some i
  | none => (definitionOf finds name).map Prod.fst

section

variable {finds finds' : List (Str → Option Symbol)} {i j : ℕ} {name : Str} {s : Symbol}

theorem mem_definers : (j, s) ∈ definers finds name ↔
    (finds[j]?.bind fun find => find name) = some s ∧ Offered s = true := by
  unfold definers
  rw [List.mem_filterMap]
  constructor
  · rintro ⟨⟨find, k⟩, hentry, hmap⟩
    obtain ⟨t, hfilter, heq⟩ := Option.map_eq_some_iff.mp hmap
    obtain ⟨hfind, hoffered⟩ := Option.filter_eq_some_iff.mp hfilter
    cases heq
    rw [List.mem_zipIdx_iff_getElem?.mp hentry]
    exact ⟨hfind, hoffered⟩
  · rintro ⟨hfind, hoffered⟩
    obtain ⟨find, hget, hname⟩ := Option.bind_eq_some_iff.mp hfind
    refine ⟨(find, j), List.mem_zipIdx_iff_getElem?.mpr hget, ?_⟩
    rw [Option.map_eq_some_iff]
    exact ⟨s, Option.filter_eq_some_iff.mpr ⟨hname, hoffered⟩, rfl⟩

/-- The definitions are in the order of the files. -/
theorem pairwise_definers (finds : List (Str → Option Symbol)) (name : Str) :
    (definers finds name).Pairwise fun x y => x.1 < y.1 := by
  unfold definers
  rw [List.pairwise_filterMap]
  have hindices : finds.zipIdx.Pairwise fun a b => a.2 < b.2 := by
    rw [List.pairwise_iff_getElem]
    intro a b ha hb hab
    rw [List.getElem_zipIdx, List.getElem_zipIdx]
    show 0 + a < 0 + b
    omega
  refine hindices.imp ?_
  intro a b hab x hx y hy
  obtain ⟨-, -, rfl⟩ := Option.map_eq_some_iff.mp hx
  obtain ⟨-, -, rfl⟩ := Option.map_eq_some_iff.mp hy
  exact hab

/-- **The address of a name** is that of the definition of its owner. -/
theorem finalAddress_of_ownerOf (finds : List (Str → Option Symbol)) (i : ℕ) (name : Str)
    (options : LinkOptions) (objects : List ObjectFile) :
    match ownerOf finds i name with
    | some j => ∃ s, (finds[j]?.bind fun find => find name) = some s ∧ s.defined = true ∧
        finalAddress options objects finds i name = symbolAddress options objects (j, s)
    | none => finalAddress options objects finds i name = some 0 := by
  unfold ownerOf finalAddress
  cases hfilter : (finds[i]?.bind fun find => find name).filter
      fun s => s.defined && s.binding = .local with
  | some s =>
    obtain ⟨hfind, hboth⟩ := Option.filter_eq_some_iff.mp hfilter
    exact ⟨s, hfind, ((Bool.and_eq_true _ _).mp hboth).1, rfl⟩
  | none =>
    dsimp only
    cases hdefinition : definitionOf finds name with
    | none => rfl
    | some offer =>
      obtain ⟨hfind, hoffered⟩ := mem_definers.mp (chosen_mem hdefinition)
      exact ⟨offer.2, hfind, ((Bool.and_eq_true _ _).mp hoffered).1, rfl⟩

/-! ### What the owner depends on -/

/-- How the files define a name. -/
def standings (finds : List (Str → Option Symbol)) (name : Str) : List (Option SymbolBinding) :=
  finds.map fun find => ((find name).filter Symbol.defined).map Symbol.binding

/-- The owner in terms of the standings. -/
theorem ownerOf_eq (finds : List (Str → Option Symbol)) (i : ℕ) (name : Str) :
    ownerOf finds i name =
      if (standings finds name)[i]? = some (some .local) then some i
      else (chosen (fun offer : ℕ × SymbolBinding => offer.2 = .global)
        ((standings finds name).zipIdx.filterMap fun entry =>
          (entry.1.filter fun binding => binding ≠ .local).map fun binding =>
            (entry.2, binding))).map Prod.fst := by
  have hfilter : ∀ found : Option Symbol,
      ((found.filter Symbol.defined).map Symbol.binding).filter (fun binding => binding ≠ .local) =
        (found.filter Offered).map Symbol.binding := by
    intro found
    rw [Option.filter_map, Option.filter_filter]
    congr 2
  have hdefiners : (definers finds name).map (fun offer => (offer.1, offer.2.binding)) =
      (standings finds name).zipIdx.filterMap fun entry =>
        (entry.1.filter fun binding => binding ≠ .local).map fun binding => (entry.2, binding) := by
    unfold definers standings
    rw [List.zipIdx_map, List.filterMap_map, List.map_filterMap]
    congr 1
    funext entry
    show _ = Option.map _ ((((entry.1 name).filter Symbol.defined).map Symbol.binding).filter _)
    rw [hfilter, Option.map_map, Option.map_map]
    rfl
  have hlocal : (standings finds name)[i]? = some (some .local) ↔
      ∃ s, (finds[i]?.bind fun find => find name).filter
        (fun s => s.defined && s.binding = .local) = some s := by
    unfold standings
    rw [List.getElem?_map]
    cases finds[i]? with
    | none => simp
    | some find =>
      cases hfind : find name with
      | none => simp [hfind]
      | some s => simp [hfind, Option.filter_eq_some_iff]
  unfold ownerOf
  by_cases howns : (standings finds name)[i]? = some (some .local)
  · obtain ⟨s, hs⟩ := hlocal.mp howns
    rw [if_pos howns, hs]
  · have hnone : (finds[i]?.bind fun find => find name).filter
        (fun s => s.defined && s.binding = .local) = none := by
      rw [Option.eq_none_iff_forall_ne_some]
      intro s hs
      exact howns (hlocal.mpr ⟨s, hs⟩)
    rw [if_neg howns, hnone, ← hdefiners, chosen_map, Option.map_map]
    rfl

/-- **The owner depends only on what the files define, and how.** -/
theorem ownerOf_congr (h : standings finds name = standings finds' name) (i : ℕ) :
    ownerOf finds i name = ownerOf finds' i name := by
  rw [ownerOf_eq, ownerOf_eq, h]

/-- Files of the same standing define a name in the same way. -/
theorem exists_standing (h : standings finds name = standings finds' name)
    (hs : (finds[i]?.bind fun find => find name) = some s) (hdefined : s.defined = true) :
    ∃ t, (finds'[i]?.bind fun find => find name) = some t ∧ t.defined = true ∧
      t.binding = s.binding := by
  have hget : ∀ xs : List (Str → Option Symbol), (standings xs name)[i]? =
      xs[i]?.map fun find => ((find name).filter Symbol.defined).map Symbol.binding :=
    fun xs => List.getElem?_map
  obtain ⟨find, hfind, hname⟩ := Option.bind_eq_some_iff.mp hs
  have hat := hget finds'
  rw [← h, hget finds, hfind, Option.map_some, hname, Option.filter_some, hdefined, if_pos rfl]
    at hat
  obtain ⟨find', hfind', hsome⟩ := Option.map_eq_some_iff.mp hat.symm
  obtain ⟨t, ht, hbinding⟩ := Option.map_eq_some_iff.mp hsome
  obtain ⟨ht, htDefined⟩ := Option.filter_eq_some_iff.mp ht
  refine ⟨t, ?_, htDefined, hbinding⟩
  rw [hfind']
  exact ht

/-! ### A file's own definitions -/

/-- **A name stands for the file's own definition** when that is local, or global and the only
global one, or weak and no other file has a global one or is earlier. -/
theorem ownerOf_own (hs : (finds[i]?.bind fun find => find name) = some s)
    (hdefined : s.defined = true)
    (hbinding : s.binding = .local ∨ s.binding = .global ∨ s.binding = .weak)
    (hglobal : s.binding = .global → ∀ j t, (finds[j]?.bind fun find => find name) = some t →
      Offered t = true → t.binding = .global → j = i)
    (hweak : s.binding = .weak → ∀ j t, (finds[j]?.bind fun find => find name) = some t →
      Offered t = true → j ≠ i → t.binding = .weak ∧ i < j) :
    ownerOf finds i name = some i := by
  unfold ownerOf
  rw [hs]
  rcases hbinding with hlocal | hbinding
  · rw [Option.filter_some, hdefined, hlocal]
    rfl
  have hnot : s.binding ≠ .local := by
    rcases hbinding with h | h
    · rw [h]
      nofun
    · rw [h]
      nofun
  have hmem : (i, s) ∈ definers finds name :=
    mem_definers.mpr ⟨hs, by simp [Offered, hdefined, hnot]⟩
  rw [Option.filter_some, if_neg (by simp [hnot])]
  dsimp only
  unfold definitionOf chosen
  rcases hbinding with hbinding | hbinding
  · -- what is found is global, and so is from this file
    cases hfind : (definers finds name).find? fun offer => offer.2.binding = .global with
    | none =>
      have hno := List.find?_eq_none.mp hfind _ hmem
      exact absurd hbinding (by simpa using hno)
    | some offer =>
      obtain ⟨hget, hoffered⟩ := mem_definers.mp (List.mem_of_find?_eq_some hfind)
      have hstrong : offer.2.binding = .global := by simpa using List.find?_some hfind
      exact congrArg some (hglobal hbinding offer.1 offer.2 hget hoffered hstrong)
  · have hfind : ((definers finds name).find? fun offer => offer.2.binding = .global) = none := by
      rw [List.find?_eq_none]
      intro offer hoffer
      obtain ⟨hget, hoffered⟩ := mem_definers.mp hoffer
      by_cases hother : offer.1 = i
      · rw [hother, hs] at hget
        rw [← Option.some.inj hget, hbinding]
        simp
      · rw [(hweak hbinding offer.1 offer.2 hget hoffered hother).1]
        simp
    rw [hfind, Option.none_or]
    -- the first one is not after this one
    cases hdefiners : definers finds name with
    | nil =>
      rw [hdefiners] at hmem
      cases hmem
    | cons first rest =>
      have hfirst : first ∈ definers finds name := by
        rw [hdefiners]
        exact List.mem_cons_self
      have hpairs := pairwise_definers finds name
      rw [hdefiners] at hmem hpairs
      show some first.1 = some i
      by_contra hne
      obtain ⟨hget, hoffered⟩ := mem_definers.mp hfirst
      have hlater :=
        (hweak hbinding first.1 first.2 hget hoffered fun heq => hne (congrArg some heq)).2
      rcases List.mem_cons.mp hmem with heq | hmem
      · rw [← heq] at hlater
        exact absurd hlater (lt_irrefl i)
      · have hbefore := (List.pairwise_cons.mp hpairs).1 _ hmem
        exact absurd hbefore (not_lt_of_gt hlater)

/-- Two files of a link do not both have a global definition of a name. -/
theorem eq_of_noConflicts {objects : List ObjectFile} (h : NoConflicts objects) {j : ℕ} {t : Symbol}
    (hs : ((objects.map fun o => o.symbols.find)[i]?.bind fun find => find name) = some s)
    (ht : ((objects.map fun o => o.symbols.find)[j]?.bind fun find => find name) = some t)
    (hsOffered : Offered s = true) (htOffered : Offered t = true) (hsGlobal : s.binding = .global)
    (htGlobal : t.binding = .global) : j = i := by
  have hobject : ∀ {k : ℕ} {u : Symbol},
      ((objects.map fun o => o.symbols.find)[k]?.bind fun find => find name) = some u →
      ∃ hk : k < objects.length, u ∈ objects[k].symbols.symbols ∧ u.name = name := by
    intro k u hu
    rw [List.getElem?_map] at hu
    obtain ⟨find, hfind, hname⟩ := Option.bind_eq_some_iff.mp hu
    obtain ⟨o, ho, rfl⟩ := Option.map_eq_some_iff.mp hfind
    obtain ⟨hk, rfl⟩ := List.getElem?_eq_some_iff.mp ho
    exact ⟨hk, List.mem_of_find?_eq_some hname, by simpa using List.find?_some hname⟩
  obtain ⟨hi, hsMem, hsName⟩ := hobject hs
  obtain ⟨hj, htMem, htName⟩ := hobject ht
  unfold NoConflicts allSymbols at h
  have hpairs := List.pairwise_iff_getElem.mp (List.pairwise_flatMap.mp h).2
  rcases lt_trichotomy i j with hlt | heq | hlt
  · exact absurd ⟨hsName.trans htName.symm, ⟨hsOffered, hsGlobal⟩, htOffered, htGlobal⟩
      (hpairs i j hi hj hlt s hsMem t htMem)
  · exact heq.symm
  · exact absurd ⟨htName.trans hsName.symm, ⟨htOffered, htGlobal⟩, hsOffered, hsGlobal⟩
      (hpairs j i hj hi hlt t htMem s hsMem)

end

end Linker
end MiniTool
