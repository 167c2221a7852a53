import MiniToolchain.Linker.Image

/-!
# What a name is resolved to

Resolution goes over the symbols of all objects twice.  What it leaves of the definitions of a name
depends on the definitions themselves only, and not on what else the objects hold.

## Main definitions

* `chosen` — the strong one of some offers, or the first of them.
* `definers` — the definitions of a name that the objects offer to each other.

## Main results

* `resolved_of_resolveSymbols` — the definition that is left is the chosen one.
* `address_of_targetOf` — the address a reference gets.
-/

namespace MiniTool
namespace Linker

open Object

/-! ### Strong and weak -/

/-- The strong one of some offers, or the first of them. -/
def chosen {α : Type} (strong : α → Bool) (offers : List α) : Option α :=
  (offers.find? strong).or offers.head?

section

variable {α : Type} {strong : α → Bool} {offers : List α} {x y : α}

theorem chosen_eq_none : chosen strong offers = none ↔ offers = [] := by
  unfold chosen
  cases offers with
  | nil => simp
  | cons x rest => simp

theorem chosen_mem (h : chosen strong offers = some x) : x ∈ offers := by
  unfold chosen at h
  rcases Option.or_eq_some_iff.mp h with h | ⟨-, h⟩
  · exact List.mem_of_find?_eq_some h
  · exact List.mem_of_mem_head? h

/-- An offer without a strong one before it. -/
theorem find?_of_not_strong (h : chosen strong offers = some x) (hx : strong x = false) :
    offers.find? strong = none := by
  unfold chosen at h
  cases hfind : offers.find? strong with
  | none => rfl
  | some y =>
    rw [hfind] at h
    cases h
    rw [List.find?_some hfind] at hx
    cases hx

/-- One more offer is chosen when it is the first, or the first strong one. -/
theorem chosen_append : chosen strong (offers ++ [y]) =
    match chosen strong offers with
    | none => some y
    | some x => if strong x = false ∧ strong y = true then some y else some x := by
  cases hchosen : chosen strong offers with
  | none =>
    rw [chosen_eq_none.mp hchosen]
    unfold chosen
    cases hy : strong y <;> simp [hy]
  | some x =>
    dsimp only
    have hne : offers ≠ [] := by
      intro hnil
      rw [chosen_eq_none.mpr hnil] at hchosen
      cases hchosen
    have hhead : (offers ++ [y]).head? = offers.head? := List.head?_append_of_ne_nil offers hne
    cases hx : strong x with
    | true =>
      have hfind : offers.find? strong = some x := by
        unfold chosen at hchosen
        cases hnone : offers.find? strong with
        | some z =>
          rw [hnone] at hchosen
          exact hchosen
        | none =>
          -- the head is an offer that is not strong
          rw [hnone, Option.none_or] at hchosen
          have hnot := List.find?_eq_none.mp hnone x (List.mem_of_mem_head? hchosen)
          exact absurd hx hnot
      rw [if_neg (by simp)]
      unfold chosen
      rw [List.find?_append, hfind]
      rfl
    | false =>
      have hfind := find?_of_not_strong hchosen hx
      unfold chosen at hchosen ⊢
      rw [hfind, Option.none_or] at hchosen
      rw [List.find?_append, hfind, Option.none_or, hhead, hchosen]
      cases hy : strong y <;> simp [hy]

end

/-! ### The definitions of a name -/

/-- The symbol is offered to other objects. -/
def Offered (s : Symbol) : Bool := s.defined && s.binding ≠ .local

/-- The definitions of a name that some objects offer to each other, each with the number of its
object; an object is given by the symbol it has for a name. -/
def definers (finds : List (Str → Option Symbol)) (name : Str) : List (ℕ × Symbol) :=
  finds.zipIdx.filterMap fun entry => ((entry.1 name).filter Offered).map fun s => (entry.2, s)

/-- The definition of a name that is left: the global one if there is one, else the first weak
one. -/
def definitionOf (finds : List (Str → Option Symbol)) (name : Str) : Option (ℕ × Symbol) :=
  chosen (fun offer => offer.2.binding = .global) (definers finds name)

/-- The symbols of all objects, each with its object. -/
def visits (objects : List ObjectFile) : List ((ObjectFile × ℕ) × Symbol) :=
  objects.zipIdx.flatMap fun entry => entry.1.symbols.symbols.map fun s => (entry, s)

theorem forSymbols_eq {σ : Type} (step : ℕ → ObjectFile → σ → Symbol → Except LinkError σ)
    (objects : List ObjectFile) (state : σ) :
    forSymbols step objects state =
      (visits objects).foldlM (fun state v => step v.1.2 v.1.1 state v.2) state := by
  unfold visits forSymbols
  rw [Checked.foldlM_flatMap]
  simp only [List.foldlM_map]

/-- The visits that offer a definition of a name. -/
def offersOf (name : Str) (vs : List ((ObjectFile × ℕ) × Symbol)) :
    List ((ObjectFile × ℕ) × Symbol) :=
  vs.filter fun v => v.2.name = name && Offered v.2

/-- An offer is global or weak. -/
def PlainBindings (objects : List ObjectFile) : Prop :=
  ∀ o ∈ objects, ∀ s ∈ o.symbols.symbols, Offered s = true → s.binding = .global ∨ s.binding = .weak

/-! ### The first pass -/

theorem lookup_cons_eq (name other : Str) (definition : Definition)
    (rest : List (Str × Definition)) : ((name, definition) :: rest).lookup other =
      if other = name then some definition else rest.lookup other := by
  rw [List.lookup_cons]
  by_cases h : other = name
  · rw [if_pos h, beq_iff_eq.mpr h]
  · rw [if_neg h, beq_false_of_ne h]

theorem lookup_append_eq (definitions : List (Str × Definition)) (name other : Str)
    (definition : Definition) : (definitions ++ [(name, definition)]).lookup other =
      (definitions.lookup other).or (if other = name then some definition else none) := by
  rw [List.lookup_append, lookup_cons_eq, List.lookup_nil]

theorem lookup_replaceDefinition (definitions : List (Str × Definition)) (name other : Str)
    (definition : Definition) : (replaceDefinition definitions name definition).lookup other =
      if other = name then (definitions.lookup name).map fun _ => definition
      else definitions.lookup other := by
  unfold replaceDefinition
  induction definitions with
  | nil =>
    rw [List.map_nil, List.lookup_nil, List.lookup_nil, Option.map_none, ite_self]
  | cons entry rest ih =>
    obtain ⟨first, old⟩ := entry
    rw [List.map_cons]
    by_cases hfirst : first = name
    · subst hfirst
      rw [if_pos rfl, lookup_cons_eq, lookup_cons_eq, lookup_cons_eq, ih, if_pos rfl]
      split_ifs
      · rfl
      · rfl
    · rw [if_neg hfirst, lookup_cons_eq, lookup_cons_eq, lookup_cons_eq, ih,
        if_neg (Ne.symm hfirst)]
      split_ifs with hboth hother
      · exact absurd (hboth.symm.trans hother) hfirst
      · rfl
      · rfl
      · rfl

/-- The definition is the one of the visit. -/
def Defines (layout : Layout) (v : (ObjectFile × ℕ) × Symbol) (d : Definition) : Prop :=
  d.binding = v.2.binding ∧ addressOf layout v.1.2 v.1.1 v.2 = .ok d.address

/-- The shared definitions are the chosen ones of what has been visited. -/
def Resolved (layout : Layout) (vs : List ((ObjectFile × ℕ) × Symbol))
    (definitions : List (Str × Definition)) : Prop :=
  ∀ name, match chosen (fun v => v.2.binding = .global) (offersOf name vs) with
    | none => definitions.lookup name = none
    | some v => ∃ d, definitions.lookup name = some d ∧ Defines layout v d

theorem offersOf_append_other {name : Str} {vs : List ((ObjectFile × ℕ) × Symbol)}
    {v : (ObjectFile × ℕ) × Symbol} (h : ¬(v.2.name = name ∧ Offered v.2 = true)) :
    offersOf name (vs ++ [v]) = offersOf name vs := by
  unfold offersOf
  rw [List.filter_append, List.filter_cons_of_neg (by simpa using h), List.filter_nil,
    List.append_nil]

theorem offersOf_append_self {vs : List ((ObjectFile × ℕ) × Symbol)}
    {v : (ObjectFile × ℕ) × Symbol} (h : Offered v.2 = true) :
    offersOf v.2.name (vs ++ [v]) = offersOf v.2.name vs ++ [v] := by
  unfold offersOf
  rw [List.filter_append, List.filter_cons_of_pos (by simpa using h), List.filter_nil]

/-- Another definition of a name is added. -/
theorem Resolved.addDefinition {layout : Layout} {vs : List ((ObjectFile × ℕ) × Symbol)}
    {symbols symbols' : Symbols} (h : Resolved layout vs symbols.definitions)
    {v : (ObjectFile × ℕ) × Symbol} (hoffered : Offered v.2 = true) {d : Definition}
    (hd : Defines layout v d)
    (hplain : ∀ u ∈ vs ++ [v], Offered u.2 = true → u.2.binding = .global ∨ u.2.binding = .weak)
    (hadd : addDefinition symbols v.2.name d = .ok symbols') :
    Resolved layout (vs ++ [v]) symbols'.definitions := by
  intro name
  have hname := h name
  by_cases hother : v.2.name = name
  · subst hother
    rw [offersOf_append_self hoffered, chosen_append]
    unfold Linker.addDefinition at hadd
    cases hchosen : chosen (fun v : (ObjectFile × ℕ) × Symbol => decide (v.2.binding = .global))
        (offersOf v.2.name vs) with
    | none =>
      -- the first definition of the name
      rw [hchosen] at hname
      dsimp only at hname
      rw [hname] at hadd
      cases hadd
      refine ⟨d, ?_, hd⟩
      rw [lookup_append_eq, hname, if_pos rfl]
      rfl
    | some u =>
      rw [hchosen] at hname
      obtain ⟨old, hold, hdefines⟩ := hname
      rw [hold] at hadd
      dsimp only at hadd ⊢
      have hu : u ∈ offersOf v.2.name vs := chosen_mem hchosen
      obtain ⟨humem, huoffered⟩ := List.mem_filter.mp hu
      have hubinding := hplain u (List.mem_append_left _ humem)
        ((Bool.and_eq_true _ _).mp huoffered).2
      have hvbinding := hplain v (List.mem_append_right _ (List.mem_singleton.mpr rfl)) hoffered
      rw [hdefines.1, hd.1] at hadd
      rcases hubinding with hubinding | hubinding
      · -- a global definition stays
        rw [hubinding] at hadd
        rw [if_neg (by simp [hubinding])]
        rcases hvbinding with hvbinding | hvbinding
        · rw [hvbinding] at hadd
          cases hadd
        · rw [hvbinding] at hadd
          cases hadd
          exact ⟨old, hold, hdefines⟩
      · rw [hubinding] at hadd
        rcases hvbinding with hvbinding | hvbinding
        · -- a global definition takes the place of a weak one
          rw [hvbinding] at hadd
          cases hadd
          rw [if_pos (by simp [hubinding, hvbinding])]
          refine ⟨d, ?_, hd⟩
          show (replaceDefinition symbols.definitions v.2.name d).lookup v.2.name = some d
          rw [lookup_replaceDefinition, if_pos rfl, hold]
          rfl
        · rw [hvbinding] at hadd
          cases hadd
          rw [if_neg (by simp [hvbinding])]
          exact ⟨old, hold, hdefines⟩
  · -- other names keep their definitions
    have hkept : symbols'.definitions.lookup name = symbols.definitions.lookup name := by
      unfold Linker.addDefinition at hadd
      cases hlookup : symbols.definitions.lookup v.2.name with
      | none =>
        rw [hlookup] at hadd
        cases hadd
        show (symbols.definitions ++ [(v.2.name, d)]).lookup name = _
        rw [lookup_append_eq, if_neg (Ne.symm hother), Option.or_none]
      | some old =>
        rw [hlookup] at hadd
        dsimp only at hadd
        split_ifs at hadd
        · cases hadd
        · cases hadd
          show (replaceDefinition symbols.definitions v.2.name d).lookup name = _
          rw [lookup_replaceDefinition, if_neg (Ne.symm hother)]
        · cases hadd
          rfl
    rw [offersOf_append_other (by exact fun hboth => hother hboth.1), hkept]
    exact hname

/-- One symbol. -/
theorem Resolved.defineSymbol {layout : Layout} {vs : List ((ObjectFile × ℕ) × Symbol)}
    {symbols symbols' : Symbols} (h : Resolved layout vs symbols.definitions)
    {v : (ObjectFile × ℕ) × Symbol}
    (hplain : ∀ u ∈ vs ++ [v], Offered u.2 = true → u.2.binding = .global ∨ u.2.binding = .weak)
    (hstep : defineSymbol layout v.1.2 v.1.1 symbols v.2 = .ok symbols') :
    Resolved layout (vs ++ [v]) symbols'.definitions := by
  unfold Linker.defineSymbol at hstep
  have hskip : ¬Offered v.2 = true → symbols'.definitions = symbols.definitions →
      Resolved layout (vs ++ [v]) symbols'.definitions := by
    intro hnot hsame name
    rw [offersOf_append_other (by exact fun hboth => hnot hboth.2), hsame]
    exact h name
  by_cases hdefined : v.2.defined = true
  · rw [if_pos hdefined] at hstep
    obtain ⟨address, haddress, hstep⟩ := Checked.bind_eq_ok.mp hstep
    dsimp only at hstep
    by_cases hlocal : v.2.binding = .local
    · rw [if_pos hlocal] at hstep
      cases hstep
      exact hskip (by simp [Offered, hlocal]) rfl
    · rw [if_neg hlocal] at hstep
      exact h.addDefinition (by simp [Offered, hdefined, hlocal]) ⟨rfl, haddress⟩ hplain hstep
  · rw [if_neg hdefined] at hstep
    cases hstep
    exact hskip (by simp [Offered, hdefined]) rfl

/-- All symbols. -/
theorem Resolved.foldlM {layout : Layout} {rest : List ((ObjectFile × ℕ) × Symbol)} :
    ∀ {vs : List ((ObjectFile × ℕ) × Symbol)} {symbols symbols' : Symbols},
      Resolved layout vs symbols.definitions →
      (∀ u ∈ vs ++ rest, Offered u.2 = true → u.2.binding = .global ∨ u.2.binding = .weak) →
      rest.foldlM (fun symbols v => Linker.defineSymbol layout v.1.2 v.1.1 symbols v.2) symbols =
        .ok symbols' →
      Resolved layout (vs ++ rest) symbols'.definitions := by
  induction rest with
  | nil =>
    intro vs symbols symbols' h _ hfold
    cases hfold
    rwa [List.append_nil]
  | cons v rest ih =>
    intro vs symbols symbols' h hplain hfold
    rw [List.foldlM_cons] at hfold
    obtain ⟨next, hstep, hrest⟩ := Checked.bind_eq_ok.mp hfold
    rw [List.append_cons] at hplain ⊢
    refine ih (h.defineSymbol ?_ hstep) hplain hrest
    intro u hu
    exact hplain u (List.mem_append_left _ hu)

/-! ### The second pass -/

/-- Definitions are kept, and what is added has the address 0. -/
structure Grown (before after : List (Str × Definition)) : Prop where
  kept : ∀ name d, before.lookup name = some d → after.lookup name = some d
  added : ∀ name, before.lookup name = none → ∀ d, after.lookup name = some d → d.address = 0

theorem Grown.refl (definitions : List (Str × Definition)) : Grown definitions definitions := by
  refine ⟨fun _ _ hd => hd, ?_⟩
  intro _ hnone _ hd
  rw [hnone] at hd
  cases hd

theorem Grown.checkReference {before definitions definitions' : List (Str × Definition)}
    (h : Grown before definitions) {i : ℕ} {object : ObjectFile} {s : Symbol}
    (hstep : checkReference i object definitions s = .ok definitions') :
    Grown before definitions' := by
  unfold Linker.checkReference at hstep
  split_ifs at hstep with hfound hweak
  · cases hstep
    exact h
  · cases hstep
    have hnone : definitions.lookup s.name = none := by
      rw [not_or, Option.not_isSome_iff_eq_none] at hfound
      exact hfound.2
    refine ⟨?_, ?_⟩
    · intro name d hd
      rw [lookup_append_eq, h.kept name d hd]
      rfl
    · intro name hbefore d hd
      rw [lookup_append_eq] at hd
      cases hlookup : definitions.lookup name with
      | some old =>
        rw [hlookup] at hd
        cases hd
        exact h.added name hbefore _ hlookup
      | none =>
        rw [hlookup, Option.none_or] at hd
        split_ifs at hd
        cases hd
        rfl
  · cases hstep

/-! ### Both -/

theorem chosen_map {α β : Type} (f : α → β) (strong : β → Bool) (offers : List α) :
    chosen strong (offers.map f) = (chosen (fun x => strong (f x)) offers).map f := by
  unfold chosen
  rw [List.find?_map, List.head?_map, Option.map_or]
  rfl

/-- A name has one symbol in an object. -/
theorem filter_symbols {symbols : List Symbol} (h : (symbols.map Symbol.name).Nodup) (name : Str)
    (p : Symbol → Bool) : (symbols.filter fun s => s.name = name && p s) =
      ((symbols.find? fun s => s.name = name).filter p).toList := by
  induction symbols with
  | nil => rfl
  | cons s rest ih =>
    rw [List.map_cons, List.nodup_cons] at h
    obtain ⟨hnot, hrest⟩ := h
    by_cases hname : s.name = name
    · have hnone : (rest.filter fun s => s.name = name && p s) = [] := by
        rw [List.filter_eq_nil_iff]
        intro t ht hboth
        have htname : t.name = name := of_decide_eq_true ((Bool.and_eq_true _ _).mp hboth).1
        rw [hname, ← htname] at hnot
        exact hnot (List.mem_map_of_mem ht)
      rw [List.find?_cons_of_pos (by simpa using hname), List.filter_cons, hnone]
      cases hp : p s <;> simp [hname, hp, Option.filter]
    · rw [List.find?_cons_of_neg (by simpa using hname),
        List.filter_cons_of_neg (by simp [hname]), ih hrest]

/-- The offers of the objects, in terms of what they have for the name. -/
theorem map_offersOf (objects : List ObjectFile) (name : Str) :
    (offersOf name (visits objects)).map (fun v => (v.1.2, v.2)) =
      definers (objects.map fun o => o.symbols.find) name := by
  unfold offersOf visits definers
  rw [List.filter_flatMap, List.map_flatMap, List.filterMap_eq_flatMap_toList, List.zipIdx_map,
    List.flatMap_map]
  congr 1
  funext entry
  rw [List.filter_map, List.map_map]
  have hfilter := filter_symbols entry.1.symbols.nodup name Offered
  show (entry.1.symbols.symbols.filter fun s => s.name = name && Offered s).map
    (fun s => (entry.2, s)) = _
  rw [hfilter]
  show _ = (((entry.1.symbols.find name).filter Offered).map fun s => (entry.2, s)).toList
  unfold SymbolTable.find
  cases ((entry.1.symbols.symbols.find? fun s => s.name = name).filter Offered) <;> rfl

theorem mem_visits {objects : List ObjectFile} {v : (ObjectFile × ℕ) × Symbol}
    (h : v ∈ visits objects) :
    objects[v.1.2]? = some v.1.1 ∧ v.2 ∈ v.1.1.symbols.symbols := by
  obtain ⟨entry, hentry, hmem⟩ := List.mem_flatMap.mp h
  obtain ⟨s, hs, rfl⟩ := List.mem_map.mp hmem
  exact ⟨List.mem_zipIdx_iff_getElem?.mp hentry, hs⟩

section

variable {layout : Layout} {objects : List ObjectFile} {symbols : Symbols}

theorem plain_of_visits (hplain : PlainBindings objects) : ∀ u ∈ [] ++ visits objects,
    Offered u.2 = true → u.2.binding = .global ∨ u.2.binding = .weak := by
  intro u hu
  obtain ⟨hobject, hs⟩ := mem_visits hu
  exact hplain _ (List.mem_of_getElem? hobject) _ hs

theorem resolved_nil (layout : Layout) : Resolved layout [] ({} : Symbols).definitions :=
  fun _ => rfl

/-- The two passes of a resolution that succeeds. -/
theorem resolveSymbols_cases (hplain : PlainBindings objects)
    (h : resolveSymbols layout objects = .ok symbols) :
    ∃ first : Symbols, (visits objects).foldlM (fun symbols v =>
        defineSymbol layout v.1.2 v.1.1 symbols v.2) ({} : Symbols) = .ok first ∧
      Resolved layout (visits objects) first.definitions ∧
      (visits objects).foldlM (fun definitions v =>
        checkReference v.1.2 v.1.1 definitions v.2) first.definitions =
          .ok symbols.definitions := by
  unfold resolveSymbols at h
  obtain ⟨first, hfirst, h⟩ := Checked.bind_eq_ok.mp h
  obtain ⟨definitions, hsecond, h⟩ := Checked.bind_eq_ok.mp h
  cases h
  rw [forSymbols_eq] at hfirst hsecond
  exact ⟨first, hfirst, (resolved_nil layout).foldlM (plain_of_visits hplain) hfirst, hsecond⟩

/-- The second pass only adds. -/
theorem grown_of_checkReferences {before after : List (Str × Definition)}
    (h : (visits objects).foldlM (fun definitions v =>
      checkReference v.1.2 v.1.1 definitions v.2) before = .ok after) : Grown before after := by
  refine Checked.foldlM_induction (p := Grown before) ?_ (.refl before) h
  intro _ _ _ _ hkeep hstep
  exact hkeep.checkReference hstep

/-- **What resolution leaves of a name**: the definition that is chosen, or nothing but the address
0. -/
theorem resolved_of_resolveSymbols (hplain : PlainBindings objects)
    (h : resolveSymbols layout objects = .ok symbols) (name : Str) :
    match definitionOf (objects.map fun o => o.symbols.find) name with
    | none => ∀ d, symbols.definitions.lookup name = some d → d.address = 0
    | some offer => ∃ d object, symbols.definitions.lookup name = some d ∧
        objects[offer.1]? = some object ∧ addressOf layout offer.1 object offer.2 =
          .ok d.address := by
  obtain ⟨first, -, hresolved, hsecond⟩ := resolveSymbols_cases hplain h
  have hgrown := grown_of_checkReferences hsecond
  have hname := hresolved name
  unfold definitionOf
  rw [← map_offersOf, chosen_map]
  cases hchosen : chosen (fun v : (ObjectFile × ℕ) × Symbol => decide (v.2.binding = .global))
      (offersOf name (visits objects)) with
  | none =>
    rw [hchosen] at hname
    exact hgrown.added name hname
  | some v =>
    rw [hchosen] at hname
    obtain ⟨d, hd, -, haddress⟩ := hname
    have hv := mem_visits (List.mem_filter.mp (chosen_mem hchosen)).1
    exact ⟨d, v.1.1, hgrown.kept name d hd, hv.1, haddress⟩

end

/-! ### Addresses -/

/-- Where a link puts what a symbol of an object stands for. -/
def symbolAddress (options : LinkOptions) (objects : List ObjectFile) (offer : ℕ × Symbol) :
    Option UInt64 :=
  (sectionAddress options objects offer.1 offer.2.sectionId.toNat).map fun address =>
    address + offer.2.value

/-- The address of a name in an object: of the definition the object keeps to itself if it has one,
else of the definition that is chosen among all objects; 0 if there is none. -/
def finalAddress (options : LinkOptions) (objects : List ObjectFile)
    (finds : List (Str → Option Symbol)) (i : ℕ) (name : Str) : Option UInt64 :=
  match (finds[i]?.bind fun find => find name).filter
      fun s => s.defined && s.binding = .local with
  | some s => symbolAddress options objects (i, s)
  | none =>
    match definitionOf finds name with
    | some offer => symbolAddress options objects offer
    | none => some 0

section

variable {options : LinkOptions} {objects : List ObjectFile} {start layout : Layout} {i : ℕ}
  {object : ObjectFile} {s : Symbol} {address : UInt64}

/-- Relocations move nothing, so the address is the same before and after them. -/
theorem symbolAddress_of_addressOf (hmerge : mergeSections options objects = .ok start)
    (hpatched : start.Patched layout) (h : addressOf layout i object s = .ok address) :
    symbolAddress options objects (i, s) = some address := by
  unfold addressOf at h
  split_ifs at h
  · cases h
  obtain ⟨placed, hplaced, h⟩ := Checked.bind_eq_ok.mp h
  obtain ⟨found, hfound, h⟩ := Checked.bind_eq_ok.mp h
  cases found with
  | none => cases h
  | some placement =>
    obtain ⟨region, hregion, h⟩ := Checked.bind_eq_ok.mp h
    cases h
    have hat : start.placementAt i s.sectionId.toNat = some placement :=
      placementAt_eq_some.mpr ⟨placed, by
        rw [← hpatched.placements]
        exact getElem?_of_elementAt hplaced, getElem?_of_elementAt hfound⟩
    obtain ⟨before, hbefore, hone⟩ := hpatched.getElem? (getElem?_of_elementAt hregion)
    unfold symbolAddress sectionAddress
    rw [hmerge]
    dsimp only
    rw [hat, Option.bind_some, hbefore, Option.map_some, Option.map_some, hone.same.base]

/-- **The address a reference gets.** -/
theorem finalAddress_of_targetOf (hmerge : mergeSections options objects = .ok start)
    (hpatched : start.Patched layout) (hplain : PlainBindings objects) {symbols : Symbols}
    (hresolve : resolveSymbols start objects = .ok symbols) (hobject : objects[i]? = some object)
    (hs : object.symbols.find s.name = some s)
    (h : targetOf layout symbols i object s = .ok address) :
    finalAddress options objects (objects.map fun o => o.symbols.find) i s.name = some address := by
  have hfind : ((objects.map fun o => o.symbols.find)[i]?.bind fun find => find s.name) =
      some s := by
    rw [List.getElem?_map, hobject, Option.map_some, Option.bind_some, hs]
  unfold targetOf at h
  unfold finalAddress
  rw [hfind]
  by_cases hlocal : s.defined = true ∧ s.binding = .local
  · -- the object has the name for itself
    rw [if_pos hlocal] at h
    have hfilter : (some s).filter (fun s : Symbol => s.defined && s.binding = .local) =
        some s := by
      simp [Option.filter, hlocal.1, hlocal.2]
    rw [hfilter]
    exact symbolAddress_of_addressOf hmerge hpatched h
  · rw [if_neg hlocal] at h
    have hfilter : (some s).filter (fun s : Symbol => s.defined && s.binding = .local) = none := by
      simpa [Option.filter] using hlocal
    rw [hfilter]
    dsimp only
    have hresolved := resolved_of_resolveSymbols hplain hresolve s.name
    cases hdefinition : definitionOf (objects.map fun o => o.symbols.find) s.name with
    | none =>
      rw [hdefinition] at hresolved
      cases hlookup : symbols.definitions.lookup s.name with
      | none =>
        rw [hlookup] at h
        cases h
      | some d =>
        rw [hlookup] at h
        cases h
        exact congrArg some (hresolved d hlookup).symm
    | some offer =>
      rw [hdefinition] at hresolved
      obtain ⟨d, other, hlookup, -, haddress⟩ := hresolved
      rw [hlookup] at h
      cases h
      exact symbolAddress_of_addressOf hmerge (.refl start) haddress

end

end Linker
end MiniTool
