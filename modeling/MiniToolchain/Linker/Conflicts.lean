import MiniToolchain.Linker.Safety
import MiniToolchain.Linker.Resolve

/-!
# When resolution succeeds

Whether two definitions are in conflict, and whether a reference has a definition, is a matter of
the symbols of all objects and not of their order.  Only a reference that is weak in one object and
strong in another makes the order matter.

## Main definitions

* `NoConflicts` — no name has two global definitions.
* `Supplied` — every strong reference has a definition.
* `Unmixed` — a name without a definition is not referred to both weakly and strongly.

## Main results

* `noConflicts_of_resolveSymbols`, `supplied_of_resolveSymbols` — what a resolution that succeeds
  says.
* `exists_resolveSymbols` — these are enough for resolution to succeed.
-/

namespace MiniTool
namespace Linker

open Object

/-! ### The symbols of all objects -/

def allSymbols (objects : List ObjectFile) : List Symbol :=
  objects.flatMap fun object => object.symbols.symbols

theorem map_visits (objects : List ObjectFile) :
    (visits objects).map Prod.snd = allSymbols objects := by
  unfold visits allSymbols
  rw [List.map_flatMap]
  simp only [List.map_map, Function.comp_def, List.map_id']
  have hfst := List.flatMap_map Prod.fst (fun object : ObjectFile => object.symbols.symbols)
    objects.zipIdx
  rw [List.zipIdx_map_fst] at hfst
  exact hfst.symm

theorem mem_allSymbols {objects : List ObjectFile} {s : Symbol} :
    s ∈ allSymbols objects ↔ ∃ v ∈ visits objects, v.2 = s := by
  rw [← map_visits, List.mem_map]

/-- Both symbols are global definitions of one name. -/
def Conflicts (s t : Symbol) : Prop :=
  s.name = t.name ∧ (Offered s = true ∧ s.binding = .global) ∧
    (Offered t = true ∧ t.binding = .global)

theorem Conflicts.symm {s t : Symbol} (h : Conflicts s t) : Conflicts t s :=
  ⟨h.1.symm, h.2.2, h.2.1⟩

/-- No name has two global definitions. -/
def NoConflicts (objects : List ObjectFile) : Prop :=
  (allSymbols objects).Pairwise fun s t => ¬Conflicts s t

/-- Some object offers a definition of the name. -/
def DefinedIn (objects : List ObjectFile) (name : Str) : Prop :=
  ∃ s ∈ allSymbols objects, s.name = name ∧ Offered s = true

/-- The object needs a definition of the name from another one. -/
def StrongReference (s : Symbol) : Prop := s.defined = false ∧ s.binding ≠ .weak

/-- The object can do without a definition of the name. -/
def WeakReference (s : Symbol) : Prop := s.defined = false ∧ s.binding = .weak

/-- Every strong reference has a definition. -/
def Supplied (objects : List ObjectFile) : Prop :=
  ∀ s ∈ allSymbols objects, StrongReference s → DefinedIn objects s.name

/-- A name without a definition is not referred to both weakly and strongly. -/
def Unmixed (objects : List ObjectFile) : Prop :=
  ∀ s ∈ allSymbols objects, ∀ t ∈ allSymbols objects, s.name = t.name → WeakReference s →
    StrongReference t → DefinedIn objects t.name

/-! ### The order of the objects -/

section

variable {objects objects' : List ObjectFile}

theorem perm_allSymbols (h : objects.Perm objects') :
    (allSymbols objects).Perm (allSymbols objects') := h.flatMap_right _

theorem NoConflicts.perm (hno : NoConflicts objects) (h : objects.Perm objects') :
    NoConflicts objects' :=
  List.Pairwise.perm hno (perm_allSymbols h) fun hnot hconflicts => hnot hconflicts.symm

theorem DefinedIn.perm {name : Str} (hdefined : DefinedIn objects name)
    (h : objects.Perm objects') :
    DefinedIn objects' name := by
  obtain ⟨s, hs, hname, hoffered⟩ := hdefined
  exact ⟨s, (perm_allSymbols h).mem_iff.mp hs, hname, hoffered⟩

theorem Supplied.perm (hsupplied : Supplied objects) (h : objects.Perm objects') :
    Supplied objects' := by
  intro s hs hstrong
  exact (hsupplied s ((perm_allSymbols h).mem_iff.mpr hs) hstrong).perm h

theorem Unmixed.perm (hunmixed : Unmixed objects) (h : objects.Perm objects') :
    Unmixed objects' := by
  intro s hs t ht hname hweak hstrong
  have hs' := (perm_allSymbols h).mem_iff.mpr hs
  have ht' := (perm_allSymbols h).mem_iff.mpr ht
  exact (hunmixed s hs' t ht' hname hweak hstrong).perm h

end

/-! ### The first pass -/

/-- A strong offer leaves nothing else to choose. -/
theorem strong_of_chosen {α : Type} {strong : α → Bool} {offers : List α} {x y : α}
    (hx : x ∈ offers) (hstrong : strong x = true) (h : chosen strong offers = some y) :
    strong y = true := by
  cases hy : strong y with
  | true => rfl
  | false =>
    have hnot := List.find?_eq_none.mp (find?_of_not_strong h hy) x hx
    exact absurd hstrong hnot

section

variable {layout : Layout} {vs : List ((ObjectFile × ℕ) × Symbol)} {symbols symbols' : Symbols}
  {v : (ObjectFile × ℕ) × Symbol} {d : Definition}

/-- The definition that is there is one of those visited. -/
theorem Resolved.exists_visit (h : Resolved layout vs symbols.definitions) {name : Str}
    (hlookup : symbols.definitions.lookup name = some d) :
    ∃ u ∈ vs, u.2.name = name ∧ Offered u.2 = true ∧ d.binding = u.2.binding ∧
      ∀ w ∈ vs, w.2.name = name → Offered w.2 = true → w.2.binding = .global →
        d.binding = .global := by
  have hname := h name
  cases hchosen : chosen (fun v : (ObjectFile × ℕ) × Symbol => decide (v.2.binding = .global))
      (offersOf name vs) with
  | none =>
    rw [hchosen] at hname
    dsimp only at hname
    rw [hname] at hlookup
    cases hlookup
  | some u =>
    rw [hchosen] at hname
    obtain ⟨d', hd', hdefines⟩ := hname
    rw [hlookup] at hd'
    cases hd'
    obtain ⟨hmem, hboth⟩ := List.mem_filter.mp (chosen_mem hchosen)
    obtain ⟨hname, hoffered⟩ := (Bool.and_eq_true _ _).mp hboth
    refine ⟨u, hmem, of_decide_eq_true hname, hoffered, hdefines.1, ?_⟩
    intro w hw hwname hwoffered hglobal
    have hoffer : w ∈ offersOf name vs :=
      List.mem_filter.mpr ⟨hw, by rw [hwoffered, decide_eq_true hwname]; rfl⟩
    have hstrong := strong_of_chosen hoffer (by simpa using hglobal) hchosen
    rw [hdefines.1]
    exact of_decide_eq_true hstrong

/-- A name without a definition has not been offered. -/
theorem Resolved.not_offered (h : Resolved layout vs symbols.definitions) {name : Str}
    (hlookup : symbols.definitions.lookup name = none) :
    ∀ w ∈ vs, w.2.name = name → ¬Offered w.2 = true := by
  intro w hw hwname hoffered
  have hname := h name
  cases hchosen : chosen (fun v : (ObjectFile × ℕ) × Symbol => decide (v.2.binding = .global))
      (offersOf name vs) with
  | none =>
    have hoffer : w ∈ offersOf name vs :=
      List.mem_filter.mpr ⟨hw, by rw [hoffered, decide_eq_true hwname]; rfl⟩
    rw [chosen_eq_none.mp hchosen] at hoffer
    cases hoffer
  | some u =>
    rw [hchosen] at hname
    obtain ⟨d, hd, -⟩ := hname
    rw [hlookup] at hd
    cases hd

/-- A definition is refused exactly when it is in conflict with one before it. -/
theorem Resolved.addDefinition_isOk (h : Resolved layout vs symbols.definitions)
    (hoffered : Offered v.2 = true) (hd : d.binding = v.2.binding) :
    (∃ symbols', Linker.addDefinition symbols v.2.name d = .ok symbols') ↔
      ∀ u ∈ vs, ¬Conflicts u.2 v.2 := by
  unfold Linker.addDefinition
  cases hlookup : symbols.definitions.lookup v.2.name with
  | none =>
    refine ⟨fun _ u hu hconflicts => ?_, fun _ => ⟨_, rfl⟩⟩
    exact h.not_offered hlookup u hu hconflicts.1 hconflicts.2.1.1
  | some existing =>
    obtain ⟨u, hu, huname, huoffered, hbinding, hglobal⟩ := h.exists_visit hlookup
    dsimp only
    split_ifs with hboth hweak
    · -- two global definitions
      constructor
      · rintro ⟨_, hfail⟩
        cases hfail
      intro hno
      refine absurd ?_ (hno u hu)
      exact ⟨huname, ⟨huoffered, by rw [← hbinding]; exact hboth.1⟩, hoffered,
        by rw [← hd]; exact hboth.2⟩
    · refine ⟨fun _ w hw hconflicts => hboth ⟨?_, ?_⟩, fun _ => ⟨_, rfl⟩⟩
      · exact hglobal w hw hconflicts.1 hconflicts.2.1.1 hconflicts.2.1.2
      · rw [hd]
        exact hconflicts.2.2.2
    · refine ⟨fun _ w hw hconflicts => hboth ⟨?_, ?_⟩, fun _ => ⟨_, rfl⟩⟩
      · exact hglobal w hw hconflicts.1 hconflicts.2.1.1 hconflicts.2.1.2
      · rw [hd]
        exact hconflicts.2.2.2

/-- A symbol is visited without an error exactly when it has an address and is in no conflict. -/
theorem Resolved.defineSymbol_isOk (h : Resolved layout vs symbols.definitions) :
    (∃ symbols', Linker.defineSymbol layout v.1.2 v.1.1 symbols v.2 = .ok symbols') ↔
      (v.2.defined = true → ∃ address, addressOf layout v.1.2 v.1.1 v.2 = .ok address) ∧
        ∀ u ∈ vs, ¬Conflicts u.2 v.2 := by
  unfold Linker.defineSymbol
  by_cases hdefined : v.2.defined = true
  · rw [if_pos hdefined]
    cases haddress : addressOf layout v.1.2 v.1.1 v.2 with
    | error e =>
      constructor
      · rintro ⟨_, hfail⟩
        cases hfail
      · intro hall
        obtain ⟨_, hok⟩ := hall.1 hdefined
        cases hok
    | ok address =>
      rw [Checked.ok_bind]
      dsimp only
      by_cases hlocal : v.2.binding = .local
      · -- a local symbol is in no conflict
        rw [if_pos hlocal]
        refine ⟨fun _ => ⟨fun _ => ⟨_, rfl⟩, fun u _ hconflicts => ?_⟩, fun _ => ⟨_, rfl⟩⟩
        have hglobal := hconflicts.2.2.2
        rw [hlocal] at hglobal
        cases hglobal
      · rw [if_neg hlocal, h.addDefinition_isOk (by simp [Offered, hdefined, hlocal]) rfl]
        exact ⟨fun hno => ⟨fun _ => ⟨_, rfl⟩, hno⟩, fun hall => hall.2⟩
  · rw [if_neg hdefined]
    refine ⟨fun _ => ⟨fun hyes => absurd hyes hdefined, fun u _ hconflicts => ?_⟩,
      fun _ => ⟨_, rfl⟩⟩
    exact hdefined ((Bool.and_eq_true _ _).mp hconflicts.2.2.1).1

/-- All symbols. -/
theorem Resolved.foldlM_isOk {rest : List ((ObjectFile × ℕ) × Symbol)} :
    ∀ {vs : List ((ObjectFile × ℕ) × Symbol)} {symbols : Symbols},
      Resolved layout vs symbols.definitions →
      (∀ u ∈ vs ++ rest, Offered u.2 = true → u.2.binding = .global ∨ u.2.binding = .weak) →
      (vs.map Prod.snd).Pairwise (fun s t => ¬Conflicts s t) →
      ((∃ symbols', rest.foldlM
          (fun symbols v => Linker.defineSymbol layout v.1.2 v.1.1 symbols v.2) symbols =
            .ok symbols') ↔
        (∀ v ∈ rest, v.2.defined = true →
          ∃ address, addressOf layout v.1.2 v.1.1 v.2 = .ok address) ∧
        ((vs ++ rest).map Prod.snd).Pairwise fun s t => ¬Conflicts s t) := by
  induction rest with
  | nil =>
    intro vs symbols h _ hpairs
    rw [List.append_nil]
    exact ⟨fun _ => ⟨nofun, hpairs⟩, fun _ => ⟨symbols, rfl⟩⟩
  | cons v rest ih =>
    intro vs symbols h hplain hpairs
    have hone := h.defineSymbol_isOk (v := v)
    rw [List.append_cons] at hplain ⊢
    have hsnoc : ((vs ++ [v]).map Prod.snd).Pairwise (fun s t => ¬Conflicts s t) ↔
        ∀ u ∈ vs, ¬Conflicts u.2 v.2 := by
      rw [List.map_append, List.pairwise_append, List.map_singleton]
      simp only [hpairs, List.pairwise_singleton, List.forall_mem_map, List.mem_singleton,
        forall_eq, true_and]
    have hplain' : ∀ u ∈ vs ++ [v],
        Offered u.2 = true → u.2.binding = .global ∨ u.2.binding = .weak :=
      fun u hu => hplain u (List.mem_append_left _ hu)
    rw [List.foldlM_cons]
    constructor
    · rintro ⟨symbols', hfold⟩
      obtain ⟨next, hstep, hrest⟩ := Checked.bind_eq_ok.mp hfold
      obtain ⟨haddress, hno⟩ := hone.mp ⟨next, hstep⟩
      obtain ⟨haddresses, hall⟩ := (ih (h.defineSymbol hplain' hstep) hplain
        (hsnoc.mpr hno)).mp ⟨symbols', hrest⟩
      exact ⟨List.forall_mem_cons.mpr ⟨haddress, haddresses⟩, hall⟩
    · rintro ⟨haddresses, hall⟩
      obtain ⟨haddress, haddresses⟩ := List.forall_mem_cons.mp haddresses
      have hpairs' : ((vs ++ [v]).map Prod.snd).Pairwise (fun s t => ¬Conflicts s t) := by
        rw [List.map_append] at hall
        exact (List.pairwise_append.mp hall).1
      obtain ⟨next, hstep⟩ := hone.mpr ⟨haddress, hsnoc.mp hpairs'⟩
      obtain ⟨symbols', hrest⟩ := (ih (h.defineSymbol hplain' hstep) hplain hpairs').mpr
        ⟨haddresses, hall⟩
      refine ⟨symbols', ?_⟩
      rw [hstep]
      exact hrest

end

/-! ### The second pass -/

section

variable {before definitions definitions' : List (Str × Definition)}
  {vs : List ((ObjectFile × ℕ) × Symbol)} {v : (ObjectFile × ℕ) × Symbol}

/-- What the second pass adds to the definitions, weak references of what it has visited have
made. -/
def Filled (before definitions : List (Str × Definition)) (vs : List ((ObjectFile × ℕ) × Symbol)) :
    Prop :=
  ∀ name, before.lookup name = none → definitions.lookup name ≠ none →
    ∃ v ∈ vs, v.2.name = name ∧ WeakReference v.2

theorem Filled.checkReference (h : Filled before definitions vs)
    (hstep : Linker.checkReference v.1.2 v.1.1 definitions v.2 = .ok definitions') :
    Filled before definitions' (vs ++ [v]) ∧
      (StrongReference v.2 → definitions.lookup v.2.name ≠ none) := by
  unfold Linker.checkReference at hstep
  split_ifs at hstep with hfound hweak
  · cases hstep
    constructor
    · intro name hbefore hafter
      obtain ⟨u, hu, hone⟩ := h name hbefore hafter
      exact ⟨u, List.mem_append_left _ hu, hone⟩
    · intro hstrong hnone
      rcases hfound with hdefined | hsome
      · rw [hstrong.1] at hdefined
        cases hdefined
      · rw [hnone] at hsome
        cases hsome
  · cases hstep
    rw [not_or, Bool.not_eq_true] at hfound
    constructor
    · intro name hbefore hafter
      by_cases hname : v.2.name = name
      · exact ⟨v, List.mem_append_right _ (List.mem_singleton.mpr rfl), hname, hfound.1, hweak⟩
      · rw [lookup_append_eq, if_neg (Ne.symm hname), Option.or_none] at hafter
        obtain ⟨u, hu, hone⟩ := h name hbefore hafter
        exact ⟨u, List.mem_append_left _ hu, hone⟩
    · intro hstrong
      exact absurd hweak hstrong.2
  · cases hstep

/-- A strong reference finds a definition, or the weak reference that stands in for one. -/
theorem Filled.foldlM {rest : List ((ObjectFile × ℕ) × Symbol)} :
    ∀ {vs : List ((ObjectFile × ℕ) × Symbol)} {definitions definitions' : List (Str × Definition)},
      Filled before definitions vs →
      rest.foldlM (fun definitions v => Linker.checkReference v.1.2 v.1.1 definitions v.2)
        definitions = .ok definitions' →
      ∀ v ∈ rest, StrongReference v.2 → before.lookup v.2.name ≠ none ∨
        ∃ u ∈ vs ++ rest, u.2.name = v.2.name ∧ WeakReference u.2 := by
  induction rest with
  | nil =>
    intro vs definitions definitions' _ _ v hv
    cases hv
  | cons w rest ih =>
    intro vs definitions definitions' h hfold v hv hstrong
    rw [List.foldlM_cons] at hfold
    obtain ⟨next, hstep, hrest⟩ := Checked.bind_eq_ok.mp hfold
    obtain ⟨hnext, hfound⟩ := h.checkReference hstep
    rcases List.mem_cons.mp hv with rfl | hv
    · by_cases hbefore : before.lookup v.2.name = none
      · obtain ⟨u, hu, hone⟩ := h _ hbefore (hfound hstrong)
        exact Or.inr ⟨u, List.mem_append_left _ hu, hone⟩
      · exact Or.inl hbefore
    · rw [List.append_cons]
      exact ih hnext hrest v hv hstrong

end

/-! ### Both passes -/

section

variable {objects : List ObjectFile} {layout : Layout} {symbols : Symbols}

/-- The definitions of the first pass are those that the objects offer. -/
theorem Resolved.definedIn (h : Resolved layout (visits objects) symbols.definitions) {name : Str} :
    symbols.definitions.lookup name ≠ none ↔ DefinedIn objects name := by
  constructor
  · intro hsome
    obtain ⟨d, hd⟩ := Option.ne_none_iff_exists'.mp hsome
    obtain ⟨u, hu, hname, hoffered, -⟩ := h.exists_visit hd
    exact ⟨u.2, mem_allSymbols.mpr ⟨u, hu, rfl⟩, hname, hoffered⟩
  · rintro ⟨s, hs, hname, hoffered⟩ hnone
    obtain ⟨v, hv, rfl⟩ := mem_allSymbols.mp hs
    exact h.not_offered hnone v hv hname hoffered

theorem noConflicts_of_resolveSymbols (hplain : PlainBindings objects)
    (h : resolveSymbols layout objects = .ok symbols) : NoConflicts objects := by
  obtain ⟨first, hfirst, -, -⟩ := resolveSymbols_cases hplain h
  have hall := ((resolved_nil layout).foldlM_isOk (plain_of_visits hplain) .nil).mp ⟨first, hfirst⟩
  unfold NoConflicts
  rw [← map_visits]
  exact hall.2

/-- **A resolution that succeeds has found every strong reference**, unless a weak reference to the
same name stood in for a definition. -/
theorem supplied_of_resolveSymbols (hplain : PlainBindings objects) (hunmixed : Unmixed objects)
    (h : resolveSymbols layout objects = .ok symbols) : Supplied objects := by
  obtain ⟨first, -, hresolved, hsecond⟩ := resolveSymbols_cases hplain h
  intro s hs hstrong
  obtain ⟨v, hv, rfl⟩ := mem_allSymbols.mp hs
  have hstart : Filled first.definitions first.definitions [] := by
    intro name hnone hsome
    exact absurd hnone hsome
  rcases hstart.foldlM hsecond v hv hstrong with hfound | ⟨u, hu, hname, hweak⟩
  · exact hresolved.definedIn.mp hfound
  · exact hunmixed u.2 (mem_allSymbols.mpr ⟨u, hu, rfl⟩) v.2 hs hname hweak hstrong

/-- A name that is not private to an object has a definition after a resolution that succeeds. -/
theorem lookup_of_resolveSymbols (hplain : PlainBindings objects)
    (h : resolveSymbols layout objects = .ok symbols) {v : (ObjectFile × ℕ) × Symbol}
    (hv : v ∈ visits objects) (hprivate : ¬(v.2.defined = true ∧ v.2.binding = .local)) :
    symbols.definitions.lookup v.2.name ≠ none := by
  obtain ⟨first, -, hresolved, hsecond⟩ := resolveSymbols_cases hplain h
  have hkeep : ∀ {definitions definitions' : List (Str × Definition)}
      {w : (ObjectFile × ℕ) × Symbol} {name : Str}, checkReference w.1.2 w.1.1 definitions w.2 =
      .ok definitions' →
      definitions.lookup name ≠ none → definitions'.lookup name ≠ none := by
    intro definitions definitions' w name hstep hsome
    obtain ⟨d, hd⟩ := Option.ne_none_iff_exists'.mp hsome
    rw [((Grown.refl definitions).checkReference hstep).kept name d hd]
    nofun
  by_cases hdefined : v.2.defined = true
  · -- a definition is there since the first pass
    have hoffered : Offered v.2 = true := by
      have hbinding : v.2.binding ≠ .local := fun hlocal => hprivate ⟨hdefined, hlocal⟩
      simp [Offered, hdefined, hbinding]
    have hfirst := hresolved.definedIn.mpr
      ⟨v.2, mem_allSymbols.mpr ⟨v, hv, rfl⟩, rfl, hoffered⟩
    refine Checked.foldlM_induction
      (p := fun definitions : List (Str × Definition) => definitions.lookup v.2.name ≠ none)
      ?_ hfirst hsecond
    intro _ w _ _ hsome hstep
    exact hkeep (w := w) hstep hsome
  · refine Checked.foldlM_establishes
      (q := fun (w : (ObjectFile × ℕ) × Symbol) (definitions : List (Str × Definition)) =>
        w.2.defined = true ∨ definitions.lookup w.2.name ≠ none) ?_ ?_ hsecond v hv
      |>.resolve_left hdefined
    · intro definitions w definitions' hstep
      unfold checkReference at hstep
      split_ifs at hstep with hfound hweak
      · cases hstep
        exact hfound.imp_right Option.isSome_iff_ne_none.mp
      · cases hstep
        right
        rw [lookup_append_eq, if_pos rfl]
        intro hnone
        cases (Option.or_eq_none_iff.mp hnone).2
      · cases hstep
    · intro definitions w definitions' u hstep hor
      exact hor.imp_right (hkeep (w := w) hstep)

/-- **Resolution succeeds** when every definition has an address, none is in conflict, and every
strong reference has a definition. -/
theorem exists_resolveSymbols (hplain : PlainBindings objects)
    (haddress : ∀ v ∈ visits objects, v.2.defined = true →
      ∃ address, addressOf layout v.1.2 v.1.1 v.2 = .ok address)
    (hno : NoConflicts objects) (hsupplied : Supplied objects) :
    ∃ symbols, resolveSymbols layout objects = .ok symbols := by
  unfold NoConflicts at hno
  rw [← map_visits] at hno
  obtain ⟨first, hfirst⟩ := ((resolved_nil layout).foldlM_isOk (plain_of_visits hplain) .nil).mpr
    ⟨haddress, hno⟩
  have hresolved : Resolved layout (visits objects) first.definitions :=
    (resolved_nil layout).foldlM (plain_of_visits hplain) hfirst
  have hsecond : ∀ e, (visits objects).foldlM (fun definitions v =>
      checkReference v.1.2 v.1.1 definitions v.2) first.definitions ≠ .error e := by
    intro e
    refine Checked.foldlM_ne_error_of (p := Grown first.definitions) ?_ ?_
      (.refl first.definitions)
    · intro _ _ _ _ hkeep hstep
      exact hkeep.checkReference hstep
    · intro definitions v hv hgrown hfail
      unfold checkReference at hfail
      split_ifs at hfail with hfound hweak
      -- the definition of a strong reference is there since the first pass
      rw [not_or, Bool.not_eq_true, Option.not_isSome_iff_eq_none] at hfound
      have hdefined := hsupplied v.2 (mem_allSymbols.mpr ⟨v, hv, rfl⟩) ⟨hfound.1, hweak⟩
      obtain ⟨d, hd⟩ := Option.ne_none_iff_exists'.mp (hresolved.definedIn.mpr hdefined)
      rw [hgrown.kept _ _ hd] at hfound
      cases hfound.2
  unfold resolveSymbols
  rw [forSymbols_eq, hfirst, Checked.ok_bind, forSymbols_eq]
  cases hfold : (visits objects).foldlM (fun definitions v =>
      checkReference v.1.2 v.1.1 definitions v.2) first.definitions with
  | error e => exact absurd hfold (hsecond e)
  | ok definitions => exact ⟨_, rfl⟩

end

end Linker
end MiniTool
