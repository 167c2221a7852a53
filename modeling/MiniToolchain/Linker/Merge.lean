import MiniToolchain.Linker.Linker

/-!
# What merging sections gives

Merging is one loop over all sections of all objects.  Its invariant says where every section so far
has ended up, and that the sections of a region follow one another.

## Main definitions

* `Region.Sound` — a region stays below its cap and stores what it describes.
* `PlacedAt` — the section is in its region, with its bytes where it was placed.
* `Merged` — the invariant of the loop.

## Main results

* `mergeSection_cases` — what one turn does.
* `merged_of_mergeSections`, `placedAt_of_mergeSections` — the invariant at the end.
* `mergeSections_ne_outOfRange` — merging takes no element from outside a list.
-/

namespace MiniTool
namespace Linker

open Object Bounds

/-! ### Rounding up -/

/-- Rounding up does not wrap for values this small, whatever the alignment. -/
theorem le_alignUp {value alignment : UInt64} (h : value.toNat < 2 ^ 63) :
    value.toNat ≤ (alignUp value alignment).toNat := by
  rw [alignUp_toNat h]
  split_ifs <;> omega

/-! ### Regions -/

/-- A region stays below its cap and stores what it describes. -/
structure Region.Sound (region : Region) : Prop where
  size_le : region.size.toNat ≤ kRegionSize.toNat
  data : region.zeroFilled = false → region.data.length = region.size.toNat
  zeros : region.zeroFilled = true → region.data = []

/-- What a region is; merging does not change it. -/
structure Region.Same (a b : Region) : Prop where
  type : b.type = a.type
  segment : b.segment = a.segment
  flags : b.flags = a.flags
  name : b.name = a.name
  base : b.base = a.base
  zeroFilled : b.zeroFilled = a.zeroFilled

theorem Region.Same.refl (region : Region) : region.Same region := ⟨rfl, rfl, rfl, rfl, rfl, rfl⟩

theorem Region.Same.trans {a b c : Region} (h : a.Same b) (h' : b.Same c) : a.Same c :=
  ⟨h'.type.trans h.type, h'.segment.trans h.segment, h'.flags.trans h.flags, h'.name.trans h.name,
    h'.base.trans h.base, h'.zeroFilled.trans h.zeroFilled⟩

theorem Region.same_append (region : Region) (input : Section) (offset : UInt64) :
    region.Same (region.append input offset) := ⟨rfl, rfl, rfl, rfl, rfl, rfl⟩

@[simp] theorem length_resize (bytes : List UInt8) (size : ℕ) :
    (resize bytes size).length = size := by
  unfold resize
  rw [List.length_append, List.length_take, List.length_replicate]
  omega

/-- Growing and shrinking keep what is in front of both sizes. -/
theorem take_resize {bytes : List UInt8} {size count : ℕ} (hcount : count ≤ size)
    (hbytes : count ≤ bytes.length) : (resize bytes size).take count = bytes.take count := by
  unfold resize
  rw [List.take_append_of_le_length (by rw [List.length_take]; omega), List.take_take,
    Nat.min_eq_left hcount]

theorem resize_append (front bytes : List UInt8) (size : ℕ) :
    resize (front ++ bytes) (front.length + size) = front ++ resize bytes size := by
  unfold resize
  rw [List.take_length_add_append, List.length_append, List.append_assoc, Nat.add_sub_add_left]

/-- What a stored region holds after a section is appended. -/
theorem Region.data_append {region : Region} (hzero : region.zeroFilled = false) {input : Section}
    {offset : UInt64} (hsum : (offset + input.size).toNat = offset.toNat + input.size.toNat) :
    (region.append input offset).data =
      resize region.data offset.toNat ++ resize input.data input.size.toNat := by
  simp only [Region.append, hzero, Bool.false_eq_true, if_false, hsum]
  have h := resize_append (resize region.data offset.toNat) input.data input.size.toNat
  rwa [length_resize] at h

/-- The bound that a turn of the loop checks. -/
theorem fits_of_checks {offset size : UInt64} (hoffset : ¬offset > kRegionSize)
    (hsize : ¬size > kRegionSize - offset) :
    offset.toNat + size.toNat ≤ kRegionSize.toNat ∧
      (offset + size).toNat = offset.toNat + size.toNat := by
  have hcap : kRegionSize.toNat = 0xF0000 := rfl
  rw [gt_iff_lt, UInt64.lt_iff_toNat_lt, not_lt] at hoffset hsize
  rw [UInt64.toNat_sub_of_le _ _ (UInt64.le_iff_toNat_le.mpr hoffset)] at hsize
  have hsum : offset.toNat + size.toNat ≤ kRegionSize.toNat := by omega
  refine ⟨hsum, ?_⟩
  rw [UInt64.toNat_add, Nat.mod_eq_of_lt (by omega)]

theorem Region.Sound.append {region : Region} (h : region.Sound) {input : Section} {offset : UInt64}
    (hfits : offset.toNat + input.size.toNat ≤ kRegionSize.toNat)
    (hsum : (offset + input.size).toNat = offset.toNat + input.size.toNat) :
    (region.append input offset).Sound where
  size_le := by
    show (offset + input.size).toNat ≤ _
    omega
  data := by
    intro hzero
    have hzero : region.zeroFilled = false := hzero
    rw [Region.data_append hzero hsum, List.length_append, length_resize, length_resize]
    exact hsum.symm
  zeros := by
    intro hzero
    have hzero : region.zeroFilled = true := hzero
    simp only [Region.append, hzero, if_true]
    exact h.zeros hzero

/-! ### One turn -/

/-- What one turn of the loop does. -/
theorem mergeSection_cases {regions regions' : List Region}
    {placed placed' : List (Option Placement)} {input : Section}
    (h : mergeSection (regions, placed) input = .ok (regions', placed')) :
    (input.type = .null ∧ regions' = regions ∧ placed' = placed ++ [none]) ∨
    (input.type ≠ .null ∧ ∃ index region, regions[index]? = some region ∧
      region.type = input.type ∧
      ¬alignUp region.size input.alignment > kRegionSize ∧
      ¬input.size > kRegionSize - alignUp region.size input.alignment ∧
      regions' = regions.set index (region.append input (alignUp region.size input.alignment)) ∧
      placed' = placed ++ [some ⟨index, alignUp region.size input.alignment⟩]) := by
  unfold mergeSection at h
  dsimp only at h
  by_cases hnull : input.type = .null
  · rw [if_pos hnull] at h
    cases h
    exact Or.inl ⟨hnull, rfl, rfl⟩
  · rw [if_neg hnull] at h
    by_cases hindex : regionIndexFor regions input.type = regions.length
    · rw [if_pos hindex] at h
      cases h
    · rw [if_neg hindex] at h
      have hlt : regionIndexFor regions input.type < regions.length :=
        lt_of_le_of_ne List.findIdx_le_length hindex
      have hregion := List.getElem?_eq_getElem hlt
      have htype : regions[regionIndexFor regions input.type].type = input.type := by
        have := List.findIdx_getElem (w := hlt)
        exact of_decide_eq_true this
      unfold elementAt at h
      rw [hregion] at h
      dsimp only [Checked.ok_bind] at h
      split_ifs at h with hcheck
      · cases h
      · rw [not_or] at hcheck
        cases h
        exact Or.inr ⟨hnull, _, _, hregion, htype, hcheck.1, hcheck.2, rfl, rfl⟩

theorem mergeSection_ne_outOfRange (state : List Region × List (Option Placement))
    (input : Section) :
    mergeSection state input ≠ .error .outOfRange := by
  unfold mergeSection
  dsimp only
  split_ifs with hnull hindex
  · nofun
  · nofun
  · have hlt : regionIndexFor state.1 input.type < state.1.length :=
      lt_of_le_of_ne List.findIdx_le_length hindex
    unfold elementAt
    rw [List.getElem?_eq_getElem hlt]
    show (if _ then _ else _) ≠ _
    split_ifs <;> nofun

/-! ### The loop -/

/-- The section has no placement, or is in its region with its bytes where it was placed. -/
def PlacedAt (regions : List Region) (input : Section) : Option Placement → Prop
  | none => input.type = .null
  | some placement => input.type ≠ .null ∧ ∃ region, regions[placement.region]? = some region ∧
      region.type = input.type ∧
      placement.offset.toNat + input.size.toNat ≤ region.size.toNat ∧
      (region.zeroFilled = false → subspan region.data placement.offset.toNat input.size.toNat =
        some (resize input.data input.size.toNat))

/-- The section placed first ends before the other starts. -/
def Before (a b : Section × Option Placement) : Prop :=
  ∀ p q, a.2 = some p → b.2 = some q → p.region = q.region →
    p.offset.toNat + a.1.size.toNat ≤ q.offset.toNat

/-- What holds after some sections have been merged. -/
structure Merged (start : List Region) (inputs : List Section) (regions : List Region)
    (placed : List (Option Placement)) : Prop where
  same : List.Forall₂ Region.Same start regions
  sound : ∀ region ∈ regions, region.Sound
  placedAt : List.Forall₂ (PlacedAt regions) inputs placed
  before : (inputs.zip placed).Pairwise Before

/-- Appending to a region leaves what is in it where it is. -/
theorem PlacedAt.set {regions : List Region} {input : Section} {placement : Option Placement}
    (h : PlacedAt regions input placement) {index : ℕ} {region : Region}
    (hregion : regions[index]? = some region) (hsound : region.Sound) {next : Section}
    {offset : UInt64} (hle : region.size.toNat ≤ offset.toNat)
    (hsum : (offset + next.size).toNat = offset.toNat + next.size.toNat) :
    PlacedAt (regions.set index (region.append next offset)) input placement := by
  cases placement with
  | none => exact h
  | some placement =>
    obtain ⟨hnull, old, hold, htype, hin, hdata⟩ := h
    refine ⟨hnull, ?_⟩
    by_cases heq : index = placement.region
    · rw [← heq, hregion] at hold
      cases hold
      have hlt := (List.getElem?_eq_some_iff.mp hregion).1
      have hsize : (region.append next offset).size.toNat = offset.toNat + next.size.toNat := hsum
      refine ⟨region.append next offset, by rw [← heq, List.getElem?_set_self hlt], htype,
        by omega, ?_⟩
      intro hzero
      replace hzero : region.zeroFilled = false := hzero
      have hlength := hsound.data hzero
      rw [← hdata hzero, Region.data_append hzero hsum,
        subspan_of_le (by rw [List.length_append, length_resize, length_resize]; omega),
        subspan_of_le (by omega)]
      -- the part lies in what was there before
      have hfront : (resize region.data offset.toNat).take region.size.toNat = region.data := by
        rw [take_resize hle (by omega), ← hlength, List.take_length]
      rw [List.drop_append_of_le_length (by rw [length_resize]; omega),
        List.take_append_of_le_length (by rw [List.length_drop, length_resize]; omega)]
      conv_rhs => rw [← hfront]
      rw [List.drop_take, List.take_take, Nat.min_eq_left (by omega)]
    · refine ⟨old, ?_, htype, hin, hdata⟩
      rwa [List.getElem?_set_ne heq]

/-- The section appended last. -/
theorem placedAt_append {regions : List Region} {index : ℕ} {region : Region}
    (hregion : regions[index]? = some region) {next : Section} (hnull : next.type ≠ .null)
    (htype : region.type = next.type) {offset : UInt64}
    (hsum : (offset + next.size).toNat = offset.toNat + next.size.toNat) :
    PlacedAt (regions.set index (region.append next offset)) next (some ⟨index, offset⟩) := by
  have hlt := (List.getElem?_eq_some_iff.mp hregion).1
  refine ⟨hnull, region.append next offset, List.getElem?_set_self hlt, htype, hsum.ge, ?_⟩
  intro hzero
  replace hzero : region.zeroFilled = false := hzero
  have hfront : (resize region.data offset.toNat).length = offset.toNat := length_resize _ _
  have hback : (resize next.data next.size.toNat).length = next.size.toNat := length_resize _ _
  rw [Region.data_append hzero hsum, subspan_of_le (by rw [List.length_append, hfront, hback]),
    Option.some.injEq, List.drop_left' hfront, List.take_of_length_le hback.le]

theorem forall₂_same_set {start regions : List Region}
    (h : List.Forall₂ Region.Same start regions) {index : ℕ} {region next : Region}
    (hregion : regions[index]? = some region) (hsame : region.Same next) :
    List.Forall₂ Region.Same start (regions.set index next) := by
  induction h generalizing index with
  | nil => cases hregion
  | cons hfirst hrest ih =>
    cases index with
    | zero =>
      cases hregion
      exact .cons (hfirst.trans hsame) hrest
    | succ index => exact .cons hfirst (ih hregion)

/-- One turn keeps the invariant. -/
theorem Merged.mergeSection {start regions regions' : List Region} {inputs : List Section}
    {placed placed' : List (Option Placement)} (h : Merged start inputs regions placed)
    {input : Section} (hstep : mergeSection (regions, placed) input = .ok (regions', placed')) :
    Merged start (inputs ++ [input]) regions' placed' := by
  have hlength := h.placedAt.length_eq
  have hcap : kRegionSize.toNat = 0xF0000 := rfl
  have hzip : ∀ placement, (inputs ++ [input]).zip (placed ++ [placement]) =
      inputs.zip placed ++ [(input, placement)] := fun placement => by
    rw [List.zip_append hlength]
    rfl
  rcases mergeSection_cases hstep with ⟨hnull, rfl, rfl⟩ |
    ⟨hnull, index, region, hregion, htype, hoffset, hsize, rfl, rfl⟩
  · refine ⟨h.same, h.sound, List.rel_append h.placedAt (.cons hnull .nil), ?_⟩
    rw [hzip, List.pairwise_append]
    refine ⟨h.before, List.pairwise_singleton _ _, fun a ha b hb => ?_⟩
    rw [List.mem_singleton.mp hb]
    exact fun p q hp hq => by cases hq
  · obtain ⟨hfits, hsum⟩ := fits_of_checks hoffset hsize
    have hmem := List.mem_of_getElem? hregion
    have hsound := h.sound region hmem
    have hle : region.size.toNat ≤ (alignUp region.size input.alignment).toNat :=
      le_alignUp (lt_of_le_of_lt hsound.size_le (by omega))
    generalize alignUp region.size input.alignment = offset at *
    refine ⟨forall₂_same_set h.same hregion (region.same_append input offset), ?_, ?_, ?_⟩
    · intro other hother
      rcases List.mem_or_eq_of_mem_set hother with hother | rfl
      · exact h.sound other hother
      · exact hsound.append hfits hsum
    · exact List.rel_append (h.placedAt.imp fun a b hab => hab.set hregion hsound hle hsum)
        (.cons (placedAt_append hregion hnull htype hsum) .nil)
    · rw [hzip, List.pairwise_append]
      refine ⟨h.before, List.pairwise_singleton _ _, fun a ha b hb => ?_⟩
      rw [List.mem_singleton.mp hb]
      intro p q hp hq heq
      cases hq
      -- an earlier section of the region ends within it
      obtain ⟨input', placement'⟩ := a
      have hplaced := List.forall₂_iff_zip.mp h.placedAt |>.2 ha
      cases hp
      obtain ⟨-, old, hold, -, hin, -⟩ := hplaced
      rw [heq, hregion] at hold
      cases hold
      exact hin.trans hle

theorem Merged.foldlM {start : List Region} {sections : List Section} :
    ∀ {regions regions' : List Region} {inputs : List Section}
      {placed placed' : List (Option Placement)}, Merged start inputs regions placed →
      sections.foldlM Linker.mergeSection (regions, placed) = .ok (regions', placed') →
      Merged start (inputs ++ sections) regions' placed' := by
  induction sections with
  | nil =>
    intro regions regions' inputs placed placed' h hfold
    cases hfold
    rwa [List.append_nil]
  | cons input rest ih =>
    intro regions regions' inputs placed placed' h hfold
    rw [List.foldlM_cons] at hfold
    obtain ⟨⟨regions₁, placed₁⟩, hstep, hrest⟩ := Checked.bind_eq_ok.mp hfold
    have := ih (h.mergeSection hstep) hrest
    rwa [List.append_assoc] at this

/-- A turn only appends to the placements. -/
theorem mergeSection_append (regions : List Region) (before placed : List (Option Placement))
    (input : Section) : mergeSection (regions, before ++ placed) input =
      (mergeSection (regions, placed) input).map fun state => (state.1, before ++ state.2) := by
  unfold Linker.mergeSection
  dsimp only
  split_ifs with hnull hindex
  · simp [Except.map]
  · rfl
  · cases elementAt regions (regionIndexFor regions input.type) with
    | error e => rfl
    | ok region =>
      dsimp only [Checked.ok_bind]
      split_ifs
      · rfl
      · simp [Except.map]

theorem foldlM_mergeSection_append (before : List (Option Placement)) (sections : List Section) :
    ∀ (regions : List Region) (placed : List (Option Placement)),
      sections.foldlM Linker.mergeSection (regions, before ++ placed) =
        (sections.foldlM Linker.mergeSection (regions, placed)).map
          fun state => (state.1, before ++ state.2) := by
  induction sections with
  | nil => exact fun _ _ => rfl
  | cons input rest ih =>
    intro regions placed
    rw [List.foldlM_cons, List.foldlM_cons, mergeSection_append]
    cases hstep : Linker.mergeSection (regions, placed) input with
    | error e => rfl
    | ok state => exact ih state.1 state.2

theorem length_of_foldlM {sections : List Section} :
    ∀ {state state' : List Region × List (Option Placement)},
      sections.foldlM Linker.mergeSection state = .ok state' →
      state'.2.length = state.2.length + sections.length := by
  induction sections with
  | nil =>
    intro state state' h
    cases h
    rfl
  | cons input rest ih =>
    intro state state' h
    rw [List.foldlM_cons] at h
    obtain ⟨next, hstep, hrest⟩ := Checked.bind_eq_ok.mp h
    have hone : next.2.length = state.2.length + 1 := by
      rcases mergeSection_cases hstep with ⟨-, -, heq⟩ | ⟨-, _, _, -, -, -, -, -, heq⟩
      · rw [heq, List.length_append, List.length_singleton]
      · rw [heq, List.length_append, List.length_singleton]
    rw [ih hrest, hone, List.length_cons]
    omega

/-- The sections of all objects, one after another. -/
def allSections (objects : List ObjectFile) : List Section := objects.flatMap ObjectFile.sections

/-- The loops over the objects and their sections are one loop over all sections. -/
theorem flatten_of_mergeObjects {objects : List ObjectFile} :
    ∀ {layout layout' : Layout}, objects.foldlM mergeObject layout = .ok layout' →
      (allSections objects).foldlM Linker.mergeSection (layout.regions, layout.placements.flatten) =
        .ok (layout'.regions, layout'.placements.flatten) ∧
      ∃ rows, layout'.placements = layout.placements ++ rows ∧
        rows.map List.length = objects.map fun object => object.sections.length := by
  induction objects with
  | nil =>
    intro layout layout' h
    cases h
    exact ⟨rfl, [], by simp, rfl⟩
  | cons object rest ih =>
    intro layout layout' h
    rw [List.foldlM_cons] at h
    obtain ⟨layout₁, hobject, hrest⟩ := Checked.bind_eq_ok.mp h
    unfold mergeObject at hobject
    obtain ⟨⟨regions, placed⟩, hsections, hobject⟩ := Checked.bind_eq_ok.mp hobject
    cases hobject
    obtain ⟨hfold, rows, hrows, hlengths⟩ := ih hrest
    have hlength : placed.length = object.sections.length := by
      rw [length_of_foldlM hsections, List.length_nil, Nat.zero_add]
    refine ⟨?_, placed :: rows, by rw [hrows, List.append_assoc]; rfl,
      by rw [List.map_cons, List.map_cons, hlengths, hlength]⟩
    have hfirst := foldlM_mergeSection_append layout.placements.flatten object.sections
      layout.regions []
    rw [List.append_nil, hsections] at hfirst
    unfold allSections at hfold ⊢
    rw [List.flatMap_cons, List.foldlM_append, hfirst]
    rw [List.flatten_append] at hfold
    simpa [Except.map] using hfold

theorem merged_nil (options : LinkOptions) :
    Merged (initRegions options) [] (initRegions options) [] where
  same := List.forall₂_same.mpr fun region _ => .refl region
  sound := by
    intro region hregion
    have hzero : region.size = 0 ∧ region.data = [] := by
      simp only [initRegions, List.mem_cons, List.not_mem_nil, or_false] at hregion
      rcases hregion with rfl | rfl | rfl | rfl <;> exact ⟨rfl, rfl⟩
    refine ⟨?_, fun _ => ?_, fun _ => hzero.2⟩
    · rw [hzero.1]
      exact Nat.zero_le _
    · rw [hzero.1, hzero.2]
      rfl
  placedAt := .nil
  before := .nil

/-- The invariant at the end of the loop. -/
theorem merged_of_mergeSections {options : LinkOptions} {objects : List ObjectFile}
    {layout : Layout} (h : mergeSections options objects = .ok layout) :
    Merged (initRegions options)
      (allSections objects) layout.regions layout.placements.flatten := by
  have hfold := (flatten_of_mergeObjects h).1
  exact (merged_nil options).foldlM hfold

/-- Every object has its row of placements, one for each of its sections. -/
theorem lengths_of_mergeSections {options : LinkOptions} {objects : List ObjectFile}
    {layout : Layout} (h : mergeSections options objects = .ok layout) :
    layout.placements.map List.length = objects.map fun object => object.sections.length := by
  obtain ⟨-, rows, hrows, hlengths⟩ := flatten_of_mergeObjects h
  rw [hrows]
  exact hlengths

/-- A loop over all rows, row by row. -/
theorem forall₂_of_flatten {α β : Type} {r : α → β → Prop} {xss : List (List α)} :
    ∀ {yss : List (List β)}, List.Forall₂ r xss.flatten yss.flatten →
      yss.map List.length = xss.map List.length → List.Forall₂ (List.Forall₂ r) xss yss := by
  induction xss with
  | nil =>
    intro yss _ hlengths
    rw [List.map_eq_nil_iff.mp hlengths]
    exact .nil
  | cons xs xss ih =>
    intro yss hall hlengths
    cases yss with
    | nil => cases hlengths
    | cons ys yss =>
      rw [List.map_cons, List.map_cons, List.cons.injEq] at hlengths
      rw [List.flatten_cons, List.flatten_cons] at hall
      have htake := List.forall₂_take xs.length hall
      have hdrop := List.forall₂_drop xs.length hall
      rw [List.take_left, List.take_left' hlengths.1] at htake
      rw [List.drop_left, List.drop_left' hlengths.1] at hdrop
      exact .cons htake (ih hdrop hlengths.2)

/-- What holds of all sections and their placements, object by object. -/
theorem rows_of_mergeSections {options : LinkOptions} {objects : List ObjectFile}
    {layout : Layout} (h : mergeSections options objects = .ok layout)
    {r : Section → Option Placement → Prop}
    (hall : List.Forall₂ r (allSections objects) layout.placements.flatten) :
    List.Forall₂ (fun object => List.Forall₂ r object.sections) objects layout.placements := by
  unfold allSections at hall
  rw [List.flatMap_def] at hall
  have hlengths := lengths_of_mergeSections h
  have hrows := forall₂_of_flatten hall (by rw [List.map_map]; exact hlengths)
  rwa [List.forall₂_map_left_iff] at hrows

/-- Every section of every object is where its placement says. -/
theorem placedAt_of_mergeSections {options : LinkOptions} {objects : List ObjectFile}
    {layout : Layout} (h : mergeSections options objects = .ok layout) :
    List.Forall₂ (fun object => List.Forall₂ (PlacedAt layout.regions) object.sections) objects
      layout.placements :=
  rows_of_mergeSections h (merged_of_mergeSections h).placedAt

/-! ### Alignment -/

/-- What divides the alignment of a section divides its place in the region. -/
def AlignedAt (input : Section) (found : Option Placement) : Prop :=
  ∀ placement, found = some placement → input.alignment ≠ 0 →
    ∀ n, n ∣ 2 ^ 64 → n ∣ input.alignment.toNat → n ∣ placement.offset.toNat

theorem alignedAt_alignUp (input : Section) (index : ℕ) (size : UInt64) :
    AlignedAt input (some ⟨index, alignUp size input.alignment⟩) := by
  intro placement heq hne n hn hdvd
  cases heq
  have hpos : input.alignment.toNat ≠ 0 := fun hzero => hne (UInt64.toNat_inj.mp hzero)
  by_cases hone : input.alignment.toNat = 1
  · rw [hone] at hdvd
    rw [Nat.dvd_one.mp hdvd]
    exact one_dvd _
  · exact dvd_alignUp hn hdvd (by omega)

/-- Merging some sections adds a placement for each. -/
theorem alignedAt_of_foldlM {inputs : List Section} :
    ∀ {state state' : List Region × List (Option Placement)},
      inputs.foldlM mergeSection state = .ok state' →
        ∃ more, state'.2 = state.2 ++ more ∧ List.Forall₂ AlignedAt inputs more := by
  induction inputs with
  | nil =>
    intro state state' h
    cases h
    exact ⟨[], (List.append_nil _).symm, .nil⟩
  | cons input inputs ih =>
    intro state state' h
    rw [List.foldlM_cons] at h
    obtain ⟨between, hone, hrest⟩ := Checked.bind_eq_ok.mp h
    obtain ⟨more, hmore, hall⟩ := ih hrest
    rcases mergeSection_cases hone with ⟨-, -, hplaced⟩ | ⟨-, index, region, -, -, -, -, -, hplaced⟩
    · refine ⟨none :: more, ?_, .cons (fun _ heq => nomatch heq) hall⟩
      rw [hmore, hplaced, List.append_assoc]
      rfl
    · refine ⟨_ :: more, ?_, .cons (alignedAt_alignUp input index region.size) hall⟩
      rw [hmore, hplaced, List.append_assoc]
      rfl

/-- Every section of every object is at a multiple of its alignment. -/
theorem alignedAt_of_mergeSections {options : LinkOptions} {objects : List ObjectFile}
    {layout : Layout} (h : mergeSections options objects = .ok layout) :
    List.Forall₂ (fun object => List.Forall₂ AlignedAt object.sections) objects
      layout.placements := by
  obtain ⟨more, hmore, hall⟩ := alignedAt_of_foldlM (flatten_of_mergeObjects h).1
  have hnone : layout.placements.flatten = more := hmore
  rw [← hnone] at hall
  exact rows_of_mergeSections h hall

/-- Merging takes no element from outside a list. -/
theorem mergeSections_ne_outOfRange (options : LinkOptions) (objects : List ObjectFile) :
    mergeSections options objects ≠ .error .outOfRange := by
  apply Checked.foldlM_ne_error
  intro layout object
  unfold mergeObject
  cases hfold : object.sections.foldlM Linker.mergeSection (layout.regions, []) with
  | error e =>
    intro h
    cases h
    exact Checked.foldlM_ne_error mergeSection_ne_outOfRange _ _ hfold
  | ok state => nofun

end Linker
end MiniTool
