import Mathlib.Data.List.Basic
import Mathlib.Data.List.GetD
import Mathlib.Logic.Relation
import Mathlib.Order.Lattice.Nat
import Mathlib.Tactic.SplitIfs

/-!
# One-bit backward liveness

A value is live at a point of a flow graph when some path from there comes to a use of it before a
definition of it.  This module states that as a property of paths, and proves that the usual
backward sweep over the nodes of a graph, repeated until nothing changes, computes it.

## Main definitions

* `UseFirst` — some path from a point comes to a use before a definition.
* `Graph`, `Graph.Live` — nodes with their uses, definitions and successors; liveness of a node.
* `State`, `visit`, `sweep`, `solve` — the sweep and its iteration.

## Main results

* `solve_liveOut` — the sweeps end, and then a node's bit says whether something after it is live.
-/

namespace Liveness

/-! ### Paths -/

section Paths

variable {α : Type} (next : α → α → Prop) (defines uses : α → Prop)

/-- Some path from `a` comes to a use with no definition before it. -/
def UseFirst (a : α) : Prop :=
  ∃ b, Relation.ReflTransGen (fun x y => ¬defines x ∧ next x y) a b ∧ uses b

variable {next defines uses}

theorem UseFirst.here {a : α} (h : uses a) : UseFirst next defines uses a :=
  ⟨a, Relation.ReflTransGen.refl, h⟩

theorem UseFirst.step {a b : α} (hd : ¬defines a) (hn : next a b)
    (h : UseFirst next defines uses b) : UseFirst next defines uses a := by
  obtain ⟨c, hbc, hc⟩ := h
  exact ⟨c, Relation.ReflTransGen.head ⟨hd, hn⟩ hbc, hc⟩

/-- Induction on the path to the use. -/
theorem UseFirst.induction {P : α → Prop} (huse : ∀ a, uses a → P a)
    (hstep : ∀ a b, ¬defines a → next a b → P b → P a) {a : α}
    (h : UseFirst next defines uses a) : P a := by
  obtain ⟨c, hac, hc⟩ := h
  induction hac using Relation.ReflTransGen.head_induction_on with
  | refl => exact huse c hc
  | head hab _ ih => exact hstep _ _ hab.1 hab.2 ih

end Paths

/-! ### Graphs -/

/-- A flow graph whose nodes are the numbers below `size`. -/
structure Graph where
  size : ℕ
  /-- The node uses the value before it defines it. -/
  gen : ℕ → Bool
  /-- The node defines the value. -/
  kill : ℕ → Bool
  /-- Control can leave the node for somewhere that is not known. -/
  unknown : ℕ → Bool
  succ : ℕ → List ℕ
  /-- What is assumed of a successor that is not a node. -/
  outside : Bool

namespace Graph

variable (g : Graph)

/-- The least solution of the liveness equations. -/
inductive Live : ℕ → Prop
  | gen {i} : i < g.size → g.gen i = true → Live i
  | outside {i} : g.size ≤ i → g.outside = true → Live i
  | unknown {i} : i < g.size → g.kill i = false → g.unknown i = true → Live i
  | succ {i j} : i < g.size → g.kill i = false → j ∈ g.succ i → Live j → Live i

/-- Something reached from the end of node `i` is live. -/
def LiveAfter (i : ℕ) : Prop := g.unknown i = true ∨ ∃ j ∈ g.succ i, g.Live j

/-! ### The sweep -/

/-- What is known of each node, and whether the current sweep changed it. -/
structure State where
  liveIn : List Bool
  liveOut : List Bool
  changed : Bool := false
  deriving DecidableEq

/-- The end of node `i`, given what is known of its successors. -/
def transferOut (liveIn : List Bool) (i : ℕ) : Bool :=
  g.unknown i || (g.succ i).any fun j => liveIn.getD j g.outside

def transferIn (liveIn : List Bool) (i : ℕ) : Bool :=
  g.gen i || (g.transferOut liveIn i && !g.kill i)

/-- Recomputes node `i`. -/
def visit (s : State) (i : ℕ) : State where
  liveOut := s.liveOut.set i (g.transferOut s.liveIn i)
  liveIn := s.liveIn.set i (g.transferIn s.liveIn i)
  changed := s.changed || g.transferOut s.liveIn i != s.liveOut.getD i g.outside ||
    g.transferIn s.liveIn i != s.liveIn.getD i g.outside

/-- Recomputes every node, the last one first. -/
def sweep (s : State) : State :=
  (List.range g.size).reverse.foldl g.visit { s with changed := false }

/-- Sweeps until nothing changes. -/
def solve : ℕ → State → State
  | 0, s => s
  | fuel + 1, s =>
    let s' := g.sweep s
    if s'.changed then solve fuel s' else s'

/-- Where the sweeps begin: nothing is known but the uses of each node. -/
def initial : State where
  liveIn := (List.range g.size).map g.gen
  liveOut := List.replicate g.size true

/-! ### What a visit keeps -/

theorem getD_set {l : List Bool} {i : ℕ} (hi : i < l.length) (v d : Bool) (j : ℕ) :
    (l.set i v).getD j d = if j = i then v else l.getD j d := by
  simp only [List.getD_eq_getElem?_getD, List.getElem?_set]
  by_cases hji : j = i
  · subst hji
    simp [hi]
  · rw [if_neg hji, if_neg (fun h => hji h.symm)]

/-- `a` knows no more than `b`. -/
def Le (a b : List Bool) : Prop := ∀ i, a.getD i g.outside = true → b.getD i g.outside = true

variable {g}

theorem transferOut_mono {a b : List Bool} (h : g.Le a b) {i : ℕ}
    (ha : g.transferOut a i = true) : g.transferOut b i = true := by
  unfold transferOut at ha ⊢
  rw [Bool.or_eq_true, List.any_eq_true] at ha ⊢
  rcases ha with hu | ⟨j, hj, hlive⟩
  · exact Or.inl hu
  · exact Or.inr ⟨j, hj, h j hlive⟩

theorem transferIn_mono {a b : List Bool} (h : g.Le a b) {i : ℕ}
    (ha : g.transferIn a i = true) : g.transferIn b i = true := by
  unfold transferIn at ha ⊢
  rw [Bool.or_eq_true, Bool.and_eq_true] at ha ⊢
  rcases ha with hg | ⟨ho, hk⟩
  · exact Or.inl hg
  · exact Or.inr ⟨transferOut_mono h ho, hk⟩

/-- What the sweeps keep true: nothing is known live that is not, and recomputing a node never
forgets that it is live. -/
structure Valid (s : State) : Prop where
  lengthIn : s.liveIn.length = g.size
  lengthOut : s.liveOut.length = g.size
  live : ∀ i, s.liveIn.getD i g.outside = true → g.Live i
  grows : ∀ i < g.size, s.liveIn.getD i g.outside = true → g.transferIn s.liveIn i = true

/-- The bit of the end of node `i` is no more than its successors justify. -/
def OutJustified (s : State) (i : ℕ) : Prop :=
  s.liveOut.getD i g.outside = true → g.transferOut s.liveIn i = true

theorem LiveAfter.of_transferOut {l : List Bool} (hl : ∀ j, l.getD j g.outside = true → g.Live j)
    {i : ℕ} (h : g.transferOut l i = true) : g.LiveAfter i := by
  unfold transferOut at h
  rw [Bool.or_eq_true, List.any_eq_true] at h
  rcases h with hu | ⟨j, hj, hlive⟩
  · exact Or.inl hu
  · exact Or.inr ⟨j, hj, hl j hlive⟩

theorem LiveAfter.live {i : ℕ} (hi : i < g.size) (hk : g.kill i = false) (h : g.LiveAfter i) :
    g.Live i := by
  rcases h with hu | ⟨j, hj, hlive⟩
  · exact Live.unknown hi hk hu
  · exact Live.succ hi hk hj hlive

theorem Live.of_transferIn {l : List Bool} (hl : ∀ j, l.getD j g.outside = true → g.Live j)
    {i : ℕ} (hi : i < g.size) (h : g.transferIn l i = true) : g.Live i := by
  unfold transferIn at h
  rw [Bool.or_eq_true, Bool.and_eq_true] at h
  rcases h with hg | ⟨ho, hk⟩
  · exact Live.gen hi hg
  · exact (LiveAfter.of_transferOut hl ho).live hi (by simpa using hk)

section Visit

variable {s : State} {i : ℕ} (hs : g.Valid s) (hi : i < g.size)
include hs hi

theorem Valid.visit_liveIn (j : ℕ) : (g.visit s i).liveIn.getD j g.outside =
    if j = i then g.transferIn s.liveIn i else s.liveIn.getD j g.outside :=
  getD_set (by rw [hs.lengthIn]; exact hi) _ _ _

theorem Valid.visit_liveOut (j : ℕ) : (g.visit s i).liveOut.getD j g.outside =
    if j = i then g.transferOut s.liveIn i else s.liveOut.getD j g.outside :=
  getD_set (by rw [hs.lengthOut]; exact hi) _ _ _

theorem Valid.le_visit : g.Le s.liveIn (g.visit s i).liveIn := by
  intro j hj
  rw [hs.visit_liveIn hi]
  split_ifs with hji
  · subst hji
    exact hs.grows j hi hj
  · exact hj

theorem Valid.visit : g.Valid (g.visit s i) where
  lengthIn := by simp [Graph.visit, hs.lengthIn]
  lengthOut := by simp [Graph.visit, hs.lengthOut]
  live := by
    intro j hj
    rw [hs.visit_liveIn hi] at hj
    split_ifs at hj with hji
    · subst hji
      exact Live.of_transferIn hs.live hi hj
    · exact hs.live j hj
  grows := by
    intro j hjsize hj
    rw [hs.visit_liveIn hi] at hj
    apply transferIn_mono (hs.le_visit hi)
    split_ifs at hj with hji
    · subst hji
      exact hj
    · exact hs.grows j hjsize hj

theorem Valid.visit_outJustified : g.OutJustified (g.visit s i) i := by
  intro hout
  rw [hs.visit_liveOut hi, if_pos rfl] at hout
  exact transferOut_mono (hs.le_visit hi) hout

theorem OutJustified.visit {j : ℕ} (hj : g.OutJustified s j) : g.OutJustified (g.visit s i) j := by
  intro hout
  rw [hs.visit_liveOut hi] at hout
  apply transferOut_mono (hs.le_visit hi)
  split_ifs at hout with hji
  · subst hji
    exact hout
  · exact hj hout

end Visit

/-! ### What a sweep keeps -/

/-- Several visits, one after another. -/
theorem Valid.foldl_visit {nodes : List ℕ} (hnodes : ∀ i ∈ nodes, i < g.size) {s : State}
    (hs : g.Valid s) :
    g.Valid (nodes.foldl g.visit s) ∧
      ∀ j, j ∈ nodes ∨ g.OutJustified s j → g.OutJustified (nodes.foldl g.visit s) j := by
  induction nodes generalizing s with
  | nil => exact ⟨hs, fun j hj => by simpa using hj⟩
  | cons i nodes ih =>
    have hi : i < g.size := hnodes i List.mem_cons_self
    obtain ⟨hvalid, hout⟩ := ih (fun j hj => hnodes j (List.mem_cons_of_mem i hj)) (hs.visit hi)
    refine ⟨hvalid, fun j hj => hout j ?_⟩
    rcases hj with hmem | hj
    · rcases List.mem_cons.mp hmem with rfl | hmem
      · exact Or.inr (hs.visit_outJustified hi)
      · exact Or.inl hmem
    · exact Or.inr (hj.visit hs hi)

theorem mem_sweep_order {g : Graph} {i : ℕ} : i ∈ (List.range g.size).reverse ↔ i < g.size := by
  rw [List.mem_reverse, List.mem_range]

theorem Valid.sweep {s : State} (hs : g.Valid s) : g.Valid (g.sweep s) := by
  have hs' : g.Valid { s with changed := false } := ⟨hs.1, hs.2, hs.3, hs.4⟩
  exact (hs'.foldl_visit fun i hi => mem_sweep_order.mp hi).1

/-- After a sweep every end of a node is justified. -/
theorem Valid.sweep_outJustified {s : State} (hs : g.Valid s) {i : ℕ} (hi : i < g.size) :
    g.OutJustified (g.sweep s) i := by
  have hs' : g.Valid { s with changed := false } := ⟨hs.1, hs.2, hs.3, hs.4⟩
  exact (hs'.foldl_visit fun i hi => mem_sweep_order.mp hi).2 i (Or.inl (mem_sweep_order.mpr hi))

theorem visit_changed {s : State} {i : ℕ} (h : (g.visit s i).changed = false) :
    s.changed = false ∧ g.transferOut s.liveIn i = s.liveOut.getD i g.outside ∧
      g.transferIn s.liveIn i = s.liveIn.getD i g.outside := by
  simpa [visit, and_assoc] using h

/-- Node `i` is what recomputing it gives. -/
def Settled (s : State) (i : ℕ) : Prop :=
  g.transferOut s.liveIn i = s.liveOut.getD i g.outside ∧
    g.transferIn s.liveIn i = s.liveIn.getD i g.outside

theorem set_getD_self {l : List Bool} {i : ℕ} (hi : i < l.length) (d : Bool) :
    l.set i (l.getD i d) = l := by
  rw [List.getD_eq_getElem _ _ hi, List.set_getElem_self]

/-- A visit that changes nothing leaves the state as it was. -/
theorem visit_of_unchanged {s : State} (hs : g.Valid s) {i : ℕ} (hi : i < g.size)
    (h : (g.visit s i).changed = false) : g.visit s i = s := by
  obtain ⟨hchanged, hout, hin⟩ := visit_changed h
  have hlistIn : (g.visit s i).liveIn = s.liveIn := by
    rw [visit, hin, set_getD_self (by rw [hs.lengthIn]; exact hi)]
  have hlistOut : (g.visit s i).liveOut = s.liveOut := by
    rw [visit, hout, set_getD_self (by rw [hs.lengthOut]; exact hi)]
  cases hv : g.visit s i with
  | mk liveIn liveOut changed =>
    rw [hv] at h hlistIn hlistOut
    cases s
    simp_all

/-- Visits that change nothing leave the state as it was, and every node visited is settled. -/
theorem foldl_visit_of_unchanged {nodes : List ℕ} (hnodes : ∀ i ∈ nodes, i < g.size) {s : State}
    (hs : g.Valid s) (h : (nodes.foldl g.visit s).changed = false) :
    nodes.foldl g.visit s = s ∧ ∀ i ∈ nodes, g.Settled s i := by
  induction nodes generalizing s with
  | nil => exact ⟨rfl, fun i hi => absurd hi (List.not_mem_nil)⟩
  | cons i nodes ih =>
    have hi : i < g.size := hnodes i List.mem_cons_self
    have hrest := ih (fun j hj => hnodes j (List.mem_cons_of_mem i hj)) (hs.visit hi) h
    have hvisit : (g.visit s i).changed = false := by
      have := congrArg State.changed hrest.1
      exact this.symm.trans h
    have hsame := visit_of_unchanged hs hi hvisit
    rw [hsame] at hrest
    refine ⟨by rw [List.foldl_cons, hsame]; exact hrest.1, ?_⟩
    intro j hj
    rcases List.mem_cons.mp hj with rfl | hj
    · exact (visit_changed hvisit).2
    · exact hrest.2 j hj

theorem settled_of_unchanged {s : State} (hs : g.Valid s) (h : (g.sweep s).changed = false)
    {i : ℕ} (hi : i < g.size) : g.Settled (g.sweep s) i := by
  have hs' : g.Valid { s with changed := false } := ⟨hs.1, hs.2, hs.3, hs.4⟩
  obtain ⟨hsame, hsettled⟩ := foldl_visit_of_unchanged (fun i hi => mem_sweep_order.mp hi) hs' h
  have : g.sweep s = { s with changed := false } := hsame
  rw [this]
  exact hsettled i (mem_sweep_order.mpr hi)

/-! ### The sweeps end -/

/-- How much is known. -/
def weight (s : State) : ℕ := s.liveIn.count true + s.liveOut.count true

/-- Setting an entry that stays true if it was adds to the count, unless nothing changes. -/
theorem count_set {l : List Bool} {i : ℕ} (hi : i < l.length) {v d : Bool}
    (hv : l.getD i d = true → v = true) :
    (l.set i v).count true = l.count true + if v = l.getD i d then 0 else 1 := by
  rw [List.getD_eq_getElem _ _ hi] at hv ⊢
  rw [List.count_set hi]
  cases hold : l[i] with
  | false => cases v <;> simp
  | true =>
    have hmem : true ∈ l := hold ▸ List.getElem_mem hi
    have hpos : 0 < l.count true := List.count_pos_iff.mpr hmem
    rw [hv hold]
    simp
    omega

theorem weight_visit {s : State} (hs : g.Valid s) {i : ℕ} (hi : i < g.size)
    (hout : g.OutJustified s i) :
    weight s ≤ weight (g.visit s i) ∧
      ((g.visit s i).changed = true → s.changed = true ∨ weight s < weight (g.visit s i)) := by
  have hin := count_set (l := s.liveIn) (by rw [hs.lengthIn]; exact hi) (hs.grows i hi)
  have hout := count_set (l := s.liveOut) (by rw [hs.lengthOut]; exact hi) hout
  unfold weight visit
  dsimp only
  rw [hin, hout]
  constructor
  · omega
  · intro hchanged
    by_cases ho : g.transferOut s.liveIn i = s.liveOut.getD i g.outside
    · by_cases hi' : g.transferIn s.liveIn i = s.liveIn.getD i g.outside
      · left
        simpa [ho, hi'] using hchanged
      · right
        rw [if_neg hi']
        omega
    · right
      rw [if_neg ho]
      omega

theorem weight_foldl_visit {nodes : List ℕ} (hnodes : ∀ i ∈ nodes, i < g.size) {s : State}
    (hs : g.Valid s) (hout : ∀ i < g.size, g.OutJustified s i) :
    weight s ≤ weight (nodes.foldl g.visit s) ∧ ((nodes.foldl g.visit s).changed = true →
      s.changed = true ∨ weight s < weight (nodes.foldl g.visit s)) := by
  induction nodes generalizing s with
  | nil => exact ⟨le_rfl, fun h => Or.inl h⟩
  | cons i nodes ih =>
    have hi : i < g.size := hnodes i List.mem_cons_self
    obtain ⟨hle, hlt⟩ := weight_visit hs hi (hout i hi)
    obtain ⟨hle', hlt'⟩ := ih (fun j hj => hnodes j (List.mem_cons_of_mem i hj)) (hs.visit hi)
      (fun j hj => (hout j hj).visit hs hi)
    refine ⟨hle.trans hle', fun hchanged => ?_⟩
    rcases hlt' hchanged with hvisit | hgrown
    · rcases hlt hvisit with hold | hgrown
      · exact Or.inl hold
      · exact Or.inr (hgrown.trans_le hle')
    · exact Or.inr (hle.trans_lt hgrown)

/-- A sweep that changes something learns something. -/
theorem weight_sweep {s : State} (hs : g.Valid s) (hout : ∀ i < g.size, g.OutJustified s i)
    (h : (g.sweep s).changed = true) : weight s < weight (g.sweep s) := by
  have hs' : g.Valid { s with changed := false } := ⟨hs.1, hs.2, hs.3, hs.4⟩
  rcases (weight_foldl_visit (fun i hi => mem_sweep_order.mp hi) hs' hout).2 h with hfalse | hlt
  · exact absurd hfalse (by simp)
  · exact hlt

theorem weight_le {s : State} (hs : g.Valid s) : weight s ≤ 2 * g.size := by
  have hin := List.count_le_length (a := true) (l := s.liveIn)
  have hout := List.count_le_length (a := true) (l := s.liveOut)
  rw [hs.lengthIn] at hin
  rw [hs.lengthOut] at hout
  unfold weight
  omega

theorem Valid.solve {s : State} (hs : g.Valid s) (fuel : ℕ) : g.Valid (g.solve fuel s) := by
  induction fuel generalizing s with
  | zero => exact hs
  | succ fuel ih =>
    unfold Graph.solve
    dsimp only
    split_ifs
    · exact ih hs.sweep
    · exact hs.sweep

/-- Once every end of a node is justified, each further sweep that changes something adds to what is
known, so there are at most twice as many as nodes. -/
theorem solve_settled_of_justified {s : State} (hs : g.Valid s)
    (hout : ∀ i < g.size, g.OutJustified s i) {fuel : ℕ} (hfuel : 2 * g.size < fuel + weight s) :
    ∀ i < g.size, g.Settled (g.solve fuel s) i := by
  induction fuel generalizing s with
  | zero =>
    have := weight_le hs
    omega
  | succ fuel ih =>
    intro i hi
    unfold solve
    dsimp only
    by_cases hchanged : (g.sweep s).changed = true
    · rw [if_pos hchanged]
      have hlt := weight_sweep hs hout hchanged
      exact ih hs.sweep (fun j hj => hs.sweep_outJustified hj) (by omega) i hi
    · rw [if_neg hchanged]
      exact settled_of_unchanged hs (by simpa using hchanged) hi

/-- Enough sweeps for any graph of this size. -/
def enough (g : Graph) : ℕ := 2 * g.size + 2

theorem solve_settled {s : State} (hs : g.Valid s) :
    ∀ i < g.size, g.Settled (g.solve g.enough s) i := by
  intro i hi
  unfold enough solve
  dsimp only
  by_cases hchanged : (g.sweep s).changed = true
  · rw [if_pos hchanged]
    exact solve_settled_of_justified hs.sweep (fun j hj => hs.sweep_outJustified hj) (by omega) i hi
  · rw [if_neg hchanged]
    exact settled_of_unchanged hs (by simpa using hchanged) hi

/-! ### The result -/

theorem valid_initial (g : Graph) : g.Valid g.initial := by
  have hget : ∀ i, g.initial.liveIn.getD i g.outside =
      if i < g.size then g.gen i else g.outside := by
    intro i
    by_cases hi : i < g.size
    · simp [initial, List.getD_eq_getElem?_getD, hi]
    · simp [initial, List.getD_eq_getElem?_getD, hi]
  refine ⟨by simp [initial], by simp [initial], fun i hi => ?_, fun i hi hgen => ?_⟩
  · rw [hget] at hi
    split_ifs at hi with hsize
    · exact Live.gen hsize hi
    · exact Live.outside (Nat.le_of_not_lt hsize) hi
  · rw [hget, if_pos hi] at hgen
    simp [transferIn, hgen]

/-- A settled state knows everything that is live. -/
theorem Live.known {s : State} (hs : g.Valid s) (h : ∀ i < g.size, g.Settled s i) {i : ℕ}
    (hlive : g.Live i) : s.liveIn.getD i g.outside = true := by
  induction hlive with
  | gen hi hgen =>
    rw [← (h _ hi).2]
    simp [transferIn, hgen]
  | outside hi houtside =>
    rw [List.getD_eq_default _ _ (by rw [hs.lengthIn]; exact hi)]
    exact houtside
  | unknown hi hk hu =>
    rw [← (h _ hi).2]
    simp [transferIn, transferOut, hk, hu]
  | @succ i j hi hk hj _ ih =>
    rw [← (h _ hi).2]
    have hout : g.transferOut s.liveIn i = true := by
      unfold transferOut
      rw [Bool.or_eq_true, List.any_eq_true]
      exact Or.inr ⟨j, hj, ih⟩
    simp [transferIn, hk, hout]

/-- **The sweeps compute liveness.** -/
theorem solve_liveOut {i : ℕ} (hi : i < g.size) :
    (g.solve g.enough g.initial).liveOut.getD i g.outside = true ↔ g.LiveAfter i := by
  have hvalid := (valid_initial g).solve g.enough
  have hsettled := solve_settled (valid_initial g)
  rw [← (hsettled i hi).1]
  constructor
  · exact LiveAfter.of_transferOut hvalid.live
  · intro h
    unfold transferOut
    rw [Bool.or_eq_true, List.any_eq_true]
    rcases h with hu | ⟨j, hj, hlive⟩
    · exact Or.inl hu
    · exact Or.inr ⟨j, hj, hlive.known hvalid hsettled⟩

/-- What is assumed of other successors does not count where there are none. -/
theorem Live.of_inside {oob : Bool} (h : ∀ i < g.size, ∀ j ∈ g.succ i, j < g.size) {i : ℕ}
    (hi : i < g.size) (hlive : g.Live i) : ({ g with outside := oob } : Graph).Live i := by
  induction hlive with
  | gen hsize hgen => exact .gen hsize hgen
  | outside hsize _ => exact absurd hi (Nat.not_lt.mpr hsize)
  | unknown hsize hkill hunknown => exact .unknown hsize hkill hunknown
  | succ hsize hkill hmem _ ih => exact .succ hsize hkill hmem (ih (h _ hsize _ hmem))

theorem LiveAfter.of_inside {oob : Bool} (h : ∀ i < g.size, ∀ j ∈ g.succ i, j < g.size) {i : ℕ}
    (hi : i < g.size)
    (hlive : g.LiveAfter i) : ({ g with outside := oob } : Graph).LiveAfter i := by
  rcases hlive with hunknown | ⟨j, hj, hlive⟩
  · exact Or.inl hunknown
  · exact Or.inr ⟨j, hj, hlive.of_inside h (h i hi j hj)⟩

end Graph

end Liveness
