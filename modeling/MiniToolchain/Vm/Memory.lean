import MiniToolchain.Common.Binary
import MiniToolchain.Lib.Window
import Mathlib.Data.List.Pairwise

/-!
# Virtual memory

A flat address space made of regions, each with a base, a size, permissions and bytes.  Regions do
not wrap around the address space and do not overlap; `addRegion` refuses one that would, so this is
a field of the memory.  Nothing bounds the memory of the host here.

## Main definitions

* `Permission`, `MemoryFault`, `Region`, `VirtualMemory`.
* `addRegion`, `regionAt`, `checkAccess`, and the accesses.
* `allocate` — the heap.

## Main results

* `regionAt_eq_some` — at most one region contains an address.
* `checkAccess_eq_ok` — when an access is allowed.
* `Change.shapes_eq`, `Change.one_region` — what a write changes.
-/

namespace MiniTool
namespace Vm

open ByteOrder Window

/-- A set of permissions. -/
abbrev Permission := UInt8

namespace Permission

abbrev none : Permission := 0
abbrev read : Permission := 1
abbrev write : Permission := 2
abbrev exec : Permission := 4

end Permission

def hasPermission (permissions wanted : Permission) : Bool := permissions &&& wanted = wanted

/-- Why a memory access failed. -/
inductive MemoryErrorKind
  | unmapped
  | readDenied
  | writeDenied
  | executeDenied
  /-- The access started inside a region but ran off its end. -/
  | crossesRegionEnd
  /-- The heap has no room left. -/
  | outOfMemory
  deriving DecidableEq, Repr

def kindName : MemoryErrorKind → String
  | .unmapped => "address is not mapped"
  | .readDenied => "region is not readable"
  | .writeDenied => "region is not writable"
  | .executeDenied => "region is not executable"
  | .crossesRegionEnd => "access runs past the end of its region"
  | .outOfMemory => "the heap is exhausted"

structure MemoryFault where
  kind : MemoryErrorKind := .unmapped
  address : UInt64 := 0
  size : UInt64 := 0
  deriving DecidableEq, Repr

def MemoryFault.describe (fault : MemoryFault) : String :=
  let kind := kindName fault.kind
  let address := Binary.hexText 16 fault.address.toNat
  let plural := if fault.size = 1 then "" else "s"
  s!"{kind} (address 0x{address}, {fault.size} byte{plural})"

/-- A region: `data` holds its bytes, by their offset. -/
structure Region where
  name : Str
  base : UInt64
  size : UInt64
  permissions : Permission
  data : ℕ → UInt8

namespace Region

/-- The first address after the region. -/
def stop (r : Region) : ℕ := r.base.toNat + r.size.toNat

/-- What a region is, whatever it holds. -/
def shape (r : Region) : Str × UInt64 × UInt64 × Permission :=
  (r.name, r.base, r.size, r.permissions)

def contains (r : Region) (address : UInt64) : Bool :=
  address ≥ r.base && address - r.base < r.size

def overwrite (r : Region) (offset : ℕ) (bytes : List UInt8) : Region :=
  { r with data := Window.overwrite r.data offset bytes }

/-- The region is not empty, and does not wrap around the address space. -/
def Bounded (r : Region) : Prop := 0 < r.size.toNat ∧ r.stop < 2 ^ 64

/-- The regions share no address. -/
def Disjoint (a b : Region) : Prop := a.stop ≤ b.base.toNat ∨ b.stop ≤ a.base.toNat

theorem contains_iff {r : Region} {address : UInt64} : r.contains address = true ↔
    r.base.toNat ≤ address.toNat ∧ address.toNat < r.stop := by
  have hbase := r.base.toNat_lt
  have haddress := address.toNat_lt
  rw [contains, Bool.and_eq_true, decide_eq_true_eq, decide_eq_true_eq, ge_iff_le,
    UInt64.le_iff_toNat_le, UInt64.lt_iff_toNat_lt, stop]
  constructor
  · rintro ⟨hle, hlt⟩
    rw [UInt64.toNat_sub_of_le _ _ (UInt64.le_iff_toNat_le.mpr hle)] at hlt
    omega
  · rintro ⟨hle, hlt⟩
    rw [UInt64.toNat_sub_of_le _ _ (UInt64.le_iff_toNat_le.mpr hle)]
    omega

end Region

/-- An address space, and where the next block of the heap starts. -/
structure VirtualMemory where
  regions : List Region
  heapNext : UInt64
  bounded : ∀ r ∈ regions, r.Bounded
  disjoint : regions.Pairwise Region.Disjoint

namespace VirtualMemory

/-- `reset()`, and the memory of a new machine. -/
def empty : VirtualMemory := ⟨[], 0, by simp, List.Pairwise.nil⟩

/-! ### Mapping -/

/-- The region wraps around the address space, or is empty. -/
def wraps (base size : UInt64) : Bool := size = 0 || base > 0xFFFFFFFFFFFFFFFF - size

def overlaps (r : Region) (base size : UInt64) : Bool :=
  base < r.base + r.size && r.base < base + size

theorem bounded_of_not_wraps {base size : UInt64} (h : wraps base size = false) :
    0 < size.toNat ∧ base.toNat + size.toNat < 2 ^ 64 := by
  have hbase := base.toNat_lt
  have hsize := size.toNat_lt
  simp only [wraps, Bool.or_eq_false_iff, decide_eq_false_iff_not] at h
  obtain ⟨hzero, hroom⟩ := h
  rw [gt_iff_lt, UInt64.lt_iff_toNat_lt, not_lt,
    UInt64.toNat_sub_of_le _ _ (UInt64.le_iff_toNat_le.mpr (by
      show size.toNat ≤ 2 ^ 64 - 1
      omega))] at hroom
  have hmax : (0xFFFFFFFFFFFFFFFF : UInt64).toNat = 2 ^ 64 - 1 := rfl
  have hpos : size.toNat ≠ 0 := fun h0 => hzero (UInt64.toNat_inj.mp h0)
  omega

theorem disjoint_of_not_overlaps {r : Region} {base size : UInt64} (hr : r.Bounded)
    (hwraps : wraps base size = false) (h : overlaps r base size = false) :
    r.stop ≤ base.toNat ∨ base.toNat + size.toNat ≤ r.base.toNat := by
  have hnew := (bounded_of_not_wraps hwraps).2
  have hold : r.base.toNat + r.size.toNat < 2 ^ 64 := hr.2
  simp only [overlaps, Bool.and_eq_false_iff, decide_eq_false_iff_not, UInt64.lt_iff_toNat_lt,
    UInt64.toNat_add, Nat.mod_eq_of_lt hnew, Nat.mod_eq_of_lt hold, not_lt] at h
  rcases h with h | h
  · exact Or.inl h
  · exact Or.inr h

/-- Maps `size` bytes at `base`, `initial` first and zeros after it; `none` if they would wrap
around the address space or overlap a region. -/
def addRegion (m : VirtualMemory) (name : Str) (base size : UInt64) (permissions : Permission)
    (initial : List UInt8) : Option VirtualMemory :=
  if hwraps : wraps base size = true then none
  else if hoverlaps : (m.regions.any fun r => overlaps r base size) = true then none
  else
    let copied := min initial.length size.toNat
    let region : Region :=
      { name, base, size, permissions,
        data := Window.overwrite (fun _ => 0) 0 (initial.take copied) }
    some {
      regions := m.regions ++ [region]
      heapNext := if name = str "heap" then base else m.heapNext
      bounded := by
        intro r hr
        rcases List.mem_append.mp hr with hr | hr
        · exact m.bounded r hr
        · rw [List.mem_singleton.mp hr]
          exact bounded_of_not_wraps (Bool.eq_false_iff.mpr hwraps)
      disjoint := by
        rw [List.pairwise_append]
        refine ⟨m.disjoint, List.pairwise_singleton _ _, fun a ha b hb => ?_⟩
        rw [List.mem_singleton.mp hb]
        rw [Bool.not_eq_true, List.any_eq_false] at hoverlaps
        exact disjoint_of_not_overlaps (m.bounded a ha) (Bool.eq_false_iff.mpr hwraps)
          (Bool.eq_false_iff.mpr (hoverlaps a ha)) }

/-- A region is added after the others, when it does not wrap and overlaps none of them. -/
theorem addRegion_eq_some {m m' : VirtualMemory} {name : Str} {base size : UInt64}
    {permissions : Permission} {initial : List UInt8}
    (h : m.addRegion name base size permissions initial = some m') :
    m'.regions = m.regions ++ [⟨name, base, size, permissions,
        Window.overwrite (fun _ => 0) 0 (initial.take (min initial.length size.toNat))⟩] ∧
      m'.heapNext = if name = str "heap" then base else m.heapNext := by
  unfold addRegion at h
  split at h
  · cases h
  · split at h
    · cases h
    · cases h
      exact ⟨rfl, rfl⟩

theorem exists_addRegion {m : VirtualMemory} {base size : UInt64} (name : Str)
    (permissions : Permission) (initial : List UInt8) (hwraps : wraps base size = false)
    (hoverlaps : ∀ r ∈ m.regions, overlaps r base size = false) :
    ∃ m', m.addRegion name base size permissions initial = some m' := by
  unfold addRegion
  rw [dif_neg (by simp [hwraps]), dif_neg]
  · exact ⟨_, rfl⟩
  · rw [List.any_eq_true]
    rintro ⟨r, hr, hover⟩
    rw [hoverlaps r hr] at hover
    cases hover

/-- The region containing an address. -/
def regionAt (m : VirtualMemory) (address : UInt64) : Option Region :=
  m.regions.find? fun r => r.contains address

/-! ### Accesses -/

/-- Validates an access of `size` bytes, at least one, against `needed`. -/
def checkAccess (m : VirtualMemory) (address size : UInt64) (needed : Permission) :
    Except MemoryFault Region :=
  match m.regionAt address with
  | none => .error { kind := .unmapped, address, size }
  | some region =>
    let offset := address - region.base
    if size > region.size - offset then .error { kind := .crossesRegionEnd, address, size }
    else if !hasPermission region.permissions needed then
      let kind : MemoryErrorKind :=
        if needed = Permission.write then .writeDenied
        else if needed = Permission.exec then .executeDenied
        else .readDenied
      .error { kind, address, size }
    else .ok region

/-- The bytes at the address of a checked access. -/
def bytesOf (region : Region) (address : UInt64) (count : ℕ) : List UInt8 :=
  window region.data (address - region.base).toNat count

def readByte (m : VirtualMemory) (address : UInt64) : Except MemoryFault UInt8 := do
  let region ← m.checkAccess address 1 Permission.read
  return region.data (address - region.base).toNat

def readU64 (m : VirtualMemory) (address : UInt64) : Except MemoryFault UInt64 := do
  let region ← m.checkAccess address 8 Permission.read
  return load 8 (bytesOf region address 8)

/-- Reads a word with execute permission rather than read permission. -/
def fetchInstruction (m : VirtualMemory) (address : UInt64) : Except MemoryFault UInt64 := do
  let region ← m.checkAccess address 8 Permission.exec
  return load 8 (bytesOf region address 8)

def readBytes (m : VirtualMemory) (address : UInt64) (count : ℕ) :
    Except MemoryFault (List UInt8) :=
  if count = 0 then .ok []
  else do
    let region ← m.checkAccess address (UInt64.ofNat count) Permission.read
    return bytesOf region address count

/-- The memory with other bytes in the region containing `address`. -/
def overwrite (m : VirtualMemory) (address : UInt64) (bytes : List UInt8) : VirtualMemory where
  regions := m.regions.map fun r =>
    if r.contains address then r.overwrite (address - r.base).toNat bytes else r
  heapNext := m.heapNext
  bounded := by
    intro r hr
    obtain ⟨r', hr', rfl⟩ := List.mem_map.mp hr
    split_ifs
    · exact m.bounded r' hr'
    · exact m.bounded r' hr'
  disjoint := by
    refine m.disjoint.map _ fun a b hab => ?_
    have hstop : ∀ r : Region,
      (if r.contains address then r.overwrite (address - r.base).toNat bytes
        else r).stop = r.stop := by
      intro r
      split_ifs <;> rfl
    have hbase : ∀ r : Region,
      (if r.contains address then r.overwrite (address - r.base).toNat bytes
        else r).base = r.base := by
      intro r
      split_ifs <;> rfl
    unfold Region.Disjoint
    rw [hstop, hstop, hbase, hbase]
    exact hab

def writeByte (m : VirtualMemory) (address : UInt64) (value : UInt8) :
    Except MemoryFault VirtualMemory := do
  let _ ← m.checkAccess address 1 Permission.write
  return m.overwrite address [value]

def writeU64 (m : VirtualMemory) (address value : UInt64) : Except MemoryFault VirtualMemory := do
  let _ ← m.checkAccess address 8 Permission.write
  return m.overwrite address (littleEndian 8 value)

def writeBytes (m : VirtualMemory) (address : UInt64) (data : List UInt8) :
    Except MemoryFault VirtualMemory :=
  if data = [] then .ok m
  else do
    let _ ← m.checkAccess address (UInt64.ofNat data.length) Permission.write
    return m.overwrite address data

/-! ### What an access needs -/

section

variable {m : VirtualMemory} {address size : UInt64}

/-- At most one region contains an address. -/
theorem index_unique {i j : ℕ} {a b : Region} (hi : m.regions[i]? = some a)
    (hj : m.regions[j]? = some b) (ha : a.contains address = true)
    (hb : b.contains address = true) : i = j := by
  rw [Region.contains_iff] at ha hb
  obtain ⟨hilt, rfl⟩ := List.getElem?_eq_some_iff.mp hi
  obtain ⟨hjlt, rfl⟩ := List.getElem?_eq_some_iff.mp hj
  have hapart : ∀ (k l : ℕ) (hk : k < m.regions.length) (hl : l < m.regions.length), k < l →
      m.regions[k].stop ≤ m.regions[l].base.toNat ∨ m.regions[l].stop ≤ m.regions[k].base.toNat :=
    fun k l hk hl hkl => List.pairwise_iff_getElem.mp m.disjoint k l hk hl hkl
  rcases Nat.lt_trichotomy i j with hij | hij | hij
  · have := hapart i j hilt hjlt hij
    omega
  · exact hij
  · have := hapart j i hjlt hilt hij
    omega

theorem eq_of_contains {a b : Region} (ha : a ∈ m.regions) (hb : b ∈ m.regions)
    (haddress : a.contains address = true) (hbddress : b.contains address = true) : a = b := by
  obtain ⟨i, hi⟩ := List.mem_iff_getElem?.mp ha
  obtain ⟨j, hj⟩ := List.mem_iff_getElem?.mp hb
  obtain rfl := index_unique hi hj haddress hbddress
  exact Option.some_inj.mp (hi.symm.trans hj)

theorem regionAt_eq_some {r : Region} :
    m.regionAt address = some r ↔ r ∈ m.regions ∧ r.contains address = true := by
  constructor
  · intro h
    exact ⟨List.mem_of_find?_eq_some h, by simpa using List.find?_some h⟩
  · rintro ⟨hr, haddress⟩
    cases hfind : m.regionAt address with
    | none => exact absurd haddress (by simpa using List.find?_eq_none.mp hfind r hr)
    | some r' =>
      have hr' := List.mem_of_find?_eq_some hfind
      have haddress' : r'.contains address = true := by simpa using List.find?_some hfind
      rw [eq_of_contains hr' hr haddress' haddress]

/-- An access is allowed when it lies in one region that grants the permission. -/
theorem checkAccess_eq_ok {needed : Permission} {r : Region} :
    m.checkAccess address size needed = .ok r ↔ r ∈ m.regions ∧ r.contains address = true ∧
      address.toNat + size.toNat ≤ r.stop ∧ hasPermission r.permissions needed = true := by
  have hroom : ∀ {r : Region}, r.contains address = true →
      (size > r.size - (address - r.base) ↔ ¬address.toNat + size.toNat ≤ r.stop) := by
    intro r haddress
    have hinside := Region.contains_iff.mp haddress
    unfold Region.stop at hinside ⊢
    have hoffset : (address - r.base).toNat = address.toNat - r.base.toNat :=
      UInt64.toNat_sub_of_le _ _ (UInt64.le_iff_toNat_le.mpr hinside.1)
    have hleft : (r.size - (address - r.base)).toNat = r.size.toNat - (address - r.base).toNat :=
      UInt64.toNat_sub_of_le _ _ (UInt64.le_iff_toNat_le.mpr (by omega))
    rw [gt_iff_lt, UInt64.lt_iff_toNat_lt, hleft, hoffset]
    omega
  unfold checkAccess
  cases hregion : m.regionAt address with
  | none =>
    constructor
    · intro h
      cases h
    · rintro ⟨hr, haddress, -⟩
      rw [regionAt_eq_some.mpr ⟨hr, haddress⟩] at hregion
      cases hregion
  | some found =>
    obtain ⟨hfound, haddress⟩ := regionAt_eq_some.mp hregion
    dsimp only
    constructor
    · intro h
      split_ifs at h with hfits hpermission
      cases h
      exact ⟨hfound, haddress, not_not.mp ((hroom haddress).not.mp hfits), by
        simpa using hpermission⟩
    · rintro ⟨hr, haddress', hfits, hpermission⟩
      obtain rfl := eq_of_contains hfound hr haddress haddress'
      rw [if_neg ((hroom haddress).not.mpr (not_not.mpr hfits)), if_neg (by simp [hpermission])]

end

/-! ### What a write changes -/

/-- The regions, whatever they hold. -/
def shapes (m : VirtualMemory) : List (Str × UInt64 × UInt64 × Permission) :=
  m.regions.map Region.shape

@[simp] theorem shapes_overwrite (m : VirtualMemory) (address : UInt64) (bytes : List UInt8) :
    (m.overwrite address bytes).shapes = m.shapes := by
  unfold shapes overwrite
  rw [List.map_map]
  apply List.map_congr_left
  intro r _
  rw [Function.comp_apply]
  split_ifs <;> rfl

theorem getElem?_overwrite (m : VirtualMemory) (address : UInt64) (bytes : List UInt8) (i : ℕ) :
    (m.overwrite address bytes).regions[i]? = (m.regions[i]?).map fun r =>
      if r.contains address then r.overwrite (address - r.base).toNat bytes else r := by
  unfold overwrite
  rw [List.getElem?_map]

/-- What an operation does to a memory: it writes into one writable region, or moves the heap. -/
inductive Change (m : VirtualMemory) : VirtualMemory → Prop
  | nothing : Change m m
  | write {r : Region} {address : UInt64} {bytes : List UInt8} (hr : r ∈ m.regions)
      (haddress : r.contains address = true) (hfits : address.toNat + bytes.length ≤ r.stop)
      (hwrite : hasPermission r.permissions Permission.write = true) :
      Change m (m.overwrite address bytes)
  | heap (next : UInt64) : Change m { m with heapNext := next }

theorem change_of_writeU64 {m m' : VirtualMemory} {address value : UInt64}
    (h : m.writeU64 address value = .ok m') : Change m m' := by
  obtain ⟨r, hcheck, h⟩ := Checked.bind_eq_ok.mp h
  cases h
  obtain ⟨hr, haddress, hfits, hwrite⟩ := checkAccess_eq_ok.mp hcheck
  exact .write hr haddress (by rw [length_littleEndian]; exact hfits) hwrite

theorem change_of_writeBytes {m m' : VirtualMemory} {address : UInt64} {data : List UInt8}
    (hlen : data.length < 2 ^ 64) (h : m.writeBytes address data = .ok m') : Change m m' := by
  unfold writeBytes at h
  split_ifs at h with hempty
  · cases h
    exact .nothing
  · obtain ⟨r, hcheck, h⟩ := Checked.bind_eq_ok.mp h
    cases h
    obtain ⟨hr, haddress, hfits, hwrite⟩ := checkAccess_eq_ok.mp hcheck
    rw [UInt64.toNat_ofNat', Nat.mod_eq_of_lt hlen] at hfits
    exact .write hr haddress hfits hwrite

theorem heapNext_of_writeU64 {m m' : VirtualMemory} {address value : UInt64}
    (h : m.writeU64 address value = .ok m') : m'.heapNext = m.heapNext := by
  obtain ⟨r, hcheck, h⟩ := Checked.bind_eq_ok.mp h
  cases h
  rfl

theorem heapNext_of_writeBytes {m m' : VirtualMemory} {address : UInt64} {data : List UInt8}
    (h : m.writeBytes address data = .ok m') : m'.heapNext = m.heapNext := by
  unfold writeBytes at h
  split_ifs at h with hempty
  · cases h
    rfl
  · obtain ⟨r, hcheck, h⟩ := Checked.bind_eq_ok.mp h
    cases h
    rfl

namespace Change

variable {m m' : VirtualMemory}

theorem shapes_eq (h : Change m m') : m'.shapes = m.shapes := by
  cases h with
  | nothing => rfl
  | write hr haddress hfits hwrite => exact shapes_overwrite m _ _
  | heap next => rfl

/-- A region that is not writable keeps its bytes. -/
theorem getElem?_of_not_writable (h : Change m m') {i : ℕ} {r : Region}
    (hr : m.regions[i]? = some r) (hwrite : hasPermission r.permissions Permission.write = false) :
    m'.regions[i]? = some r := by
  cases h with
  | nothing => exact hr
  | heap next => exact hr
  | @write r' address bytes hr' haddress hfits hwrite' =>
    rw [getElem?_overwrite, hr, Option.map_some]
    by_cases hcontains : r.contains address = true
    · rw [eq_of_contains (List.mem_of_getElem? hr) hr' hcontains haddress, hwrite'] at hwrite
      cases hwrite
    · rw [if_neg hcontains]

/-- Only bytes of one region change, and only inside of it. -/
theorem one_region (h : Change m m') : ∃ k, ∀ (i : ℕ) (r r' : Region) (offset : ℕ),
    m.regions[i]? = some r → m'.regions[i]? = some r' → r'.data offset ≠ r.data offset →
      i = k ∧ offset < r.size.toNat := by
  have hsame : m'.regions = m.regions → ∀ (i : ℕ) (r r' : Region) (offset : ℕ),
      m.regions[i]? = some r → m'.regions[i]? = some r' → r'.data offset = r.data offset := by
    intro heq i r r' offset hr hr'
    rw [heq, hr] at hr'
    cases hr'
    rfl
  cases h with
  | nothing =>
    exact ⟨0, fun i r r' offset hr hr' hne => absurd (hsame rfl i r r' offset hr hr') hne⟩
  | heap next =>
    exact ⟨0, fun i r r' offset hr hr' hne => absurd (hsame rfl i r r' offset hr hr') hne⟩
  | @write target address bytes htarget haddress hfits hwrite =>
    obtain ⟨k, hk⟩ := List.mem_iff_getElem?.mp htarget
    refine ⟨k, fun i r r' offset hr hr' hne => ?_⟩
    rw [getElem?_overwrite, hr, Option.map_some, Option.some.injEq] at hr'
    subst hr'
    by_cases hcontains : r.contains address = true
    · rw [if_pos hcontains] at hne
      obtain rfl := index_unique hr hk hcontains haddress
      obtain rfl := Option.some_inj.mp (hr.symm.trans hk)
      refine ⟨rfl, ?_⟩
      have hinside := Region.contains_iff.mp hcontains
      unfold Region.stop at hfits hinside
      have hoffset : (address - r.base).toNat = address.toNat - r.base.toNat :=
        UInt64.toNat_sub_of_le _ _ (UInt64.le_iff_toNat_le.mpr hinside.1)
      by_contra hge
      refine hne (overwrite_of_outside _ (Or.inr ?_))
      rw [hoffset]
      omega
    · rw [if_neg hcontains] at hne
      exact absurd rfl hne

end Change

/-! ### The heap -/

/-- Every block is a multiple of eight bytes. -/
def rounded (size : UInt64) : UInt64 := (size + 7) &&& ~~~7

/-- Bump-allocates from the region named `heap`. -/
def allocate (m : VirtualMemory) (size : UInt64) : Except MemoryFault UInt64 × VirtualMemory :=
  let failed : Except MemoryFault UInt64 × VirtualMemory :=
    (.error { kind := .outOfMemory, address := m.heapNext, size }, m)
  match m.regionAt m.heapNext with
  | none => failed
  | some heap =>
    if heap.name ≠ str "heap" then failed
    else if rounded size < size then failed
    else
      let stop := heap.base + heap.size
      if m.heapNext > stop - rounded size then failed
      else (.ok m.heapNext, { m with heapNext := m.heapNext + rounded size })

/-- An allocation that fails changes nothing; one that succeeds returns where the heap stood. -/
theorem allocate_cases (m : VirtualMemory) (size : UInt64) :
    m.allocate size = (.error { kind := .outOfMemory, address := m.heapNext, size }, m) ∨
      m.allocate size = (.ok m.heapNext, { m with heapNext := m.heapNext + rounded size }) := by
  unfold allocate
  dsimp only
  split
  · exact Or.inl rfl
  · split_ifs
    · exact Or.inl rfl
    · exact Or.inl rfl
    · exact Or.inl rfl
    · exact Or.inr rfl

theorem change_of_allocate (m : VirtualMemory) (size : UInt64) :
    Change m (m.allocate size).2 := by
  rcases allocate_cases m size with h | h
  · rw [h]
    exact .nothing
  · rw [h]
    exact .heap _

end VirtualMemory

end Vm
end MiniTool
