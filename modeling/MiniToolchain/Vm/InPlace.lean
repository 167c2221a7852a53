import MiniToolchain.Vm.Memory

/-!
# Writes in place

A write stores into the region it has found, one byte after another.  Here the memory is a state, as
it is after each of these stores, and what a write returns comes with the memory at that point: a
write that is refused half way would show.

## Main definitions

* `copyInto` — the stores of a write.
* `writeInPlace` — the check, and the stores behind it.
* `outcome` — a write that returns a memory, as one that returns with the memory after it.

## Main results

* `copyInto_eq` — inside a region the stores are one overwriting.
* `writeInPlace_eq` — a write that is refused has stored nothing, and any other has stored
  everything.
-/

namespace MiniTool
namespace Vm
namespace VirtualMemory

open ByteOrder

/-- A byte at a time, into the region that contains the address. -/
def copyInto (m : VirtualMemory) (address : UInt64) : List UInt8 → VirtualMemory
  | [] => m
  | byte :: rest => (m.overwrite address [byte]).copyInto (address + 1) rest

/-- The check of `size` bytes, and the stores behind it. -/
def writeInPlace (m : VirtualMemory) (address size : UInt64) (data : List UInt8) :
    Except MemoryFault Unit × VirtualMemory :=
  match m.checkAccess address size Permission.write with
  | .error fault => (.error fault, m)
  | .ok _ => (.ok (), m.copyInto address data)

def writeByteInPlace (m : VirtualMemory) (address : UInt64) (value : UInt8) :
    Except MemoryFault Unit × VirtualMemory :=
  m.writeInPlace address 1 [value]

def writeU64InPlace (m : VirtualMemory) (address value : UInt64) :
    Except MemoryFault Unit × VirtualMemory :=
  m.writeInPlace address 8 (littleEndian 8 value)

def writeBytesInPlace (m : VirtualMemory) (address : UInt64) (data : List UInt8) :
    Except MemoryFault Unit × VirtualMemory :=
  if data = [] then (.ok (), m)
  else m.writeInPlace address (UInt64.ofNat data.length) data

/-- What a write returns, and the memory after it. -/
def outcome (m : VirtualMemory) (written : Except MemoryFault VirtualMemory) :
    Except MemoryFault Unit × VirtualMemory :=
  match written with
  | .ok m' => (.ok (), m')
  | .error fault => (.error fault, m)

variable {m : VirtualMemory} {address size : UInt64}

theorem eq_of_regions {m m' : VirtualMemory} (hregions : m.regions = m'.regions)
    (hheap : m.heapNext = m'.heapNext) : m = m' := by
  cases m
  cases m'
  cases hregions
  cases hheap
  rfl

theorem overwrite_nil (m : VirtualMemory) (address : UInt64) : m.overwrite address [] = m := by
  refine eq_of_regions ?_ rfl
  have hsame : ∀ r : Region,
      (if r.contains address then r.overwrite (address - r.base).toNat [] else r) = r := by
    intro r
    unfold Region.overwrite
    rw [Window.overwrite_nil, ite_self]
  exact (List.map_congr_left fun r _ => hsame r).trans (List.map_id m.regions)

/-- The next byte is in the region, too, unless it is the last. -/
theorem contains_next {r : Region} (hr : r ∈ m.regions) (haddress : r.contains address = true)
    (hlt : address.toNat + 1 < r.stop) :
    (address + 1).toNat = address.toNat + 1 ∧ r.contains (address + 1) = true := by
  have hstop := (m.bounded r hr).2
  have hinside := Region.contains_iff.mp haddress
  have hnext : (address + 1).toNat = address.toNat + 1 := by
    rw [UInt64.toNat_add, UInt64.toNat_one, Nat.mod_eq_of_lt (by omega)]
  refine ⟨hnext, ?_⟩
  rw [Region.contains_iff, hnext]
  omega

/-- A store, and the stores behind it. -/
theorem overwrite_cons {r : Region} (hr : r ∈ m.regions) (haddress : r.contains address = true)
    {byte : UInt8} {rest : List UInt8} (hfits : address.toNat + (rest.length + 1) ≤ r.stop) :
    (m.overwrite address [byte]).overwrite (address + 1) rest = m.overwrite address
    (byte :: rest) := by
  cases rest with
  | nil => exact overwrite_nil _ _
  | cons next rest =>
    rw [List.length_cons] at hfits
    obtain ⟨hnext, hcontains⟩ := contains_next hr haddress (by omega)
    have hoffset : (address + 1 - r.base).toNat = (address - r.base).toNat + [byte].length := by
      have hbase : r.base.toNat ≤ address.toNat := (Region.contains_iff.mp haddress).1
      rw [UInt64.toNat_sub_of_le _ _ (UInt64.le_iff_toNat_le.mpr (by omega)),
        UInt64.toNat_sub_of_le _ _ (UInt64.le_iff_toNat_le.mpr hbase), hnext, List.length_singleton]
      omega
    refine eq_of_regions ?_ rfl
    show (m.regions.map _).map _ = m.regions.map _
    rw [List.map_map]
    refine List.map_congr_left fun a ha => ?_
    rw [Function.comp_apply]
    by_cases hsame : a = r
    · subst hsame
      have hfirst : (a.overwrite (address - a.base).toNat [byte]).contains (address + 1) = true :=
        hcontains
      rw [if_pos haddress, if_pos haddress, if_pos hfirst]
      show Region.overwrite (a.overwrite (address - a.base).toNat [byte])
        (address + 1 - a.base).toNat (next :: rest) = _
      rw [hoffset]
      unfold Region.overwrite
      rw [Window.overwrite_append]
      rfl
    · -- no other region contains either address
      have hnot : ∀ x : UInt64, r.contains x = true → ¬a.contains x = true :=
        fun x hx hax => hsame (eq_of_contains ha hr hax hx)
      rw [if_neg (hnot _ haddress), if_neg (hnot _ haddress), if_neg (hnot _ hcontains)]

/-- **Inside a region the stores are one overwriting.** -/
theorem copyInto_eq {r : Region} (hr : r ∈ m.regions) (haddress : r.contains address = true)
    {data : List UInt8} (hfits : address.toNat + data.length ≤ r.stop) :
    m.copyInto address data = m.overwrite address data := by
  induction data generalizing m r address with
  | nil => exact (overwrite_nil m address).symm
  | cons byte rest ih =>
    unfold copyInto
    rw [← overwrite_cons hr haddress hfits]
    cases rest with
    | nil => exact (overwrite_nil _ _).symm
    | cons next rest =>
      rw [List.length_cons, List.length_cons] at hfits
      obtain ⟨hnext, hcontains⟩ := contains_next hr haddress (by omega)
      have hmem : r.overwrite (address - r.base).toNat [byte] ∈
          (m.overwrite address [byte]).regions :=
        List.mem_map.mpr ⟨r, hr, if_pos haddress⟩
      refine ih hmem hcontains ?_
      rw [hnext, List.length_cons]
      show _ ≤ r.stop
      omega

/-- **A write that is refused has stored nothing, and any other has stored everything.** -/
theorem writeInPlace_eq {data : List UInt8} (hsize : size.toNat = data.length) :
    m.writeInPlace address size data = m.outcome (do
      let _ ← m.checkAccess address size Permission.write
      return m.overwrite address data) := by
  unfold writeInPlace
  cases hcheck : m.checkAccess address size Permission.write with
  | error fault => rfl
  | ok r =>
    obtain ⟨hr, haddress, hfits, -⟩ := checkAccess_eq_ok.mp hcheck
    rw [hsize] at hfits
    dsimp only
    rw [copyInto_eq hr haddress hfits]
    rfl

theorem writeByteInPlace_eq (m : VirtualMemory) (address : UInt64) (value : UInt8) :
    m.writeByteInPlace address value = m.outcome (m.writeByte address value) :=
  writeInPlace_eq rfl

theorem writeU64InPlace_eq (m : VirtualMemory) (address value : UInt64) :
    m.writeU64InPlace address value = m.outcome (m.writeU64 address value) :=
  writeInPlace_eq (length_littleEndian 8 value).symm

theorem writeBytesInPlace_eq (m : VirtualMemory) (address : UInt64) {data : List UInt8}
    (hsize : data.length < 2 ^ 64) :
    m.writeBytesInPlace address data = m.outcome (m.writeBytes address data) := by
  unfold writeBytesInPlace writeBytes
  split_ifs
  · rfl
  · exact writeInPlace_eq (by rw [UInt64.toNat_ofNat', Nat.mod_eq_of_lt hsize])

end VirtualMemory
end Vm
end MiniTool
