import MiniToolchain.Vm.ReadWrite
import Mathlib.Data.Set.Basic

/-!
# Memories that differ in some bytes

Two memories with the same regions that hold different bytes at some addresses.  An access fails on
both or on neither, a read tells them apart exactly when it covers such an address, and a write
makes them agree on what it covers.

## Main definitions

* `DifferAt` — the addresses at which two memories differ.

## Main results

* `DifferAt.readBytes_cases`, `DifferAt.readU64_cases` — reads.
* `DifferAt.writeBytes_cases`, `DifferAt.writeU64_cases` — writes.
-/

namespace MiniTool
namespace Vm
namespace VirtualMemory

open ByteOrder

/-- The memories differ at these addresses, and nowhere else. -/
structure DifferAt (stale : Set UInt64) (m m' : VirtualMemory) : Prop where
  shapes : m.shapes = m'.shapes
  heapNext : m.heapNext = m'.heapNext
  bytes : ∀ x, x ∈ stale ↔ m.byteAt x ≠ m'.byteAt x

/-- The addresses that an access does not cover. -/
def uncovered (stale : Set UInt64) (address : UInt64) (size : ℕ) : Set UInt64 :=
  {x | x ∈ stale ∧ ¬InRange address size x}

/-! ### Accesses -/

/-- Which region contains an address does not depend on the bytes. -/
theorem shape_regionAt (m : VirtualMemory) (x : UInt64) : (m.regionAt x).map Region.shape =
    m.shapes.find? fun s => x ≥ s.2.1 && x - s.2.1 < s.2.2.1 := by
  unfold shapes
  rw [List.find?_map]
  rfl

/-- Nor does whether an access is allowed. -/
theorem checkAccess_of_shapes {m m' : VirtualMemory} (h : m.shapes = m'.shapes)
    (address size : UInt64) (needed : Permission) :
    (∃ fault, m.checkAccess address size needed = .error fault ∧
        m'.checkAccess address size needed = .error fault) ∨
      ∃ r r', m.checkAccess address size needed = .ok r ∧
        m'.checkAccess address size needed = .ok r' := by
  have hregion := shape_regionAt m address
  rw [h, ← shape_regionAt m' address] at hregion
  unfold checkAccess
  cases hat : m.regionAt address with
  | none =>
    rw [hat] at hregion
    rw [Option.map_eq_none_iff.mp hregion.symm]
    exact Or.inl ⟨_, rfl, rfl⟩
  | some r =>
    rw [hat, Option.map_some] at hregion
    obtain ⟨r', hat', hshape⟩ := Option.map_eq_some_iff.mp hregion.symm
    rw [hat']
    obtain ⟨-, hbase, hsize, hpermissions⟩ : r'.name = r.name ∧ r'.base = r.base ∧
        r'.size = r.size ∧ r'.permissions = r.permissions := by simpa [Region.shape] using hshape
    dsimp only
    rw [hbase, hsize, hpermissions]
    by_cases hfits : size > r.size - (address - r.base)
    · rw [if_pos hfits, if_pos hfits]
      exact Or.inl ⟨_, rfl, rfl⟩
    · rw [if_neg hfits, if_neg hfits]
      by_cases hpermission : (!hasPermission r.permissions needed) = true
      · rw [if_pos hpermission, if_pos hpermission]
        exact Or.inl ⟨_, rfl, rfl⟩
      · rw [if_neg hpermission, if_neg hpermission]
        exact Or.inr ⟨r, r', rfl, rfl⟩

namespace DifferAt

variable {stale : Set UInt64} {m m' : VirtualMemory} {address : UInt64}

/-- A read tells the memories apart exactly when it covers an address at which they differ. -/
theorem readBytes_cases (h : DifferAt stale m m') (address : UInt64) {size : ℕ}
    (hsize : size < 2 ^ 64) :
    (∃ fault, m.readBytes address size = .error fault ∧
        m'.readBytes address size = .error fault) ∨
      ∃ bytes bytes', m.readBytes address size = .ok bytes ∧
        m'.readBytes address size = .ok bytes' ∧ bytes.length = bytes'.length ∧
        (bytes = bytes' ↔ ∀ x ∈ stale, ¬InRange address size x) := by
  rcases Nat.eq_zero_or_pos size with rfl | hpos
  · refine Or.inr ⟨[], [], rfl, rfl, rfl, ⟨fun _ x _ hx => ?_, fun _ => rfl⟩⟩
    unfold InRange at hx
    omega
  · have hread : ∀ m : VirtualMemory, m.readBytes address size = (do
        let region ← m.checkAccess address (UInt64.ofNat size) Permission.read
        return bytesOf region address size) := fun m => if_neg (Nat.ne_of_gt hpos)
    rcases checkAccess_of_shapes h.shapes address (UInt64.ofNat size) Permission.read with
      ⟨fault, hcheck, hcheck'⟩ | ⟨r, r', hcheck, hcheck'⟩
    · refine Or.inl ⟨fault, ?_, ?_⟩
      · rw [hread, hcheck]
        rfl
      · rw [hread, hcheck']
        rfl
    · have hok : m.readBytes address size = .ok (bytesOf r address size) := by
        rw [hread, hcheck]
        rfl
      have hok' : m'.readBytes address size = .ok (bytesOf r' address size) := by
        rw [hread, hcheck']
        rfl
      obtain ⟨hlength, hbytes⟩ := byteAt_of_readBytes hpos hsize hok
      obtain ⟨hlength', hbytes'⟩ := byteAt_of_readBytes hpos hsize hok'
      refine Or.inr ⟨_, _, hok, hok', hlength.trans hlength'.symm, ?_⟩
      constructor
      · intro heq x hx hrange
        apply (h.bytes x).mp hx
        rw [hbytes x hrange, hbytes' x hrange, heq]
      · intro hclear
        apply List.ext_getElem?
        intro i
        rcases Nat.lt_or_ge i size with hi | hi
        · -- the address of the byte does not wrap: its region does not
          obtain ⟨hr, haddress, hfits, -⟩ := checkAccess_eq_ok.mp hcheck
          rw [UInt64.toNat_ofNat', Nat.mod_eq_of_lt hsize] at hfits
          have hnoWrap := (m.bounded r hr).2
          have hcount : (address + UInt64.ofNat i).toNat = address.toNat + i := by
            rw [UInt64.toNat_add, UInt64.toNat_ofNat', Nat.mod_eq_of_lt (a := i) (by omega),
              Nat.mod_eq_of_lt (by omega)]
          have hrange : InRange address size (address + UInt64.ofNat i) := by
            unfold InRange
            omega
          have hsame : m.byteAt (address + UInt64.ofNat i) =
              m'.byteAt (address + UInt64.ofNat i) := by
            by_contra hne
            exact hclear _ ((h.bytes _).mpr hne) hrange
          rw [hbytes _ hrange, hbytes' _ hrange, hcount, Nat.add_sub_cancel_left] at hsame
          exact hsame
        · rw [List.getElem?_eq_none (by omega), List.getElem?_eq_none (by omega)]

theorem readU64_cases (h : DifferAt stale m m') (address : UInt64) :
    (∃ fault, m.readU64 address = .error fault ∧ m'.readU64 address = .error fault) ∨
      ∃ value value', m.readU64 address = .ok value ∧ m'.readU64 address = .ok value' ∧
        (value = value' ↔ ∀ x ∈ stale, ¬InRange address 8 x) := by
  rw [readU64_eq, readU64_eq]
  rcases @readBytes_cases _ _ _ h address 8 (by norm_num) with
    ⟨fault, hread, hread'⟩ | ⟨bytes, bytes', hread, hread', -, hiff⟩
  · rw [hread, hread']
    exact Or.inl ⟨fault, rfl, rfl⟩
  · rw [hread, hread']
    refine Or.inr ⟨_, _, rfl, rfl, ?_⟩
    have hlength := (byteAt_of_readBytes (by norm_num) (by norm_num) hread).1
    have hlength' := (byteAt_of_readBytes (by norm_num) (by norm_num) hread').1
    rw [← hiff]
    constructor
    · intro hload
      -- a word is its bytes
      have hback := congrArg (littleEndian 8) hload
      rwa [littleEndian_load le_rfl (Nat.le_of_eq hlength.symm),
        littleEndian_load le_rfl (Nat.le_of_eq hlength'.symm), List.take_of_length_le (by omega),
        List.take_of_length_le (by omega)] at hback
    · intro heq
      rw [heq]

/-- A write is refused on both, or makes them agree on what it covers. -/
theorem writeBytes_cases (h : DifferAt stale m m') (address : UInt64) {data : List UInt8}
    (hsize : data.length < 2 ^ 64) :
    (∃ fault, m.writeBytes address data = .error fault ∧
        m'.writeBytes address data = .error fault) ∨
      ∃ w w', m.writeBytes address data = .ok w ∧ m'.writeBytes address data = .ok w' ∧
        DifferAt (uncovered stale address data.length) w w' := by
  by_cases hne : data = []
  · refine Or.inr ⟨m, m', if_pos hne, if_pos hne, h.shapes, h.heapNext, fun x => ?_⟩
    rw [← h.bytes x, hne]
    refine ⟨fun hx => hx.1, fun hx => ⟨hx, fun hrange => ?_⟩⟩
    unfold InRange at hrange
    simp only [List.length_nil] at hrange
    omega
  · have hwrite : ∀ m : VirtualMemory, m.writeBytes address data = (do
        let _ ← m.checkAccess address (UInt64.ofNat data.length) Permission.write
        return m.overwrite address data) := fun m => if_neg hne
    rcases checkAccess_of_shapes h.shapes address (UInt64.ofNat data.length) Permission.write with
      ⟨fault, hcheck, hcheck'⟩ | ⟨r, r', hcheck, hcheck'⟩
    · refine Or.inl ⟨fault, ?_, ?_⟩
      · rw [hwrite, hcheck]
        rfl
      · rw [hwrite, hcheck']
        rfl
    · have hok : m.writeBytes address data = .ok (m.overwrite address data) := by
        rw [hwrite, hcheck]
        rfl
      have hok' : m'.writeBytes address data = .ok (m'.overwrite address data) := by
        rw [hwrite, hcheck']
        rfl
      have hwrites := writes_writeBytes m address hne hsize
      have hwrites' := writes_writeBytes m' address hne hsize
      refine Or.inr ⟨_, _, hok, hok', ?_, ?_, fun x => ?_⟩
      · rw [shapes_overwrite, shapes_overwrite, h.shapes]
      · exact h.heapNext
      · by_cases hrange : InRange address data.length x
        · rw [hwrites.inside _ hok x hrange, hwrites'.inside _ hok' x hrange]
          exact ⟨fun hx => absurd hrange hx.2, fun hx => absurd rfl hx⟩
        · have hsame := hwrites.outside x hrange
          have hsame' := hwrites'.outside x hrange
          rw [hok] at hsame
          rw [hok'] at hsame'
          dsimp only [after] at hsame hsame'
          rw [hsame, hsame', ← h.bytes x]
          exact ⟨fun hx => hx.1, fun hx => ⟨hx, hrange⟩⟩

theorem writeU64_cases (h : DifferAt stale m m') (address value : UInt64) :
    (∃ fault, m.writeU64 address value = .error fault ∧
        m'.writeU64 address value = .error fault) ∨
      ∃ w w', m.writeU64 address value = .ok w ∧ m'.writeU64 address value = .ok w' ∧
        DifferAt (uncovered stale address 8) w w' := by
  have hlength := length_littleEndian 8 value
  rw [writeU64_eq, writeU64_eq]
  have hcases := @writeBytes_cases _ _ _ h address (littleEndian 8 value) (by omega)
  rwa [hlength] at hcases

theorem allocate (h : DifferAt stale m m') (size : UInt64) :
    (m.allocate size).1 = (m'.allocate size).1 ∧
      DifferAt stale (m.allocate size).2 (m'.allocate size).2 := by
  have hregion := shape_regionAt m m.heapNext
  rw [h.shapes, h.heapNext, ← shape_regionAt m' m'.heapNext] at hregion
  unfold VirtualMemory.allocate
  rw [h.heapNext]
  cases hat : m.regionAt m'.heapNext with
  | none =>
    rw [hat] at hregion
    rw [Option.map_eq_none_iff.mp hregion.symm]
    exact ⟨rfl, h⟩
  | some r =>
    rw [hat, Option.map_some] at hregion
    obtain ⟨r', hat', hshape⟩ := Option.map_eq_some_iff.mp hregion.symm
    obtain ⟨hname, hbase, hsize, -⟩ : r'.name = r.name ∧ r'.base = r.base ∧
        r'.size = r.size ∧ r'.permissions = r.permissions := by simpa [Region.shape] using hshape
    rw [hat']
    dsimp only
    rw [hname, hbase, hsize]
    split_ifs
    · exact ⟨rfl, h⟩
    · exact ⟨rfl, h⟩
    · exact ⟨rfl, h⟩
    · exact ⟨rfl, h.shapes, rfl, h.bytes⟩

end DifferAt

end VirtualMemory
end Vm
end MiniTool
