import MiniToolchain.Vm.InPlace

/-!
# Reading what was written

The bytes of a memory by their address, and what an access does to them.  Every access is one check
and one window of one region, so reads and writes of words are those of strings of bytes.

## Main definitions

* `byteAt` — the byte at an address, if it is mapped.
* `Grants` — one region holds the accessed bytes and grants the permission.

## Main results

* `isOk_checkAccess` — an access is allowed exactly when it is granted.
* `byteAt_overwrite` — the bytes after a write.
* `regionAt_of_grants` — all that a granted access touches lies in one region.
-/

namespace MiniTool
namespace Vm
namespace VirtualMemory

open ByteOrder Window

/-- The byte at an address, if it is mapped. -/
def byteAt (m : VirtualMemory) (address : UInt64) : Option UInt8 :=
  (m.regionAt address).map fun r => r.data (address - r.base).toNat

/-- One region holds `size` bytes from `address` on and grants the permission. -/
def Grants (m : VirtualMemory) (address : UInt64) (size : ℕ) (needed : Permission) : Prop :=
  ∃ r ∈ m.regions, r.base.toNat ≤ address.toNat ∧ address.toNat + size ≤ r.stop ∧
    hasPermission r.permissions needed = true

instance (m : VirtualMemory) (address : UInt64) (size : ℕ) (needed : Permission) :
    Decidable (m.Grants address size needed) :=
  inferInstanceAs (Decidable (∃ r ∈ m.regions, _))

/-- The address is one of `size` from `start` on. -/
def InRange (start : UInt64) (size : ℕ) (address : UInt64) : Prop :=
  start.toNat ≤ address.toNat ∧ address.toNat < start.toNat + size

/-- The memory after a write: one that is refused has touched nothing. -/
def after (m : VirtualMemory) (written : Except MemoryFault VirtualMemory) : VirtualMemory :=
  match written with
  | .ok m' => m'
  | .error _ => m

variable {m : VirtualMemory} {address : UInt64} {size : ℕ} {needed : Permission}

/-! ### One region -/

/-- An access of at least one byte is allowed exactly when it is granted. -/
theorem isOk_checkAccess (hpos : 0 < size) (hsize : size < 2 ^ 64) :
    (∃ r, m.checkAccess address (UInt64.ofNat size) needed = .ok r) ↔
      m.Grants address size needed := by
  have hcount : (UInt64.ofNat size).toNat = size := by
    rw [UInt64.toNat_ofNat', Nat.mod_eq_of_lt hsize]
  constructor
  · rintro ⟨r, hcheck⟩
    obtain ⟨hr, haddress, hfits, hpermission⟩ := checkAccess_eq_ok.mp hcheck
    rw [hcount] at hfits
    exact ⟨r, hr, (Region.contains_iff.mp haddress).1, hfits, hpermission⟩
  · rintro ⟨r, hr, hbase, hfits, hpermission⟩
    refine ⟨r, checkAccess_eq_ok.mpr ⟨hr, ?_, ?_, hpermission⟩⟩
    · exact Region.contains_iff.mpr ⟨hbase, by omega⟩
    · rw [hcount]
      exact hfits

/-- All that a granted access touches lies in one region. -/
theorem regionAt_of_grants (h : m.Grants address size needed) : ∃ r ∈ m.regions,
    ∀ x, InRange address size x → m.regionAt x = some r := by
  obtain ⟨r, hr, hbase, hfits, -⟩ := h
  refine ⟨r, hr, fun x hx => regionAt_eq_some.mpr ⟨hr, Region.contains_iff.mpr ?_⟩⟩
  exact ⟨hbase.trans hx.1, hx.2.trans_le hfits⟩

/-! ### Reads and writes are windows -/

theorem readU64_eq (m : VirtualMemory) (address : UInt64) :
    m.readU64 address = (m.readBytes address 8).map (load 8) := by
  unfold readU64 readBytes
  rw [if_neg (by decide)]
  show _ = Except.map _ (m.checkAccess address 8 Permission.read >>= _)
  cases m.checkAccess address 8 Permission.read <;> rfl

theorem writeU64_eq (m : VirtualMemory) (address value : UInt64) :
    m.writeU64 address value = m.writeBytes address (littleEndian 8 value) := by
  unfold writeU64 writeBytes
  rw [if_neg (by
    intro h
    have hlength := congrArg List.length h
    rw [length_littleEndian] at hlength
    cases hlength), length_littleEndian]
  rfl

/-! ### Bytes -/

theorem toNat_offset {r : Region} {x : UInt64} (hx : r.contains x = true) :
    (x - r.base).toNat = x.toNat - r.base.toNat :=
  UInt64.toNat_sub_of_le _ _ (UInt64.le_iff_toNat_le.mpr (Region.contains_iff.mp hx).1)

theorem byteAt_of_contains {r : Region} {x : UInt64} (hr : r ∈ m.regions)
    (hx : r.contains x = true) : m.byteAt x = some (r.data (x.toNat - r.base.toNat)) := by
  unfold byteAt
  rw [regionAt_eq_some.mpr ⟨hr, hx⟩, Option.map_some, toNat_offset hx]

/-- What a granted read returns: the bytes at its addresses. -/
theorem byteAt_of_readBytes (hpos : 0 < size) (hsize : size < 2 ^ 64) {bytes : List UInt8}
    (h : m.readBytes address size = .ok bytes) :
    bytes.length = size ∧
      ∀ x, InRange address size x → m.byteAt x = bytes[x.toNat - address.toNat]? := by
  unfold readBytes at h
  rw [if_neg (by omega)] at h
  obtain ⟨r, hcheck, h⟩ := Checked.bind_eq_ok.mp h
  cases h
  obtain ⟨hr, haddress, hfits, -⟩ := checkAccess_eq_ok.mp hcheck
  rw [UInt64.toNat_ofNat', Nat.mod_eq_of_lt hsize] at hfits
  have hbase := (Region.contains_iff.mp haddress).1
  unfold bytesOf
  refine ⟨length_window _ _ _, fun x hx => ?_⟩
  obtain ⟨hlo, hhi⟩ := hx
  have hindex : x.toNat - address.toNat < size := by omega
  rw [byteAt_of_contains hr (Region.contains_iff.mpr ⟨by omega, by omega⟩),
    List.getElem?_eq_getElem (by rw [length_window]; exact hindex), getElem_window,
    toNat_offset haddress]
  congr 2
  omega

theorem isOk_readBytes (hpos : 0 < size) (hsize : size < 2 ^ 64) :
    (∃ bytes, m.readBytes address size = .ok bytes) ↔ m.Grants address size Permission.read := by
  rw [← isOk_checkAccess hpos hsize]
  unfold readBytes
  rw [if_neg (by omega)]
  cases m.checkAccess address (UInt64.ofNat size) Permission.read with
  | error fault =>
    constructor
    · rintro ⟨_, h⟩
      cases h
    · rintro ⟨_, h⟩
      cases h
  | ok r => exact ⟨fun _ => ⟨r, rfl⟩, fun _ => ⟨_, rfl⟩⟩

theorem isOk_writeBytes {data : List UInt8} (hne : data ≠ []) (hsize : data.length < 2 ^ 64) :
    (∃ m', m.writeBytes address data = .ok m') ↔
      m.Grants address data.length Permission.write := by
  rw [← isOk_checkAccess (List.length_pos_iff.mpr hne) hsize]
  unfold writeBytes
  rw [if_neg hne]
  cases m.checkAccess address (UInt64.ofNat data.length) Permission.write with
  | error fault =>
    constructor
    · rintro ⟨_, h⟩
      cases h
    · rintro ⟨_, h⟩
      cases h
  | ok r => exact ⟨fun _ => ⟨r, rfl⟩, fun _ => ⟨_, rfl⟩⟩

/-! ### Writes -/

theorem regionAt_overwrite (m : VirtualMemory) (address : UInt64) (bytes : List UInt8)
    (x : UInt64) : (m.overwrite address bytes).regionAt x = (m.regionAt x).map fun r =>
      if r.contains address then r.overwrite (address - r.base).toNat bytes else r := by
  unfold regionAt overwrite
  rw [List.find?_map]
  congr 2
  funext r
  rw [Function.comp_apply]
  split_ifs <;> rfl

/-- The bytes after a write into a region. -/
theorem byteAt_overwrite {r : Region} {bytes : List UInt8} (hr : r ∈ m.regions)
    (haddress : r.contains address = true) (hfits : address.toNat + bytes.length ≤ r.stop)
    (x : UInt64) [Decidable (InRange address bytes.length x)] :
    (m.overwrite address bytes).byteAt x =
      if InRange address bytes.length x then bytes[x.toNat - address.toNat]? else m.byteAt x := by
  have hbase := (Region.contains_iff.mp haddress).1
  have hinside : InRange address bytes.length x → m.regionAt x = some r := by
    intro hx
    exact regionAt_eq_some.mpr ⟨hr, Region.contains_iff.mpr ⟨hbase.trans hx.1, hx.2.trans_le hfits⟩⟩
  unfold byteAt
  rw [regionAt_overwrite, Option.map_map]
  cases hat : m.regionAt x with
  | none =>
    rw [if_neg]
    · rfl
    · intro hx
      rw [hinside hx] at hat
      cases hat
  | some found =>
    obtain ⟨hfound, hx⟩ := regionAt_eq_some.mp hat
    rw [Option.map_some, Option.map_some, Function.comp_apply]
    by_cases hcontains : found.contains address = true
    · obtain rfl := eq_of_contains hfound hr hcontains haddress
      rw [if_pos hcontains]
      show some (Window.overwrite found.data (address - found.base).toNat bytes
        (x - found.base).toNat) = _
      rw [toNat_offset hcontains, toNat_offset hx]
      have hlow := (Region.contains_iff.mp hx).1
      split_ifs with hrange
      · obtain ⟨hlo, hhi⟩ := hrange
        rw [Window.overwrite, dif_pos ⟨by omega, by omega⟩, List.getElem?_eq_getElem (by omega),
          List.get_eq_getElem]
        congr 2
        show x.toNat - found.base.toNat - (address.toNat - found.base.toNat) = _
        omega
      · rw [overwrite_of_outside]
        unfold InRange at hrange
        omega
    · rw [if_neg hcontains, if_neg]
      intro hrange
      rw [hinside hrange] at hat
      cases hat
      exact hcontains haddress

/-- A write that is granted is the overwriting of one region. -/
theorem writeBytes_eq_ok {m' : VirtualMemory} {data : List UInt8} (hne : data ≠ [])
    (hsize : data.length < 2 ^ 64) (h : m.writeBytes address data = .ok m') :
    m' = m.overwrite address data ∧ ∃ r ∈ m.regions, r.contains address = true ∧
      address.toNat + data.length ≤ r.stop := by
  unfold writeBytes at h
  rw [if_neg hne] at h
  obtain ⟨r, hcheck, h⟩ := Checked.bind_eq_ok.mp h
  cases h
  obtain ⟨hr, haddress, hfits, -⟩ := checkAccess_eq_ok.mp hcheck
  rw [UInt64.toNat_ofNat', Nat.mod_eq_of_lt hsize] at hfits
  exact ⟨rfl, r, hr, haddress, hfits⟩

theorem grants_of_shapes {m' : VirtualMemory} (h : m'.shapes = m.shapes) :
    m'.Grants address size needed ↔ m.Grants address size needed := by
  have hshape : ∀ m : VirtualMemory, m.Grants address size needed ↔ ∃ s ∈ m.shapes,
      s.2.1.toNat ≤ address.toNat ∧ address.toNat + size ≤ s.2.1.toNat + s.2.2.1.toNat ∧
        hasPermission s.2.2.2 needed = true := by
    intro m
    unfold Grants shapes
    constructor
    · rintro ⟨r, hr, h⟩
      exact ⟨r.shape, List.mem_map_of_mem hr, h⟩
    · rintro ⟨s, hs, h⟩
      obtain ⟨r, hr, rfl⟩ := List.mem_map.mp hs
      exact ⟨r, hr, h⟩
  rw [hshape, hshape, h]

/-- What a write of bytes does: nothing when it is refused, and otherwise it replaces the bytes at
its addresses and no others. -/
structure Writes (m : VirtualMemory) (address : UInt64) (data : List UInt8)
    (written : Except MemoryFault VirtualMemory) : Prop where
  isOk : (∃ m', written = .ok m') ↔ m.Grants address data.length Permission.write
  refused : ∀ fault, written = .error fault → m.after written = m
  shapes : (m.after written).shapes = m.shapes
  inside : ∀ m', written = .ok m' → ∀ x, InRange address data.length x →
    m'.byteAt x = data[x.toNat - address.toNat]?
  outside : ∀ x, ¬InRange address data.length x → (m.after written).byteAt x = m.byteAt x
  readBack : ∀ m', written = .ok m' → m.Grants address data.length Permission.read →
    m'.readBytes address data.length = .ok data

theorem writes_writeBytes (m : VirtualMemory) (address : UInt64) {data : List UInt8}
    (hne : data ≠ []) (hsize : data.length < 2 ^ 64) :
    Writes m address data (m.writeBytes address data) := by
  classical
  have hpos : 0 < data.length := List.length_pos_iff.mpr hne
  cases hwrite : m.writeBytes address data with
  | error fault =>
    refine ⟨?_, fun _ _ => rfl, rfl, nofun, fun _ _ => rfl, nofun⟩
    rw [← hwrite]
    exact isOk_writeBytes hne hsize
  | ok m' =>
    obtain ⟨rfl, r, hr, haddress, hfits⟩ := writeBytes_eq_ok hne hsize hwrite
    have hbyte := byteAt_overwrite hr haddress hfits
    refine ⟨?_, nofun, shapes_overwrite m address data, ?_, ?_, ?_⟩
    · rw [← hwrite]
      exact isOk_writeBytes hne hsize
    · rintro _ ⟨⟩ x hx
      rw [hbyte x, if_pos hx]
    · intro x hx
      show (m.overwrite address data).byteAt x = _
      rw [hbyte x, if_neg hx]
    · rintro _ ⟨⟩ hgrants
      obtain ⟨bytes, hread⟩ := (isOk_readBytes hpos hsize).mpr
        ((grants_of_shapes (shapes_overwrite m address data)).mpr hgrants)
      obtain ⟨hlength, hbytes⟩ := byteAt_of_readBytes hpos hsize hread
      rw [hread]
      congr 1
      -- both strings are the bytes at the written addresses
      apply List.ext_getElem?
      intro i
      rcases Nat.lt_or_ge i data.length with hi | hi
      · have hnoWrap := (m.bounded r hr).2
        have hcount : (address + UInt64.ofNat i).toNat = address.toNat + i := by
          rw [UInt64.toNat_add, UInt64.toNat_ofNat', Nat.mod_eq_of_lt (a := i) (by omega),
            Nat.mod_eq_of_lt (by omega)]
        have hx : InRange address data.length (address + UInt64.ofNat i) := by
          unfold InRange
          omega
        have hboth := (hbytes _ hx).symm.trans ((hbyte _).trans (if_pos hx))
        rwa [hcount, Nat.add_sub_cancel_left] at hboth
      · rw [List.getElem?_eq_none (by omega), List.getElem?_eq_none hi]

/-! ### Read after write -/

theorem writes_writeU64 (m : VirtualMemory) (address value : UInt64) :
    Writes m address (littleEndian 8 value) (m.writeU64 address value) := by
  have hlength := length_littleEndian 8 value
  rw [writeU64_eq]
  refine writes_writeBytes m address ?_ (by omega)
  intro h
  rw [h] at hlength
  cases hlength

theorem isOk_readU64 (m : VirtualMemory) (address : UInt64) :
    (∃ v, m.readU64 address = .ok v) ↔ m.Grants address 8 Permission.read := by
  rw [← isOk_readBytes (by norm_num) (by norm_num), readU64_eq]
  cases m.readBytes address 8 with
  | error fault => exact ⟨nofun, nofun⟩
  | ok bytes => exact ⟨fun _ => ⟨bytes, rfl⟩, fun _ => ⟨_, rfl⟩⟩

/-- A word that was written is read back. -/
theorem readU64_of_writeU64 {m m' : VirtualMemory} {address value : UInt64}
    (hwrite : m.writeU64 address value = .ok m') (hgrants : m.Grants address 8 Permission.read) :
    m'.readU64 address = .ok value := by
  have hlength := length_littleEndian 8 value
  have hback := (writes_writeU64 m address value).readBack m' hwrite (by
    rw [hlength]
    exact hgrants)
  have hload := load_littleEndian_append (by norm_num : 8 ≤ 8) value.toNat_lt []
  rw [hlength] at hback
  rw [List.append_nil] at hload
  rw [readU64_eq, hback]
  exact congrArg Except.ok hload

/-- The memory reads back what was written, wherever a single region grants both; a write changes
the bytes it names and no others, one that is refused changes nothing, and no access touches two
regions. -/
theorem read_after_write (m : VirtualMemory) (address value : UInt64) (data : List UInt8)
    (size : ℕ) :
    -- words
    ((∃ m', m.writeU64 address value = .ok m') ↔ m.Grants address 8 Permission.write) ∧
    ((∃ v, m.readU64 address = .ok v) ↔ m.Grants address 8 Permission.read) ∧
    ((∃ w, m.fetchInstruction address = .ok w) ↔ m.Grants address 8 Permission.exec) ∧
    (∀ m', m.writeU64 address value = .ok m' →
      (m.Grants address 8 Permission.read → m'.readU64 address = .ok value) ∧
        m'.shapes = m.shapes ∧ ∀ x, ¬InRange address 8 x → m'.byteAt x = m.byteAt x) ∧
    (∀ fault, m.writeU64 address value = .error fault →
      m.after (m.writeU64 address value) = m) ∧
    -- strings of bytes
    (data ≠ [] → data.length < 2 ^ 64 →
      Writes m address data (m.writeBytes address data)) ∧
    (0 < size → size < 2 ^ 64 →
      ((∃ bytes, m.readBytes address size = .ok bytes) ↔ m.Grants address size Permission.read) ∧
      ∀ bytes, m.readBytes address size = .ok bytes → bytes.length = size ∧
        ∀ x, InRange address size x → m.byteAt x = bytes[x.toNat - address.toNat]?) ∧
    -- the stores are made one after another, behind the check
    (∀ byte, m.writeByteInPlace address byte = m.outcome (m.writeByte address byte)) ∧
    m.writeU64InPlace address value = m.outcome (m.writeU64 address value) ∧
    (data.length < 2 ^ 64 →
      m.writeBytesInPlace address data = m.outcome (m.writeBytes address data)) ∧
    -- a granted access lies in one region, and in no other
    (∀ needed, m.Grants address size needed → ∃ r ∈ m.regions,
      ∀ x, InRange address size x → r.contains x = true ∧
        ∀ r' ∈ m.regions, r'.contains x = true → r' = r) := by
  have hword := writes_writeU64 m address value
  have hlength := length_littleEndian 8 value
  refine ⟨?_, isOk_readU64 m address, ?_, ?_, hword.refused, writes_writeBytes m address, ?_,
    writeByteInPlace_eq m address, writeU64InPlace_eq m address value,
    writeBytesInPlace_eq m address, ?_⟩
  · rw [hword.isOk, hlength]
  · rw [← isOk_checkAccess (by norm_num) (by norm_num)]
    show _ ↔ ∃ r, m.checkAccess address 8 Permission.exec = .ok r
    unfold fetchInstruction
    cases m.checkAccess address 8 Permission.exec with
    | error fault => exact ⟨nofun, nofun⟩
    | ok r => exact ⟨fun _ => ⟨r, rfl⟩, fun _ => ⟨_, rfl⟩⟩
  · intro m' hwrite
    have hafter : m.after (m.writeU64 address value) = m' := by rw [hwrite]; rfl
    refine ⟨readU64_of_writeU64 hwrite, hafter ▸ hword.shapes, fun x hx => ?_⟩
    rw [← hafter]
    exact hword.outside x (by rw [hlength]; exact hx)
  · intro hpos hsize
    exact ⟨isOk_readBytes hpos hsize, fun bytes h => byteAt_of_readBytes hpos hsize h⟩
  · intro needed hgrants
    obtain ⟨r, hr, hregion⟩ := regionAt_of_grants hgrants
    refine ⟨r, hr, fun x hx => ?_⟩
    have hcontains := (regionAt_eq_some.mp (hregion x hx)).2
    exact ⟨hcontains, fun r' hr' hx' => eq_of_contains hr' hr hx' hcontains⟩

end VirtualMemory
end Vm
end MiniTool
