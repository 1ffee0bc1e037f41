import ConfigArea.Bytes

/-!
# Headers of flattened device trees

A flattened device tree starts with ten big-endian words. They are enough to tell a blob from bytes
that hold the magic number by chance; nothing behind the header is looked at.

* `Header.isPlausible_iff`: the conditions of a plausible header, as arithmetic
* `startsAt_eq`: a device tree is recognised by the bytes from its start on
-/

namespace ConfigArea.DeviceTree

/-- The number that starts a device tree. -/
def magic : UInt32 := 0xd00dfeed

/-- The newest format with which a blob may claim to be compatible. -/
def newestCompatible : UInt32 := 17

/-- The newest format a blob may claim to have. -/
def newestVersion : UInt32 := 32

/-- The header of a flattened device tree, ten words in forty bytes. -/
structure Header where
  magic : UInt32
  /-- bytes of the whole blob -/
  totalSize : UInt32
  structOffset : UInt32
  stringsOffset : UInt32
  reserveMapOffset : UInt32
  version : UInt32
  lastCompatibleVersion : UInt32
  bootCpu : UInt32
  stringsSize : UInt32
  structSize : UInt32
  deriving DecidableEq

namespace Header

/-- The words of a header in their order. -/
def toList (h : Header) : List UInt32 :=
  [h.magic, h.totalSize, h.structOffset, h.stringsOffset, h.reserveMapOffset, h.version,
    h.lastCompatibleVersion, h.bootCpu, h.stringsSize, h.structSize]

/-- The header at the start of `b`. -/
def read? (b : ByteArray) : Option Header :=
  if 40 ≤ b.size then
    let field i := (b.wordAt (4 * i)).value .big
    some ⟨field 0, field 1, field 2, field 3, field 4, field 5, field 6, field 7, field 8, field 9⟩
  else none

/-- Whether a block of `size` bytes at `offset` ends inside the blob. -/
def holds (h : Header) (offset size : UInt32) : Bool :=
  offset.toNat + size.toNat ≤ h.totalSize.toNat

/-- Whether the header can be that of a blob of which `available` bytes are there: the blob fits,
its versions agree with each other, and its blocks lie inside it. The size of the strings block is
known from version 3 on, that of the structure block from version 17 on. -/
def isPlausible (h : Header) (available : Nat) : Bool :=
  h.magic == DeviceTree.magic &&
    (40 ≤ h.totalSize.toNat && h.totalSize.toNat ≤ available) &&
    (1 ≤ h.lastCompatibleVersion && h.lastCompatibleVersion ≤ newestCompatible &&
      h.lastCompatibleVersion ≤ h.version && h.version ≤ newestVersion) &&
    (40 ≤ h.reserveMapOffset.toNat && h.holds h.reserveMapOffset 0 &&
      h.holds h.structOffset 0 && h.holds h.stringsOffset 0) &&
    (h.version < 17 || h.holds h.structOffset h.structSize) &&
    (h.version < 3 || h.holds h.stringsOffset h.stringsSize)

/-- The conditions of a plausible header, as arithmetic on its fields. -/
theorem isPlausible_iff {h : Header} {available : Nat} :
    h.isPlausible available = true ↔
      h.magic = DeviceTree.magic ∧
      (40 ≤ h.totalSize.toNat ∧ h.totalSize.toNat ≤ available) ∧
      (1 ≤ h.lastCompatibleVersion.toNat ∧ h.lastCompatibleVersion.toNat ≤ 17 ∧
        h.lastCompatibleVersion.toNat ≤ h.version.toNat ∧ h.version.toNat ≤ 32) ∧
      (40 ≤ h.reserveMapOffset.toNat ∧ h.reserveMapOffset.toNat ≤ h.totalSize.toNat ∧
        h.structOffset.toNat ≤ h.totalSize.toNat ∧ h.stringsOffset.toNat ≤ h.totalSize.toNat) ∧
      (17 ≤ h.version.toNat →
        h.structOffset.toNat + h.structSize.toNat ≤ h.totalSize.toNat) ∧
      (3 ≤ h.version.toNat →
        h.stringsOffset.toNat + h.stringsSize.toNat ≤ h.totalSize.toNat) := by
  -- each check is a comparison of numbers, and the last two ask nothing of older versions
  simp only [isPlausible, holds, newestCompatible, newestVersion, Bool.and_eq_true,
    Bool.or_eq_true, beq_iff_eq, decide_eq_true_eq, UInt32.le_iff_toNat_le, UInt32.lt_iff_toNat_lt,
    UInt32.reduceToNat, Nat.add_zero, and_assoc, ← Nat.not_le, ← Decidable.imp_iff_not_or]

end Header

/-- Whether a plausible device tree starts at `offset` and is all there. -/
def startsAt (b : ByteArray) (offset : Nat) : Bool :=
  match Header.read? (b.extract offset (offset + 40)) with
  | some h => h.isPlausible (b.size - offset)
  | none => false

/-- Whether `b` starts with a plausible device tree. -/
def looksLikeDeviceTree (b : ByteArray) : Bool :=
  startsAt b 0

/-- A device tree at an offset is recognised by the bytes from there on. -/
theorem startsAt_eq {b : ByteArray} {offset : Nat} :
    startsAt b offset = looksLikeDeviceTree (b.extract offset b.size) := by
  have h : Header.read? (b.extract offset (offset + 40)) =
      Header.read? ((b.extract offset b.size).extract 0 (0 + 40)) := by
    rw [ByteArray.extract_extract, Nat.zero_add]
    by_cases hle : offset + 40 ≤ b.size
    · simp only [Nat.min_eq_left hle, Nat.add_zero]
    · -- both cuts are too short for a header
      simp only [Header.read?, ByteArray.size_extract]
      rw [if_neg (by omega), if_neg (by omega)]
  rw [looksLikeDeviceTree, startsAt, startsAt, h, ByteArray.size_extract, Nat.min_self,
    Nat.sub_zero]

end ConfigArea.DeviceTree
