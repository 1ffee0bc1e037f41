import ConfigArea.Bytes
import ConfigArea.Text.Utf8

/-!
# Records

The fixed-shape records that the entries of an area point to: reservations of kernel modules, the
version record, and the size field of a device tree.

* `Version.read_eq_ok_iff`, `Version.read_eq_error_iff`: a version record is read exactly where all
  its 192 bytes are inside
* `deviceTreeSize_eq_ok_iff`, `deviceTreeSize_eq_error_iff`: the size is read exactly where the
  first eight bytes are inside
-/

namespace ConfigArea

/-- Memory reserved for one kernel module. -/
structure Reservation where
  /-- without the zero byte that ends it -/
  name : ByteArray
  /-- in bytes -/
  size : UInt32

/-- Version record of a firmware build. Its fields have fixed widths, are padded with zeros, and
may fill their width. -/
structure Version where
  /-- 32 bytes -/
  buildNumber : ByteArray
  /-- 32 bytes -/
  sourceRevision : ByteArray
  /-- 128 bytes -/
  firmware : ByteArray

/-- The version record at `offset`. -/
def Version.read (b : ByteArray) (offset : Nat) : Except Truncated Version :=
  (b.readSlice offset 192).map fun record =>
    ⟨record.extract 0 32, record.extract 32 64, record.extract 64 192⟩

/-- The largest offset there is: offsets are numbers of 64 bits. -/
def lastOffset : Nat := 0xffffffffffffffff

/-- What is held in memory is smaller than the last offset. -/
theorem le_lastOffset {n : Nat} (h : n < 0x8000000000000000) : n ≤ lastOffset := by
  unfold lastOffset
  omega

/-- The size that the device tree at `offset` declares, in the second word of its header and in
big-endian order whatever the order of the area. The offset of that word stops at the last one. -/
def deviceTreeSize (b : ByteArray) (offset : Nat) : Except Truncated UInt32 :=
  b.readU32 (min (offset + 4) lastOffset) .big

/-- A version record is read exactly where all its bytes are inside, and then it is those bytes. -/
theorem Version.read_eq_ok_iff {b : ByteArray} {offset : Nat} {v : Version} :
    Version.read b offset = .ok v ↔
      offset + 192 ≤ b.size ∧ v.buildNumber = b.extract offset (offset + 32) ∧
        v.sourceRevision = b.extract (offset + 32) (offset + 64) ∧
        v.firmware = b.extract (offset + 64) (offset + 192) := by
  obtain ⟨x, y, z⟩ := v
  -- the record is one slice, cut into its three fields
  rw [Version.read]
  cases h : b.readSlice offset 192 with
  | error e =>
    have := (ByteArray.readSlice_eq_error_iff.1 h).1
    simp only [Except.map, reduceCtorEq, false_iff]
    omega
  | ok record =>
    obtain ⟨hle, rfl⟩ := ByteArray.readSlice_eq_ok_iff.1 h
    simp only [Except.map, Except.ok.injEq, mk.injEq, hle, true_and, ByteArray.extract_extract,
      Nat.add_zero, Nat.min_eq_left (show offset + 32 ≤ offset + 192 by omega),
      Nat.min_eq_left (show offset + 64 ≤ offset + 192 by omega), Nat.min_self,
      eq_comm (a := x), eq_comm (a := y), eq_comm (a := z)]

/-- Where a version record is not read, its 192 bytes are missing. -/
theorem Version.read_eq_error_iff {b : ByteArray} {offset : Nat} {e : Truncated} :
    Version.read b offset = .error e ↔ b.size < offset + 192 ∧ e = ⟨offset, 192⟩ := by
  rw [Version.read]
  cases h : b.readSlice offset 192 with
  | error d =>
    obtain ⟨hlt, rfl⟩ := ByteArray.readSlice_eq_error_iff.1 h
    simp only [Except.map, Except.error.injEq, eq_comm (a := e), hlt, true_and]
  | ok record =>
    have hle := (ByteArray.readSlice_eq_ok_iff.1 h).1
    simp only [Except.map, reduceCtorEq, false_iff]
    omega

/-- The size is read exactly where the first eight bytes are inside. -/
theorem deviceTreeSize_eq_ok_iff {b : ByteArray} {offset : Nat} {n : UInt32}
    (hb : b.size ≤ lastOffset) :
    deviceTreeSize b offset = .ok n ↔
      offset + 8 ≤ b.size ∧ (b.wordAt (offset + 4)).value .big = n := by
  rw [deviceTreeSize, ByteArray.readU32_eq_ok_iff]
  unfold lastOffset at hb ⊢
  by_cases h : offset + 8 ≤ b.size
  · rw [Nat.min_eq_left (by omega)]
  · -- the word is past the end, with its offset stopped or not
    constructor <;> (intro h'; omega)

/-- Where the size is not read, the four bytes of the second word are missing. -/
theorem deviceTreeSize_eq_error_iff {b : ByteArray} {offset : Nat} {e : Truncated}
    (h : offset + 4 ≤ lastOffset) :
    deviceTreeSize b offset = .error e ↔ b.size < offset + 8 ∧ e = ⟨offset + 4, 4⟩ := by
  rw [deviceTreeSize, Nat.min_eq_left h, ByteArray.readU32_eq_error_iff]

end ConfigArea
