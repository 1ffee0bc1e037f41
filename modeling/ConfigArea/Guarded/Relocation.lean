import ConfigArea.Guarded.Detection
import ConfigArea.Relocation

/-!
# Guarded relocation

Relocation step by step: the check of the region, and the reads of the entries and of their payloads
from one offset to the next.
-/

namespace ConfigArea.Guarded

/-- The tag with the given ordinal. -/
def tagOf (raw : UInt32) : Option Tag :=
  if 5 ≤ raw ∧ raw ≤ 14 then (sub32 raw 5).map fun subrev => .deviceTree subrev.toUInt8
  else some (.ofRaw raw)

/-- The version record at `offset`, split into its fields. -/
def readVersion (b : ByteArray) (offset : Nat) : Guarded Truncated Version := do
  let record ← readSlice b offset 192
  let (buildNumber, rest) ← splitAt record 32
  let (sourceRevision, firmware) ← splitAt rest 32
  return ⟨buildNumber, sourceRevision, firmware⟩

/-- The device tree at `offset`, as long as its header says. -/
def readDeviceTree (b : ByteArray) (subrev : UInt8) (offset : Nat) :
    Guarded Truncated DeviceTree := do
  let size ← readU32 b (saturatingAdd offset 4) .big
  let blob ← readSlice b offset size.toNat
  return ⟨subrev, offset, blob⟩

/-- What relocation knows of an area. -/
structure Relocator where
  /-- the buffer up to the end of the area -/
  data : ByteArray
  order : ByteOrder
  linkBase : UInt32
  localBase : Nat

namespace Relocator

/-- The number at `offset`. -/
def read (r : Relocator) (offset : Nat) : Except DecodingFailure UInt32 :=
  (readU32 r.data offset r.order).mapError .ofTruncated

/-- The offset that the pointer stored at `cell` addresses. -/
def rebase (r : Relocator) (cell : Nat) (pointer : UInt32) : Except DecodingFailure Nat :=
  let target := (sub32 pointer r.linkBase).bind fun distance => add r.localBase distance.toNat
  match target.filter (· < r.data.size) with
  | some target => .ok target
  | none => .error (.danglingPointer cell pointer)

/-- The reservations from `offset` on. -/
def reservations (r : Relocator) (offset : Nat) : Guarded DecodingFailure (List Reservation) := do
  let namePointer ← r.read offset
  if namePointer = 0 then return []
  else
    let size ← r.read (← add offset 4)
    let nameOffset ← r.rebase offset namePointer
    let name ← ExceptT.adapt .ofTruncated (readCString r.data nameOffset)
    let ⟨after, _⟩ ← advance offset 8
    let rest ← r.reservations after
    return ⟨name, size⟩ :: rest
termination_by limit - offset
decreasing_by omega

/-- The entry with the given tag whose payload is at `target`. -/
def entry (r : Relocator) (tag : Tag) (target : Nat) : Guarded DecodingFailure Entry :=
  match tag with
  | .moduleMemory => .reservations <$> r.reservations target
  | .versionInfo => .version <$> ExceptT.adapt .ofTruncated (readVersion r.data target)
  | .deviceTree subrev =>
    .deviceTree <$> ExceptT.adapt .ofTruncated (readDeviceTree r.data subrev target)
  | tag => return .uninterpreted tag target

/-- The entries from `offset` on. -/
def entries (r : Relocator) (offset : Nat) : Guarded DecodingFailure (List Entry) := do
  let raw ← r.read offset
  let tag ← tagOf raw
  let payload ← r.read (← add offset 4)
  if payload = 0 then return []
  else if tag = .last ∨ tag.isValid = false then return []
  else
    let target ← r.rebase (← add offset 4) payload
    let entry ← r.entry tag target
    let ⟨after, _⟩ ← advance offset 8
    let rest ← r.entries after
    return entry :: rest
termination_by limit - offset
decreasing_by omega

end Relocator

/-- The table of an area that starts at `offset` and ends with the data. -/
def decode (data : ByteArray) (order : ByteOrder) (offset size : Nat) :
    Guarded DecodingFailure Table := do
  let head ← (readU32 data offset order).mapError DecodingFailure.ofTruncated
  let r : Relocator := ⟨data, order, head &&& pageMask, offset⟩
  let first ← r.rebase offset head
  let entries ← r.entries first
  return ⟨order, r.linkBase, offset, size, first, entries⟩

/-- The table of the area in the `size` bytes of `buffer` from `offset` on. -/
def relocate (horizon : Nat) (buffer : ByteArray) (offset size : Nat) :
    Guarded RelocationFailure Table :=
  match (add offset size).filter (· ≤ buffer.size) with
  | none => throw (.regionOutOfBounds offset size buffer.size)
  | some stop => do
    let region ← slice buffer offset stop
    let order ← ExceptT.adapt .notAConfigTable (detect horizon region)
    let data ← slice buffer 0 stop
    ExceptT.adapt .undecodable (decode data order offset size)

end ConfigArea.Guarded
