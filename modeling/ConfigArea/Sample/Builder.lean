import ConfigArea.Bytes
import ConfigArea.DeviceTree.Minimal

/-!
# Building areas

An area put together from its entries: the table pointer at its start, the entry array behind it,
then the payloads, each aligned to sixteen bytes. Building fails where something does not fit into
the size asked for, or where a pointer would be above the last address.

* `Builder.size_build?`: an area that is built has the size asked for
-/

namespace ConfigArea

/-- The payload of an entry to build. -/
inductive Payload where
  /-- names and sizes of reservations -/
  | reservations (reservations : List (ByteArray × UInt32))
  /-- the texts of a version record -/
  | version (buildNumber sourceRevision firmware : ByteArray)
  /-- bytes that stand as they are, such as a device tree -/
  | raw (bytes : ByteArray)

/-- An area to build. -/
structure Builder where
  order : ByteOrder
  size : Nat := 0x2000
  terminatorTag : UInt32 := 16
  entries : List (UInt32 × Payload) := []

/-- The smallest multiple of `alignment` that is not below `value`. -/
def alignUp (value alignment : Nat) : Nat :=
  (value + alignment - 1) / alignment * alignment

namespace Builder

/-- The address for which areas are linked. -/
def linkBase : UInt32 := 0x80432000

/-- Where the entry array starts. -/
abbrev entriesOffset : Nat := 16

/-- The address of what lies at `offset`. -/
def pointer (offset : Nat) : UInt32 :=
  linkBase + .ofNat offset

/-- Write a number. -/
def putU32 (order : ByteOrder) (area : ByteArray) (offset : Nat) (v : UInt32) :
    Option ByteArray :=
  area.put? offset (Word.encode v order).toBytes

/-- Write the address of what lies at `target`, if the addresses go on that far. -/
def putPointer (order : ByteOrder) (area : ByteArray) (offset target : Nat) : Option ByteArray :=
  if linkBase.toNat + target % 0x100000000 < 0x100000000 then
    putU32 order area offset (pointer target)
  else none

/-- The end of the entry array. -/
def tableEnd (b : Builder) : Nat :=
  entriesOffset + (b.entries.length + 1) * 8

/-- Where the first payload goes. -/
def firstPayloadOffset (b : Builder) : Nat :=
  alignUp b.tableEnd 16

/-- Write the records of reservations from `offset` on, and their names from `nameOffset` on. Gives
the offset after the last name as well. -/
def putReservations (order : ByteOrder) (offset nameOffset : Nat) (area : ByteArray) :
    List (ByteArray × UInt32) → Option (ByteArray × Nat)
  | [] => some (area, nameOffset)
  | (name, size) :: rest => do
    let area ← putPointer order area offset nameOffset
    let area ← putU32 order area (offset + 4) size
    let area ← area.put? nameOffset name
    putReservations order (offset + 8) (alignUp (nameOffset + name.size + 1) 4) area rest

/-- Write a payload at `offset`. Gives the offset after it as well. -/
def putPayload (order : ByteOrder) (offset : Nat) (area : ByteArray) :
    Payload → Option (ByteArray × Nat)
  -- the names follow the record that ends the reservations
  | .reservations rs => putReservations order offset (offset + (rs.length + 1) * 8) area rs
  | .version buildNumber sourceRevision firmware => do
    let area ← area.put? offset buildNumber
    let area ← area.put? (offset + 32) sourceRevision
    let area ← area.put? (offset + 64) firmware
    return (area, offset + 192)
  | .raw bytes => do
    let area ← area.put? offset bytes
    return (area, offset + bytes.size)

/-- Write entries into the array from `offset` on, and their payloads from `target` on. -/
def putEntries (order : ByteOrder) (offset target : Nat) (area : ByteArray) :
    List (UInt32 × Payload) → Option ByteArray
  | [] => some area
  | (tag, payload) :: entries => do
    let area ← putU32 order area offset tag
    let area ← putPointer order area (offset + 4) target
    let (area, stop) ← putPayload order target area payload
    putEntries order (offset + 8) (alignUp stop 16) area entries

/-- The area, or nothing if it does not fit into its size or below the last address. -/
def build? (b : Builder) : Option ByteArray := do
  let area ← putPointer b.order (.replicate b.size 0) 0 entriesOffset
  let area ← putEntries b.order entriesOffset b.firstPayloadOffset area b.entries
  putU32 b.order area (b.tableEnd - 8) b.terminatorTag

/-- Writing a number keeps the size. -/
theorem size_putU32 {order : ByteOrder} {area r : ByteArray} {offset : Nat} {v : UInt32}
    (h : putU32 order area offset v = some r) : r.size = area.size :=
  ByteArray.size_put? h

/-- A pointer is written as a number. -/
theorem putPointer_eq_some_iff {order : ByteOrder} {area r : ByteArray} {offset target : Nat} :
    putPointer order area offset target = some r ↔
      linkBase.toNat + target % 0x100000000 < 0x100000000 ∧
        putU32 order area offset (pointer target) = some r := by
  rw [putPointer]
  split <;> simp [*]

/-- Writing a pointer keeps the size. -/
theorem size_putPointer {order : ByteOrder} {area r : ByteArray} {offset target : Nat}
    (h : putPointer order area offset target = some r) : r.size = area.size :=
  size_putU32 (putPointer_eq_some_iff.1 h).2

/-- Writing reservations keeps the size. -/
theorem size_putReservations {order : ByteOrder} {offset nameOffset stop : Nat}
    {area r : ByteArray} {rs : List (ByteArray × UInt32)}
    (h : putReservations order offset nameOffset area rs = some (r, stop)) :
    r.size = area.size := by
  induction rs generalizing offset nameOffset area with
  | nil =>
    simp only [putReservations, Option.some.injEq, Prod.mk.injEq] at h
    rw [h.1]
  | cons m rs ih =>
    -- a record is a pointer, a number and a name, and the others follow
    obtain ⟨name, size⟩ := m
    simp only [putReservations, Option.bind_eq_bind, Option.bind_eq_some_iff] at h
    obtain ⟨a₁, h₁, a₂, h₂, a₃, h₃, h⟩ := h
    rw [ih h, ByteArray.size_put? h₃, size_putU32 h₂, size_putPointer h₁]

/-- Writing a payload keeps the size. -/
theorem size_putPayload {order : ByteOrder} {offset stop : Nat} {area r : ByteArray}
    {p : Payload} (h : putPayload order offset area p = some (r, stop)) : r.size = area.size := by
  cases p with
  | reservations rs => exact size_putReservations h
  | version buildNumber sourceRevision firmware =>
    simp only [putPayload, Option.bind_eq_bind, Option.bind_eq_some_iff, Option.pure_def,
      Option.some.injEq, Prod.mk.injEq] at h
    obtain ⟨a₁, h₁, a₂, h₂, a₃, h₃, h, -⟩ := h
    rw [← h, ByteArray.size_put? h₃, ByteArray.size_put? h₂, ByteArray.size_put? h₁]
  | raw bytes =>
    simp only [putPayload, Option.bind_eq_bind, Option.bind_eq_some_iff, Option.pure_def,
      Option.some.injEq, Prod.mk.injEq] at h
    obtain ⟨a₁, h₁, h, -⟩ := h
    rw [← h, ByteArray.size_put? h₁]

/-- Writing entries keeps the size. -/
theorem size_putEntries {order : ByteOrder} {offset target : Nat} {area r : ByteArray}
    {entries : List (UInt32 × Payload)}
    (h : putEntries order offset target area entries = some r) : r.size = area.size := by
  induction entries generalizing offset target area with
  | nil =>
    simp only [putEntries, Option.some.injEq] at h
    rw [h]
  | cons e entries ih =>
    -- an entry is a tag, a pointer and its payload, and the others follow
    obtain ⟨tag, payload⟩ := e
    simp only [putEntries, Option.bind_eq_bind, Option.bind_eq_some_iff] at h
    obtain ⟨a₁, h₁, a₂, h₂, ⟨a₃, stop⟩, h₃, h⟩ := h
    rw [ih h, size_putPayload h₃, size_putPointer h₂, size_putU32 h₁]

/-- Every write keeps the size, so an area has the size asked for. -/
theorem size_build? {b : Builder} {area : ByteArray} (h : b.build? = some area) :
    area.size = b.size := by
  simp only [build?, Option.bind_eq_bind, Option.bind_eq_some_iff] at h
  obtain ⟨a₁, h₁, a₂, h₂, h₃⟩ := h
  rw [size_putU32 h₃, size_putEntries h₂, size_putPointer h₁, ByteArray.size_replicate]

end Builder

/-- The byte around embedded areas. -/
def filler : UInt8 := 0x5a

/-- An image of `len` bytes with an area at `offset`, or nothing if the area does not fit. -/
def embed? (area : ByteArray) (offset len : Nat) : Option ByteArray :=
  (ByteArray.replicate len filler).put? offset area

end ConfigArea
