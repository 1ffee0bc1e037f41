import ConfigArea.Detection
import ConfigArea.Outcome
import ConfigArea.Table

/-!
# Relocation

Every pointer of an area is an address for which it was linked. Relocation subtracts the link-time
address of the area from each one, adds the offset at which the area lies in the buffer, and
decodes what is there:

    offset in the buffer = pointer - link-time address of the area + offset of the area

An area is decoded in the buffer that holds it, cut where the area ends. So no read goes on past
its end, and it is the check of the pointers that keeps reads away from what lies before it.

* `relocate_eq_ok_iff`: which tables relocation gives
-/

namespace ConfigArea

/-- The reason the contents of an area cannot be decoded. -/
inductive DecodingFailure where
  /-- the pointer stored at `offset` addresses nothing inside the area -/
  | danglingPointer (offset : Nat) (pointer : UInt32)
  /-- what lies at `offset` goes on past the end of the area -/
  | truncatedRecord (offset needed : Nat)
  deriving DecidableEq

namespace DecodingFailure

/-- The text that reports the reason. -/
def message : DecodingFailure → String
  | danglingPointer offset pointer =>
    s!"pointer {Hex.address pointer} at {Hex.number offset} falls outside the area"
  | truncatedRecord offset needed =>
    s!"record at {Hex.number offset} extends past the area end, needed {needed} bytes"

/-- The reason in a buffer in which the area lies `n` bytes further on. -/
def shift (n : Nat) : DecodingFailure → DecodingFailure
  | danglingPointer offset pointer => .danglingPointer (offset + n) pointer
  | truncatedRecord offset needed => .truncatedRecord (offset + n) needed

/-- A read past the end of the area. -/
def ofTruncated (t : Truncated) : DecodingFailure :=
  .truncatedRecord t.offset t.needed

/-- Moving a failure twice moves it by the sum. -/
@[simp] theorem shift_shift (reason : DecodingFailure) (m n : Nat) :
    (reason.shift m).shift n = reason.shift (m + n) := by
  cases reason <;> simp only [shift, Nat.add_assoc]

end DecodingFailure

/-- A part of a buffer taken for an area. -/
structure Area where
  /-- of the buffer, up to the end of the area -/
  bytes : ByteArray
  order : ByteOrder
  /-- where the area starts in the buffer -/
  start : Nat

/-- What an entry says about the end of the array. -/
inductive Ending where
  /-- its payload is null -/
  | nullPayload
  /-- its tag is the terminator's -/
  | lastTag
  /-- its tag is above the terminator's -/
  | unknownTag
  deriving DecidableEq

/-- Why the array ends at an entry, if it does. A null payload counts before the tag. -/
def Slot.ending? (s : Slot) : Option Ending :=
  if s.payload = 0 then some .nullPayload
  else if s.tag = Tag.lastRaw then some .lastTag
  else if Tag.lastRaw < s.tag then some .unknownTag
  else none

namespace Area

/-- The area in the `size` bytes of `buffer` from `offset` on, read in the given order. -/
def ofBuffer (order : ByteOrder) (buffer : ByteArray) (offset size : Nat) : Area :=
  ⟨buffer.extract 0 (offset + size), order, offset⟩

/-- The pointer with which the area starts, to its entries. -/
def head (a : Area) : UInt32 :=
  (a.bytes.wordAt a.start).value a.order

/-- The address for which the area was linked. -/
def linkBase (a : Area) : UInt32 :=
  ConfigArea.linkBase a.head

/-- The number at `offset`. -/
def read (a : Area) (offset : Nat) : Except DecodingFailure UInt32 :=
  (a.bytes.readU32 offset a.order).mapError .ofTruncated

/-- The offset that the pointer stored at `cell` addresses. -/
def resolve (a : Area) (cell : Nat) (pointer : UInt32) : Except DecodingFailure Nat :=
  if a.linkBase ≤ pointer ∧ a.start + (pointer - a.linkBase).toNat < a.bytes.size then
    .ok (a.start + (pointer - a.linkBase).toNat)
  else .error (.danglingPointer cell pointer)

/-- A number is read exactly where its four bytes end inside the area. -/
theorem read_eq_ok_iff {a : Area} {offset : Nat} {v : UInt32} :
    a.read offset = .ok v ↔
      offset + 4 ≤ a.bytes.size ∧ (a.bytes.wordAt offset).value a.order = v := by
  rw [read, mapError_eq_ok, ByteArray.readU32_eq_ok_iff]

/-- The entry stored at `offset`. -/
def slot (a : Area) (offset : Nat) : Except DecodingFailure Slot := do
  let tag ← a.read offset
  let payload ← a.read (offset + 4)
  return ⟨offset, tag, payload⟩

/-- An entry is read exactly where its eight bytes end inside the area. -/
theorem slot_eq_ok_iff {a : Area} {offset : Nat} {s : Slot} :
    a.slot offset = .ok s ↔ offset + 8 ≤ a.bytes.size ∧
      s = ⟨offset, (a.bytes.wordAt offset).value a.order,
        (a.bytes.wordAt (offset + 4)).value a.order⟩ := by
  simp only [slot, bind_eq_ok, read_eq_ok_iff, pure, Except.pure, Except.ok.injEq]
  constructor
  · rintro ⟨tag, ⟨-, rfl⟩, payload, ⟨h, rfl⟩, rfl⟩
    exact ⟨h, rfl⟩
  · rintro ⟨h, rfl⟩
    exact ⟨_, ⟨by omega, rfl⟩, _, ⟨h, rfl⟩, rfl⟩

/-- The reservation whose record is at `offset` and starts with a pointer to its name. -/
def reservation (a : Area) (offset : Nat) (namePointer : UInt32) :
    Except DecodingFailure Reservation := do
  -- the whole record is read before its pointer is followed
  let size ← a.read (offset + 4)
  let nameOffset ← a.resolve offset namePointer
  let name ← (a.bytes.readCString nameOffset).mapError .ofTruncated
  return ⟨name, size⟩

/-- The reservations at `offset`, up to the record without a name. -/
def reservations (a : Area) (offset : Nat) : Except DecodingFailure (List Reservation) :=
  match _h : a.read offset with
  | .error e => .error e
  | .ok namePointer =>
    -- the last record has no name, and its size is not looked at
    if namePointer = 0 then .ok []
    else
      match a.reservation offset namePointer with
      | .error e => .error e
      | .ok m => (a.reservations (offset + 8)).map (m :: ·)
termination_by a.bytes.size - offset
decreasing_by have := (read_eq_ok_iff.1 _h).1; omega

/-- One step of reading reservations. -/
theorem reservations_eq_bind (a : Area) (i : Nat) :
    a.reservations i = a.read i >>= fun pointer =>
      if pointer = 0 then .ok []
      else a.reservation i pointer >>= fun m => (a.reservations (i + 8)).map (m :: ·) := by
  rw [reservations]
  split
  · rename_i e he
    rw [he, error_bind]
  · rename_i pointer hpointer
    rw [hpointer, ok_bind]
    split
    · rfl
    · cases a.reservation i pointer <;> rfl

/-- The device tree at `offset`, as long as its header says. -/
def deviceTree (a : Area) (subrev : UInt8) (offset : Nat) : Except Truncated DeviceTree := do
  let size ← deviceTreeSize a.bytes offset
  let blob ← a.bytes.readSlice offset size.toNat
  return ⟨subrev, offset, blob⟩

/-- What the payload at `offset` is for an entry with the given tag. -/
def payload (a : Area) (tag : Tag) (offset : Nat) : Except DecodingFailure Entry :=
  match tag with
  | .moduleMemory => (a.reservations offset).map .reservations
  | .versionInfo => ((Version.read a.bytes offset).mapError .ofTruncated).map .version
  | .deviceTree subrev => ((a.deviceTree subrev offset).mapError .ofTruncated).map .deviceTree
  | tag => .ok (.uninterpreted tag offset)

/-- The entry with its payload. -/
def entry (a : Area) (s : Slot) : Except DecodingFailure Entry := do
  let target ← a.resolve s.payloadOffset s.payload
  a.payload (.ofRaw s.tag) target

/-- The entries of the array at `offset`, up to the one that ends it. -/
def entries (a : Area) (offset : Nat) : Except DecodingFailure (List Entry) :=
  match _h : a.slot offset with
  | .error e => .error e
  | .ok s =>
    match s.ending? with
    | some _ => .ok []
    | none =>
      match a.entry s with
      | .error e => .error e
      | .ok x => (a.entries (offset + 8)).map (x :: ·)
termination_by a.bytes.size - offset
decreasing_by have := (slot_eq_ok_iff.1 _h).1; omega

/-- One step of decoding entries. -/
theorem entries_eq_bind (a : Area) (i : Nat) :
    a.entries i = a.slot i >>= fun s =>
      match s.ending? with
      | some _ => .ok []
      | none => a.entry s >>= fun x => (a.entries (i + 8)).map (x :: ·) := by
  rw [entries]
  split
  · rename_i e he
    rw [he, error_bind]
  · rename_i s hs
    rw [hs, ok_bind]
    -- the slot that ends the array, and a slot with an entry
    cases s.ending? with
    | some reason => rfl
    | none => cases a.entry s <;> rfl

/-- The table of the area. -/
def decode (a : Area) : Except DecodingFailure Table := do
  -- the area starts with the pointer to its entries
  let head ← a.read a.start
  let first ← a.resolve a.start head
  let entries ← a.entries first
  return ⟨a.order, a.linkBase, a.start, a.bytes.size - a.start, first, entries⟩

end Area

/-- The reason a part of a buffer cannot be relocated. -/
inductive RelocationFailure where
  | notAConfigTable (reason : DetectionFailure)
  | undecodable (reason : DecodingFailure)
  /-- the region does not end inside the buffer -/
  | regionOutOfBounds (offset size bufferSize : Nat)
  deriving DecidableEq

namespace RelocationFailure

/-- The text that reports the reason. -/
def message : RelocationFailure → String
  | notAConfigTable reason => s!"not a config table: {reason.message}"
  | undecodable reason => reason.message
  | regionOutOfBounds offset size bufferSize =>
    s!"region {Hex.number offset}+{Hex.number size} exceeds the buffer of " ++
      s!"{Hex.number bufferSize} bytes"

/-- The reason in a buffer in which the region lies `n` bytes further on. -/
def shift (n : Nat) : RelocationFailure → RelocationFailure
  | undecodable reason => .undecodable (reason.shift n)
  | reason => reason

/-- Moving a failure twice moves it by the sum. -/
@[simp] theorem shift_shift (reason : RelocationFailure) (m n : Nat) :
    (reason.shift m).shift n = reason.shift (m + n) := by
  cases reason <;> simp only [shift, DecodingFailure.shift_shift]

end RelocationFailure

/-- The table of the area in the `size` bytes of `buffer` from `offset` on, which starts with the
table pointer. -/
def relocate (horizon : Nat) (buffer : ByteArray) (offset size : Nat) :
    Except RelocationFailure Table :=
  if offset + size ≤ buffer.size then
    match detect horizon (buffer.extract offset (offset + size)) with
    | .error reason => .error (.notAConfigTable reason)
    | .ok order => (Area.ofBuffer order buffer offset size).decode.mapError .undecodable
  else .error (.regionOutOfBounds offset size buffer.size)

/-- Relocation of an accepted region decodes the area. -/
theorem relocate_of_detect {horizon : Nat} {buffer : ByteArray} {offset size : Nat}
    {order : ByteOrder} (hfit : offset + size ≤ buffer.size)
    (h : detect horizon (buffer.extract offset (offset + size)) = .ok order) :
    relocate horizon buffer offset size =
      (Area.ofBuffer order buffer offset size).decode.mapError .undecodable := by
  rw [relocate, if_pos hfit, h]

/-- Relocation gives the tables of accepted regions inside the buffer. -/
theorem relocate_eq_ok_iff {horizon : Nat} {buffer : ByteArray} {offset size : Nat} {t : Table} :
    relocate horizon buffer offset size = .ok t ↔
      offset + size ≤ buffer.size ∧
        ∃ order, detect horizon (buffer.extract offset (offset + size)) = .ok order ∧
          (Area.ofBuffer order buffer offset size).decode = .ok t := by
  by_cases hfit : offset + size ≤ buffer.size
  · cases h : detect horizon (buffer.extract offset (offset + size)) with
    | error reason => simp [relocate, hfit, h]
    | ok order => simp [relocate_of_detect hfit h, mapError_eq_ok, hfit]
  · -- a region that is not inside is refused before it is looked at
    simp [relocate, hfit]

end ConfigArea
