import ConfigArea.Proofs.Relocation.Walk

/-!
# Moving an area

An area is decoded in the buffer that holds it, with offsets that count from the start of the
buffer. This file compares that with decoding the area cut out of its buffer: the two go along with
each other, read by read and failure by failure, and every offset differs by the place of the area.
So neither what is before an area nor what is behind it has a part in what is decoded.

## Key results

- `Area.decode_eq_carry_alone`: an area is decoded as the area cut out of its buffer is
- `relocate_eq_carry_extract`: a region is relocated as the region taken by itself is
- `relocate_append`: what surrounds a region shifts the offsets and does nothing else
-/

namespace ConfigArea

/-- The failed read in bytes in which those read lie `n` further on. -/
def Truncated.shift (n : Nat) (t : Truncated) : Truncated :=
  { t with offset := t.offset + n }

end ConfigArea

/-! ## Reads in a buffer and in its rest -/

namespace ByteArray

open ConfigArea

variable {b : ByteArray} {n : Nat}

/-- The bytes of the rest, counted from its start. -/
theorem byteAt_drop (i : Nat) : (b.extract n b.size).byteAt i = b.byteAt (i + n) := by
  by_cases h : n + i < b.size
  · rw [byteAt_extract h, Nat.add_comm]
  · -- neither has the byte
    have hrest : (b.extract n b.size).size ≤ i := by
      rw [size_extract]
      omega
    rw [byteAt_of_le hrest, byteAt_of_le (by omega)]

/-- The words of the rest, counted from its start. -/
theorem wordAt_drop (i : Nat) : (b.extract n b.size).wordAt i = b.wordAt (i + n) := by
  apply wordAt_congr
  intro k _
  rw [byteAt_drop, Nat.add_right_comm]

/-- The rest has the bytes that are left. -/
theorem size_drop : (b.extract n b.size).size = b.size - n := by
  rw [size_extract, Nat.min_self]

/-- A part of the rest is the part of the whole that lies further on. -/
theorem extract_drop {i j : Nat} (h : j + n ≤ b.size) :
    (b.extract n b.size).extract i j = b.extract (i + n) (j + n) := by
  rw [extract_extract, Nat.min_eq_left (by omega), Nat.add_comm n, Nat.add_comm n]

/-- A number is read in the whole as it is in the rest, but for the offset of a failure. -/
theorem readU32_add (i : Nat) (order : ByteOrder) :
    b.readU32 (i + n) order =
      carry (Truncated.shift n) id ((b.extract n b.size).readU32 i order) := by
  rw [readU32, readU32, size_drop, wordAt_drop]
  by_cases h : i + n + 4 ≤ b.size
  · -- it ends inside both or neither
    rw [if_pos h, if_pos (by omega)]
    rfl
  · rw [if_neg h, if_neg (by omega)]
    rfl

/-- A slice is read in the whole as it is in the rest, but for the offset of a failure. -/
theorem readSlice_add {i len : Nat} (h : i + n ≤ b.size) :
    b.readSlice (i + n) len =
      carry (Truncated.shift n) id ((b.extract n b.size).readSlice i len) := by
  rw [readSlice, readSlice, size_drop]
  by_cases hlen : i + n + len ≤ b.size
  · rw [if_pos hlen, if_pos (by omega), extract_drop (by omega), Nat.add_right_comm]
    rfl
  · rw [if_neg hlen, if_neg (by omega)]
    rfl

/-- A string is read in the whole as it is in the rest, but for the offset of a failure. -/
theorem readCString_add {i : Nat} (h : i + n ≤ b.size) :
    b.readCString (i + n) = carry (Truncated.shift n) id ((b.extract n b.size).readCString i) := by
  -- the first zero byte of the whole is that of the rest, further on
  have hsearch : firstIndex (fun j => b.byteAt j == 0) (i + n) b.size =
      (firstIndex (fun j => (b.extract n b.size).byteAt j == 0) i (b.size - n)).map (· + n) := by
    have hmove := @firstIndex_add (fun j => b.byteAt j == 0) i (b.size - n) n
    rw [show b.size - n + n = b.size by omega] at hmove
    simp only [byteAt_drop, hmove]
  rw [readCString, readCString, if_pos h, if_pos (by rw [size_drop]; omega), hsearch, size_drop]
  cases hstop : firstIndex (fun j => (b.extract n b.size).byteAt j == 0) i (b.size - n) with
  | none =>
    -- what is missing is counted from the string on
    show Except.error (Truncated.mk (i + n) (b.size - (i + n) + 1)) =
      .error (Truncated.mk (i + n) (b.size - n - i + 1))
    rw [show b.size - (i + n) = b.size - n - i by omega]
  | some stop =>
    -- the string is the same part
    have hlt := (firstIndex_eq_some_iff.1 hstop).2.1
    show Except.ok (b.extract (i + n) (stop + n)) = .ok ((b.extract n b.size).extract i stop)
    rw [extract_drop (by omega)]

end ByteArray

namespace ConfigArea

/-- A read past the end lies as much further on as the bytes read do. -/
theorem mapError_ofTruncated_carry {α β : Type} (n : Nat) (g : α → β) (x : Except Truncated α) :
    (carry (Truncated.shift n) g x).mapError DecodingFailure.ofTruncated =
      carry (DecodingFailure.shift n) g (x.mapError DecodingFailure.ofTruncated) := by
  apply mapError_carry
  intro t
  rfl

/-- The device tree in a buffer in which it lies `n` bytes further on. -/
def DeviceTree.shift (n : Nat) (d : DeviceTree) : DeviceTree :=
  { d with offset := d.offset + n }

namespace Area

/-- The area cut out of its buffer. -/
def alone (a : Area) : Area :=
  ⟨a.bytes.extract a.start a.bytes.size, a.order, 0⟩

variable {a : Area}

/-- The area by itself has the bytes from its start on. -/
theorem size_alone : a.alone.bytes.size = a.bytes.size - a.start :=
  ByteArray.size_drop

/-- The area by itself was linked for the same address. -/
theorem linkBase_alone : a.alone.linkBase = a.linkBase := by
  have hword : a.alone.bytes.wordAt 0 = a.bytes.wordAt a.start := by
    rw [← Nat.zero_add a.start]
    exact ByteArray.wordAt_drop 0
  rw [linkBase, linkBase, head, head, ← hword]
  rfl

/-! ## Fields -/

/-- A number of the area is that of the area by itself. -/
theorem read_add_start (i : Nat) :
    a.read (i + a.start) = carry (DecodingFailure.shift a.start) id (a.alone.read i) := by
  rw [read, ByteArray.readU32_add, mapError_ofTruncated_carry]
  rfl

/-- The target of a pointer lies as far from the start of the area. -/
theorem resolve_add_start (cell : Nat) (pointer : UInt32) :
    a.resolve (cell + a.start) pointer =
      carry (DecodingFailure.shift a.start) (· + a.start) (a.alone.resolve cell pointer) := by
  rw [resolve_eq, resolve_eq, linkBase_alone, size_alone, show a.alone.start = 0 from rfl]
  by_cases h : a.linkBase.toNat ≤ pointer.toNat ∧
      a.start + (pointer.toNat - a.linkBase.toNat) < a.bytes.size
  · rw [if_pos h, if_pos (by omega), Nat.add_comm a.start, Nat.zero_add]
    rfl
  · rw [if_neg h, if_neg (by omega)]
    rfl

/-- What a pointer leads to lies in the bytes of the area. -/
theorem add_start_lt_of_resolve {cell target : Nat} {pointer : UInt32}
    (h : a.alone.resolve cell pointer = .ok target) : target + a.start < a.bytes.size := by
  have hlt := (resolve_eq_ok_iff.1 h).2.1
  rw [size_alone] at hlt
  omega

/-- An entry of the area is that of the area by itself, further on. -/
theorem slot_add_start (i : Nat) :
    a.slot (i + a.start) =
      carry (DecodingFailure.shift a.start) (Slot.shift a.start) (a.alone.slot i) := by
  rw [slot, slot, read_add_start, Nat.add_right_comm, read_add_start]
  apply carry_id_bind
  intro tag _
  apply carry_id_bind
  intro payload _
  rfl

/-! ## Records -/

/-- A reservation of the area is that of the area by itself. -/
theorem reservation_add_start (i : Nat) (pointer : UInt32) :
    a.reservation (i + a.start) pointer =
      carry (DecodingFailure.shift a.start) id (a.alone.reservation i pointer) := by
  rw [reservation, reservation, Nat.add_right_comm, read_add_start, resolve_add_start]
  apply carry_id_bind
  intro size _
  apply carry_bind
  intro target htarget
  -- the name is looked for in the bytes of the area, which the pointer does not leave
  rw [ByteArray.readCString_add (Nat.le_of_lt (add_start_lt_of_resolve htarget)),
    mapError_ofTruncated_carry]
  apply carry_id_bind
  intro name _
  rfl

/-- The reservations of the area are those of the area by itself. -/
theorem reservations_add_start (i : Nat) :
    a.reservations (i + a.start) =
      carry (DecodingFailure.shift a.start) id (a.alone.reservations i) := by
  -- Induction on the room that is left behind the record, which reading the record shows there to
  -- be.
  rw [reservations_eq_bind, reservations_eq_bind a.alone, read_add_start]
  apply carry_id_bind
  intro pointer hread
  have hroom := (read_eq_ok_iff.1 hread).1
  split
  · rfl
  · rw [reservation_add_start]
    apply carry_id_bind
    intro m _
    rw [Nat.add_right_comm, reservations_add_start (i + 8)]
    apply map_carry
    intro ms
    rfl
termination_by a.alone.bytes.size - i

/-- A version record of the area is that of the area by itself. -/
theorem version_add_start {i : Nat} (hi : i + a.start < a.bytes.size) :
    Version.read a.bytes (i + a.start) =
      carry (Truncated.shift a.start) id (Version.read a.alone.bytes i) := by
  rw [Version.read, ByteArray.readSlice_add (Nat.le_of_lt hi)]
  apply map_carry
  intro record
  rfl

/-- The offset of the size of a device tree does not stop at the last one there is, since the bytes
of the area go less far. -/
theorem deviceTreeSize_add_start (hsize : a.bytes.size < 0x8000000000000000) {i : Nat}
    (hi : i + a.start < a.bytes.size) :
    deviceTreeSize a.bytes (i + a.start) =
      carry (Truncated.shift a.start) id (deviceTreeSize a.alone.bytes i) := by
  rw [deviceTreeSize, deviceTreeSize, lastOffset, Nat.min_eq_left (by omega),
    Nat.min_eq_left (by omega), Nat.add_right_comm]
  exact ByteArray.readU32_add _ _

/-- A device tree of the area is that of the area by itself, further on. -/
theorem deviceTree_add_start (hsize : a.bytes.size < 0x8000000000000000) {subrev : UInt8} {i : Nat}
    (hi : i + a.start < a.bytes.size) :
    a.deviceTree subrev (i + a.start) =
      carry (Truncated.shift a.start) (DeviceTree.shift a.start) (a.alone.deviceTree subrev i) := by
  rw [deviceTree, deviceTree, deviceTreeSize_add_start hsize hi]
  apply carry_id_bind
  intro size _
  rw [ByteArray.readSlice_add (Nat.le_of_lt hi)]
  apply carry_id_bind
  intro blob _
  rfl

/-- The payload is decoded record by record, and an offset is kept where there is no record. -/
theorem payload_add_start (hsize : a.bytes.size < 0x8000000000000000) (tag : Tag) {i : Nat}
    (hi : i + a.start < a.bytes.size) :
    a.payload tag (i + a.start) =
      carry (DecodingFailure.shift a.start) (Entry.shift a.start) (a.alone.payload tag i) := by
  unfold payload
  -- by the kind of record that the tag asks for
  split
  case h_1 =>
    rw [reservations_add_start]
    apply map_carry
    intro rs
    rfl
  case h_2 =>
    rw [version_add_start hi, mapError_ofTruncated_carry]
    apply map_carry
    intro v
    rfl
  case h_3 subrev =>
    rw [deviceTree_add_start hsize hi, mapError_ofTruncated_carry]
    apply map_carry
    intro d
    rfl
  case h_4 => rfl

/-! ## Entries -/

/-- What an entry points to is decoded as it is in the area by itself, but for the offsets. -/
theorem entry_add_start (hsize : a.bytes.size < 0x8000000000000000) (s : Slot) :
    a.entry (s.shift a.start) =
      carry (DecodingFailure.shift a.start) (Entry.shift a.start) (a.alone.entry s) := by
  have hcell : (s.shift a.start).payloadOffset = s.payloadOffset + a.start :=
    Nat.add_right_comm ..
  rw [entry, entry, hcell, show (s.shift a.start).payload = s.payload from rfl, resolve_add_start]
  apply carry_bind
  intro target htarget
  exact payload_add_start hsize _ (add_start_lt_of_resolve htarget)

/-- The entries of the area are those of the area by itself, further on. -/
theorem entries_add_start (hsize : a.bytes.size < 0x8000000000000000) (i : Nat) :
    a.entries (i + a.start) =
      carry (DecodingFailure.shift a.start) (List.map (Entry.shift a.start))
        (a.alone.entries i) := by
  -- As for reservations the induction is on the room behind the slot.
  rw [entries_eq_bind, entries_eq_bind a.alone, slot_add_start]
  apply carry_bind
  intro s hs
  have hroom := (slot_eq_ok_iff.1 hs).1
  rw [Slot.ending?_shift]
  split
  · rfl
  · rw [entry_add_start hsize]
    apply carry_bind
    intro x _
    rw [Nat.add_right_comm, entries_add_start hsize (i + 8)]
    apply map_carry
    intro xs
    rfl
termination_by a.alone.bytes.size - i

/-- An area is decoded as it is when it is cut out of its buffer, but for the offsets. -/
theorem decode_eq_carry_alone (hsize : a.bytes.size < 0x8000000000000000) :
    a.decode = carry (DecodingFailure.shift a.start) (Table.shift a.start) a.alone.decode := by
  -- the area starts at offset 0 of the area by itself
  have hread : a.read a.start = carry (DecodingFailure.shift a.start) id (a.alone.read 0) := by
    rw [← read_add_start, Nat.zero_add]
  have hresolve (head : UInt32) : a.resolve a.start head =
      carry (DecodingFailure.shift a.start) (· + a.start) (a.alone.resolve 0 head) := by
    rw [← resolve_add_start, Nat.zero_add]
  -- step by step: the table pointer, its target, the entries, and the table made of them
  rw [decode, decode, hread]
  apply carry_id_bind
  intro head _
  rw [hresolve]
  apply carry_bind
  intro first _
  rw [entries_add_start hsize]
  apply carry_bind
  intro es _
  rw [linkBase_alone, size_alone]
  show Except.ok (Table.mk a.order a.linkBase a.start (a.bytes.size - a.start) (first + a.start)
    (es.map (Entry.shift a.start))) = .ok (Table.mk a.order a.linkBase (0 + a.start)
      (a.bytes.size - a.start - 0) (first + a.start) (es.map (Entry.shift a.start)))
  rw [Nat.zero_add, Nat.sub_zero]

end Area

/-! ## Regions -/

/-- A region is relocated as it is when it is taken by itself, but for the offsets. -/
theorem relocate_eq_carry_extract {horizon : Nat} {buffer : ByteArray} {offset size : Nat}
    (hfit : offset + size ≤ buffer.size) (hsize : buffer.size < 0x8000000000000000) :
    relocate horizon buffer offset size =
      carry (RelocationFailure.shift offset) (Table.shift offset)
        (relocate horizon (buffer.extract offset (offset + size)) 0 size) := by
  -- the region by itself is all of its own buffer
  have hregion : (buffer.extract offset (offset + size)).size = size := by
    rw [ByteArray.size_extract]
    omega
  have hwhole : (buffer.extract offset (offset + size)).extract 0 (0 + size) =
      buffer.extract offset (offset + size) := by
    rw [ByteArray.extract_extract]
    simp only [Nat.add_zero, Nat.zero_add, Nat.min_self]
  have hend : (buffer.extract 0 (offset + size)).size = offset + size := by
    rw [ByteArray.size_extract]
    omega
  -- the area of the region by itself is that of the buffer, cut out
  have halone (order : ByteOrder) :
      Area.ofBuffer order (buffer.extract offset (offset + size)) 0 size =
        (Area.ofBuffer order buffer offset size).alone := by
    rw [Area.ofBuffer, hwhole, Area.alone, Area.ofBuffer]
    dsimp only
    rw [hend, ByteArray.extract_extract]
    simp only [Nat.zero_add, Nat.min_self]
  -- detection looks at the same bytes, and decoding goes along
  rw [relocate, relocate, if_pos hfit, if_pos (by omega), hwhole]
  cases detect horizon (buffer.extract offset (offset + size)) with
  | error reason => rfl
  | ok order =>
    dsimp only
    rw [halone, Area.decode_eq_carry_alone (by show (buffer.extract 0 _).size < _; omega)]
    apply mapError_carry
    intro reason
    rfl

/-- Wherever a region lies in a buffer, it is relocated as it is when it is taken by itself. -/
theorem relocate_append_eq_carry {horizon : Nat} {pre region suf : ByteArray}
    (h : (pre ++ region ++ suf).size < 0x8000000000000000) :
    relocate horizon (pre ++ region ++ suf) pre.size region.size =
      carry (RelocationFailure.shift pre.size) (Table.shift pre.size)
        (relocate horizon region 0 region.size) := by
  have hfit : pre.size + region.size ≤ (pre ++ region ++ suf).size := by
    rw [ByteArray.size_append, ByteArray.size_append]
    omega
  -- the part that is relocated is the region
  have hregion : (pre ++ region ++ suf).extract pre.size (pre.size + region.size) = region := by
    rw [ByteArray.append_assoc]
    have hsuffix := @ByteArray.extract_append_size_add pre (region ++ suf) 0 region.size
    rw [Nat.add_zero] at hsuffix
    rw [hsuffix, ByteArray.extract_append_eq_left rfl]
  rw [relocate_eq_carry_extract hfit h, hregion]

/-- A region that fits into its buffer is not out of bounds. -/
theorem relocate_ne_regionOutOfBounds {horizon : Nat} {buffer : ByteArray} {offset size : Nat}
    (hfit : offset + size ≤ buffer.size) (offset' size' bufferSize : Nat) :
    relocate horizon buffer offset size ≠
      .error (.regionOutOfBounds offset' size' bufferSize) := by
  intro he
  rw [relocate, if_pos hfit] at he
  split at he
  · cases he
  · obtain ⟨reason, -, hreason⟩ := mapError_eq_error.1 he
    cases hreason

/-- What surrounds a region has no part in what relocation gives: it is what the region by itself
gives, with every offset larger by the size of what lies before, in tables as in failures. A region
never lies out of bounds there. -/
theorem relocate_append {horizon : Nat} {pre region suf : ByteArray}
    (h : (pre ++ region ++ suf).size < 0x8000000000000000) :
    relocate horizon (pre ++ region ++ suf) pre.size region.size =
        ((relocate horizon region 0 region.size).map (Table.shift pre.size)).mapError
          (RelocationFailure.shift pre.size) ∧
      (∀ offset size bufferSize, relocate horizon region 0 region.size ≠
        .error (.regionOutOfBounds offset size bufferSize)) ∧
      ∀ pre' suf' : ByteArray, pre'.size = pre.size →
        (pre' ++ region ++ suf').size < 0x8000000000000000 →
        relocate horizon (pre' ++ region ++ suf') pre.size region.size =
          relocate horizon (pre ++ region ++ suf) pre.size region.size := by
  have hmove := @relocate_append_eq_carry horizon pre region suf h
  refine ⟨hmove, relocate_ne_regionOutOfBounds (by omega), ?_⟩
  -- other surroundings of the same size move the region by as much
  intro pre' suf' hpre h'
  have hmove' := @relocate_append_eq_carry horizon pre' region suf' h'
  rw [hpre] at hmove'
  rw [hmove', hmove]

/-- A region with one entry, the smallest device tree blob. -/
def regionWithBlob : ByteArray :=
  ⟨#[0x04, 0x20, 0x43, 0x80, 5, 0, 0, 0, 0x14, 0x20, 0x43, 0x80, 16, 0, 0, 0, 0, 0, 0, 0,
    0, 0, 0, 0, 0, 0, 0, 8]⟩

/-- The region has a table with one device tree. -/
theorem relocate_regionWithBlob :
    relocate 16384 regionWithBlob 0 28 = .ok ⟨.little, 0x80432000, 0, 28, 4,
      [.deviceTree ⟨0, 20, ⟨#[0, 0, 0, 0, 0, 0, 0, 8]⟩⟩]⟩ := by
  have hwalk : (Area.ofBuffer .little regionWithBlob 0 28).Passes 4 [⟨4, 5, 0x80432014⟩]
      ⟨12, 16, 0⟩ .nullPayload := .next rfl rfl (.ends rfl rfl)
  refine relocate_eq_ok_iff.2 ⟨by decide, .little, rfl, ?_⟩
  rw [Area.decode_of_passes rfl rfl hwalk]
  rfl

/-- With two bytes before it and one behind it the region has the same table, two bytes further
on. -/
theorem relocate_append_regionWithBlob :
    ((⟨#[0x5a, 0x5a]⟩ : ByteArray) ++ regionWithBlob ++ ⟨#[0x5a]⟩).size < 0x8000000000000000 ∧
      relocate 16384 (⟨#[0x5a, 0x5a]⟩ ++ regionWithBlob ++ ⟨#[0x5a]⟩) 2 28 =
        .ok ⟨.little, 0x80432000, 2, 28, 6,
          [.deviceTree ⟨0, 22, ⟨#[0, 0, 0, 0, 0, 0, 0, 8]⟩⟩]⟩ := by
  have hsize : ((⟨#[0x5a, 0x5a]⟩ : ByteArray) ++ regionWithBlob ++ ⟨#[0x5a]⟩).size <
      0x8000000000000000 := by decide
  have hmoved := (@relocate_append 16384 _ _ _ hsize).1
  rw [show regionWithBlob.size = 28 from rfl, relocate_regionWithBlob] at hmoved
  exact ⟨hsize, hmoved⟩

end ConfigArea
