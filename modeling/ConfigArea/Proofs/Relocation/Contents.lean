import ConfigArea.Proofs.Relocation.Walk

/-!
# What a region contains

A region of a buffer contains a table: entries one after the other, up to the first that ends the
array, and at the end of their payload pointers reservations, version records and device trees.
This file says what that means by the words and bytes of the buffer alone, and shows that
relocation gives exactly the table that an accepted region contains.

## Key results

- `Region.payload_eq_ok_iff`: decoding a record gives what lies there
- `Region.hasEntries_iff_of_passes`: the entries of a region are those that the walk passes
- `relocate_eq_ok_iff_hasTable`: relocation gives exactly the table that is in the region
-/

namespace ConfigArea

/-- Records of eight bytes that stand one after the other from offset `i` on, where `P` says what a
record is and `Q` what ends them. -/
structure Records {α : Type} (P : Nat → α → Prop) (Q : Nat → Prop) (i : Nat) (xs : List α) :
    Prop where
  record : ∀ k (h : k < xs.length), P (i + 8 * k) xs[k]
  last : Q (i + 8 * xs.length)

/-- The `size` bytes of `buffer` from `offset` on, with words that are read in `order`. -/
structure Region where
  buffer : ByteArray
  order : ByteOrder
  offset : Nat
  size : Nat

namespace Region

/-- The offset in the buffer at which the region ends. -/
def stop (r : Region) : Nat :=
  r.offset + r.size

/-- The number that the word at offset `i` of the buffer stands for. -/
def word (r : Region) (i : Nat) : Nat :=
  ((r.buffer.wordAt i).value r.order).toNat

/-- The first word of the region with its low twelve bits cleared. -/
def base (r : Region) : Nat :=
  r.word r.offset / 4096 * 4096

/-- The offset in the buffer for which the address `p` stands. -/
def locate (r : Region) (p : Nat) : Nat :=
  r.offset + (p - r.base)

/-- The address `p` is that of a byte of the region. -/
def Addresses (r : Region) (p : Nat) : Prop :=
  r.base ≤ p ∧ r.locate p < r.stop

/-- The string `s` stands at offset `i`: its bytes, none of which is zero, and a zero behind them
that is still in the region. -/
def HasString (r : Region) (i : Nat) (s : ByteArray) : Prop :=
  ∃ j, i ≤ j ∧ j < r.stop ∧ r.buffer.byteAt j = 0 ∧ (∀ k, i ≤ k → k < j → r.buffer.byteAt k ≠ 0) ∧
    s = r.buffer.extract i j

/-- The record of a reservation stands at offset `i`: a pointer to its name, and its size. -/
structure HasReservation (r : Region) (i : Nat) (m : Reservation) : Prop where
  inside : i + 8 ≤ r.stop
  pointer_ne : r.word i ≠ 0
  addresses : r.Addresses (r.word i)
  name : r.HasString (r.locate (r.word i)) m.name
  size : m.size.toNat = r.word (i + 4)

/-- The records of the reservations `rs` stand from offset `i` on, up to a null pointer. -/
def HasReservations (r : Region) : (i : Nat) → (rs : List Reservation) → Prop :=
  Records r.HasReservation fun j => j + 4 ≤ r.stop ∧ r.word j = 0

/-- The version record `v` stands at offset `i`, in 192 bytes. -/
structure HasVersion (r : Region) (i : Nat) (v : Version) : Prop where
  inside : i + 192 ≤ r.stop
  buildNumber : v.buildNumber = r.buffer.extract i (i + 32)
  sourceRevision : v.sourceRevision = r.buffer.extract (i + 32) (i + 64)
  firmware : v.firmware = r.buffer.extract (i + 64) (i + 192)

/-- The device tree `d` stands at offset `i`. Its second word, in big-endian order, is its size. -/
structure HasDeviceTree (r : Region) (i : Nat) (d : DeviceTree) : Prop where
  header_inside : i + 8 ≤ r.stop
  offset : d.offset = i
  size : d.blob.size = ((r.buffer.wordAt (i + 4)).value .big).toNat
  inside : i + d.blob.size ≤ r.stop
  blob : d.blob = r.buffer.extract i (i + d.blob.size)

/-- The entry `e`, whose tag has the ordinal `tag`, points to offset `i`. There is no such entry for
the ordinals 0 and 16 and above. -/
def HasEntry (r : Region) (i tag : Nat) : (e : Entry) → Prop
  | .reservations rs => tag = 1 ∧ r.HasReservations i rs
  | .version v => tag = 2 ∧ r.HasVersion i v
  | .deviceTree d => 5 ≤ tag ∧ tag ≤ 14 ∧ d.subrev.toNat = tag - 5 ∧ r.HasDeviceTree i d
  | .uninterpreted kind offset =>
    (tag = 3 ∧ kind = .hwConfig ∨ tag = 4 ∧ kind = .cacheConfig ∨ tag = 15 ∧ kind = .avmNet) ∧
      offset = i

/-- What an entry can point to has a tag from 1 to 15. -/
theorem HasEntry.tag_mem {r : Region} {i tag : Nat} {e : Entry} (h : r.HasEntry i tag e) :
    1 ≤ tag ∧ tag ≤ 15 := by
  cases e with
  | reservations rs => have := h.1; omega
  | version v => have := h.1; omega
  | deviceTree d => have := h.1; have := h.2.1; omega
  | uninterpreted kind offset => rcases h.1 with ⟨h, -⟩ | ⟨h, -⟩ | ⟨h, -⟩ <;> omega

/-- The tag of what an entry points to has the ordinal that is stored. -/
theorem HasEntry.raw_tag {r : Region} {i tag : Nat} {e : Entry} (h : r.HasEntry i tag e) :
    e.tag.raw.toNat = tag := by
  cases e with
  | reservations rs => rw [h.1]; rfl
  | version v => rw [h.1]; rfl
  | deviceTree d =>
    obtain ⟨h₅, h₁₄, hsub, -⟩ := h
    show (5 + d.subrev.toUInt32).toNat = tag
    simp only [UInt32.toNat_add, UInt8.toNat_toUInt32, hsub, UInt32.reduceToNat]
    omega
  | uninterpreted kind offset => rcases h.1 with ⟨h, hk⟩ | ⟨h, hk⟩ | ⟨h, hk⟩ <;> rw [h, hk] <;> rfl

/-- An entry stands at offset `i`: its tag, and a pointer to what it points to. -/
structure HasSlot (r : Region) (i : Nat) (e : Entry) : Prop where
  pointer_ne : r.word (i + 4) ≠ 0
  addresses : r.Addresses (r.word (i + 4))
  entry : r.HasEntry (r.locate (r.word (i + 4))) (r.word i) e

/-- The entries `es` stand from offset `i` on, up to a null pointer or the tag 16. -/
def HasEntries (r : Region) : (i : Nat) → (es : List Entry) → Prop :=
  Records r.HasSlot fun j => r.word (j + 4) = 0 ∨ r.word j = 16

/-- The table of the region: its first word leads to its entries. -/
structure HasTable (r : Region) (t : Table) : Prop where
  byteOrder : t.byteOrder = r.order
  linkBase : t.linkBase.toNat = r.base
  localBase : t.localBase = r.offset
  regionSize : t.regionSize = r.size
  entriesOffset : t.entriesOffset = r.locate (r.word r.offset)
  entries : r.HasEntries t.entriesOffset t.entries

end Region

namespace Records

variable {α : Type} {P : Nat → α → Prop} {Q : Nat → Prop} {i : Nat}

/-- No records stand where their end does. -/
theorem nil_iff : Records P Q i [] ↔ Q i :=
  ⟨fun h => h.last, fun h => ⟨fun _ hk => absurd hk (Nat.not_lt_zero _), h⟩⟩

/-- Records stand one after the other if the first does, and the others do behind it. -/
theorem cons_iff {x : α} {xs : List α} :
    Records P Q i (x :: xs) ↔ P i x ∧ Records P Q (i + 8) xs := by
  -- the end of the records is the end of those behind the first
  have hlast : i + 8 * (x :: xs).length = i + 8 + 8 * xs.length := by
    rw [List.length_cons]
    omega
  constructor
  · intro h
    refine ⟨h.record 0 (Nat.zero_lt_succ _), fun k hk => ?_, by rw [← hlast]; exact h.last⟩
    have := h.record (k + 1) (Nat.succ_lt_succ hk)
    rwa [show i + 8 * (k + 1) = i + 8 + 8 * k by omega] at this
  · intro h
    obtain ⟨hx, hxs⟩ := h
    refine ⟨fun k hk => ?_, by rw [hlast]; exact hxs.last⟩
    -- the record with number `k + 1` is the one with number `k` behind the first
    cases k with
    | zero => exact hx
    | succ k =>
      rw [show i + 8 * (k + 1) = i + 8 + 8 * k by omega]
      exact hxs.record k (Nat.lt_of_succ_lt_succ hk)

end Records

/-- One step of reading reservations. -/
theorem Area.reservations_eq_ok_iff {a : Area} {i : Nat} {rs : List Reservation} :
    a.reservations i = .ok rs ↔ ∃ pointer, a.read i = .ok pointer ∧
      (pointer = 0 ∧ rs = [] ∨
        pointer ≠ 0 ∧ ∃ m ms, a.reservation i pointer = .ok m ∧ a.reservations (i + 8) = .ok ms ∧
          rs = m :: ms) := by
  rw [reservations_eq_bind, bind_eq_ok]
  -- a null pointer ends the list, and any other is that of a record with others behind it
  refine exists_congr fun pointer => and_congr_right fun _ => ?_
  split
  · rename_i h₀
    simp [h₀, eq_comm]
  · rename_i hne
    simp only [bind_eq_ok, map_eq_ok, hne, false_and, false_or, ne_eq, not_false_eq_true, true_and,
      exists_and_left, eq_comm (a := rs)]

namespace Region

variable {r : Region}

/-! ## The cut buffer -/

/-- The region taken for an area. -/
def area (r : Region) : Area :=
  Area.ofBuffer r.order r.buffer r.offset r.size

/-- The area goes up to the end of the region. -/
theorem size_area (hfit : r.stop ≤ r.buffer.size) : r.area.bytes.size = r.stop := by
  show (r.buffer.extract 0 r.stop).size = r.stop
  rw [ByteArray.size_extract]
  omega

/-- The area has the bytes of the buffer up to the end of the region. -/
theorem byteAt_area {i : Nat} (h : i < r.stop) : r.area.bytes.byteAt i = r.buffer.byteAt i := by
  show (r.buffer.extract 0 r.stop).byteAt i = _
  rw [ByteArray.byteAt_extract (by omega), Nat.zero_add]

/-- The area has the words of the buffer that end inside the region. -/
theorem wordAt_area {i : Nat} (h : i + 4 ≤ r.stop) :
    r.area.bytes.wordAt i = r.buffer.wordAt i := by
  show (r.buffer.extract 0 r.stop).wordAt i = _
  rw [ByteArray.wordAt_extract (by omega), Nat.zero_add]

/-- The area has the parts of the buffer that end inside the region. -/
theorem extract_area {i j : Nat} (h : j ≤ r.stop) :
    r.area.bytes.extract i j = r.buffer.extract i j := by
  show (r.buffer.extract 0 r.stop).extract i j = _
  rw [ByteArray.extract_extract, Nat.zero_add, Nat.zero_add, Nat.min_eq_left h]

/-! ## Fields -/

/-- A number of the area is the word that lies there, inside the region. -/
theorem read_eq_ok_iff (hfit : r.stop ≤ r.buffer.size) {i : Nat} {v : UInt32} :
    r.area.read i = .ok v ↔ i + 4 ≤ r.stop ∧ v.toNat = r.word i := by
  rw [Area.read_eq_ok_iff, size_area hfit]
  apply and_congr_right
  intro h
  rw [wordAt_area h, ← UInt32.toNat_inj]
  exact eq_comm

/-- The link-time address of the area is the base of the region. -/
theorem toNat_linkBase_area (h : r.offset + 4 ≤ r.stop) : r.area.linkBase.toNat = r.base := by
  have hhead : r.area.head = (r.buffer.wordAt r.offset).value r.order := by
    show (r.area.bytes.wordAt r.offset).value r.order = _
    rw [wordAt_area h]
  rw [Area.linkBase, toNat_linkBase, hhead]
  show r.word r.offset - r.word r.offset % 4096 = r.word r.offset / 4096 * 4096
  omega

/-- A pointer is resolved exactly if it addresses a byte of the region, to the place of that
byte. -/
theorem resolve_eq_ok_iff (hfit : r.stop ≤ r.buffer.size) (hhead : r.offset + 4 ≤ r.stop)
    {cell target : Nat} {pointer : UInt32} :
    r.area.resolve cell pointer = .ok target ↔
      r.Addresses pointer.toNat ∧ target = r.locate pointer.toNat := by
  rw [Area.resolve_eq_ok_iff, toNat_linkBase_area hhead, size_area hfit]
  -- a pointer is followed if it is an address of the region, and nowhere else
  constructor
  · intro h
    obtain ⟨hle, hlt, htarget⟩ := h
    subst htarget
    exact ⟨⟨hle, hlt⟩, rfl⟩
  · intro h
    obtain ⟨⟨hle, hlt⟩, htarget⟩ := h
    subst htarget
    exact ⟨hle, hlt, rfl⟩

/-- A string of the area is one that stands in the region. -/
theorem readCString_eq_ok_iff (hfit : r.stop ≤ r.buffer.size) {i : Nat} {s : ByteArray} :
    r.area.bytes.readCString i = .ok s ↔ r.HasString i s := by
  rw [ByteArray.readCString_eq_ok_iff, size_area hfit]
  apply exists_congr
  intro j
  apply and_congr_right
  intro _
  apply and_congr_right
  intro hj
  -- the zero byte lies in the region, and so do the bytes before it
  rw [byteAt_area hj, extract_area (Nat.le_of_lt hj), eq_comm (b := s)]
  refine and_congr_right fun _ => and_congr_left fun _ => ?_
  refine forall_congr' fun k => forall_congr' fun _ => forall_congr' fun hk => ?_
  rw [byteAt_area (by omega)]

/-! ## Records -/

/-- A reservation is decoded exactly where its record stands. -/
theorem reservation_eq_ok_iff (hfit : r.stop ≤ r.buffer.size) (hhead : r.offset + 4 ≤ r.stop)
    {i : Nat} {pointer : UInt32} {m : Reservation} (hread : r.area.read i = .ok pointer)
    (hne : pointer ≠ 0) :
    r.area.reservation i pointer = .ok m ↔ r.HasReservation i m := by
  obtain ⟨hi, hpointer⟩ := (read_eq_ok_iff hfit).1 hread
  -- three steps, each with its own part of the record
  simp only [Area.reservation, bind_eq_ok, mapError_eq_ok, read_eq_ok_iff hfit,
    resolve_eq_ok_iff hfit hhead, readCString_eq_ok_iff hfit, hpointer]
  constructor
  · intro h
    -- the size is there, the pointer leads into the region, and a name stands at its target
    obtain ⟨size, ⟨hin, hsize⟩, target, ⟨haddr, htarget⟩, name, hname, hm⟩ := h
    subst htarget
    cases hm
    refine ⟨hin, fun h₀ => hne ?_, haddr, hname, hsize⟩
    rw [← hpointer] at h₀
    exact UInt32.toNat_inj.1 h₀
  · intro h
    exact ⟨m.size, ⟨h.inside, h.size⟩, _, ⟨h.addresses, rfl⟩, m.name, h.name, rfl⟩

/-- Reading reservations gives those whose records stand there. -/
theorem reservations_eq_ok_iff (hfit : r.stop ≤ r.buffer.size) (hhead : r.offset + 4 ≤ r.stop)
    {i : Nat} {rs : List Reservation} :
    r.area.reservations i = .ok rs ↔ r.HasReservations i rs := by
  unfold HasReservations
  -- Induction on the list and not on the reading: the list tells where the records have to end.
  induction rs generalizing i with
  | nil =>
    rw [Records.nil_iff, Area.reservations_eq_ok_iff]
    constructor
    · intro h
      obtain ⟨pointer, hread, h⟩ := h
      obtain ⟨hi, hpointer⟩ := (read_eq_ok_iff hfit).1 hread
      -- no reservations were read, so the pointer is null
      rcases h with ⟨rfl, -⟩ | ⟨-, m, ms, -, -, h⟩
      · exact ⟨hi, hpointer.symm⟩
      · cases h
    · intro h
      obtain ⟨hi, hzero⟩ := h
      exact ⟨0, (read_eq_ok_iff hfit).2 ⟨hi, hzero.symm⟩, .inl ⟨rfl, rfl⟩⟩
  | cons m rs ih =>
    rw [Records.cons_iff, Area.reservations_eq_ok_iff]
    constructor
    · intro h
      obtain ⟨pointer, hread, h⟩ := h
      -- one was read, and the others behind it
      rcases h with ⟨-, h⟩ | ⟨hne, m', ms, hm, hms, h⟩
      · cases h
      · obtain ⟨rfl, rfl⟩ := List.cons.inj h
        exact ⟨(reservation_eq_ok_iff hfit hhead hread hne).1 hm, ih.1 hms⟩
    · intro h
      obtain ⟨hm, hms⟩ := h
      -- the pointer of the record is there and not null
      have hread : r.area.read i = .ok ((r.buffer.wordAt i).value r.order) :=
        (read_eq_ok_iff hfit).2 ⟨by have := hm.inside; omega, rfl⟩
      have hne : (r.buffer.wordAt i).value r.order ≠ 0 := fun h₀ =>
        hm.pointer_ne (congrArg UInt32.toNat h₀)
      exact ⟨_, hread, .inr ⟨hne, m, rs, (reservation_eq_ok_iff hfit hhead hread hne).2 hm,
        ih.2 hms, rfl⟩⟩

/-- A version record is decoded exactly where one stands. -/
theorem version_eq_ok_iff (hfit : r.stop ≤ r.buffer.size) {i : Nat} {v : Version} :
    Version.read r.area.bytes i = .ok v ↔ r.HasVersion i v := by
  rw [Version.read_eq_ok_iff, size_area hfit]
  -- the three fields are cut out of the area as they are out of the buffer
  constructor
  · intro h
    obtain ⟨hin, h₁, h₂, h₃⟩ := h
    rw [extract_area (by omega)] at h₁ h₂ h₃
    exact ⟨hin, h₁, h₂, h₃⟩
  · intro h
    have hin := h.inside
    rw [extract_area (by omega), extract_area (by omega), extract_area (by omega)]
    exact ⟨hin, h.buildNumber, h.sourceRevision, h.firmware⟩

/-- The size of a device tree is read where its header lies inside: no offset is so large that the
one behind it would not be a number of 64 bits. -/
theorem deviceTree_eq_ok_iff (hfit : r.stop ≤ r.buffer.size)
    (hsize : r.buffer.size ≤ lastOffset) {i : Nat} {subrev : UInt8} {d : DeviceTree} :
    r.area.deviceTree subrev i = .ok d ↔ d.subrev = subrev ∧ r.HasDeviceTree i d := by
  simp only [Area.deviceTree, bind_eq_ok, ByteArray.readSlice_eq_ok_iff,
    deviceTreeSize_eq_ok_iff (show r.area.bytes.size ≤ lastOffset by
      rw [size_area hfit]; omega), size_area hfit]
  constructor
  · intro h
    obtain ⟨n, ⟨hheader, hn⟩, blob, ⟨hin, hblob⟩, hd⟩ := h
    rw [wordAt_area (by omega)] at hn
    rw [extract_area hin] at hblob
    subst hn hblob
    cases hd
    -- the blob is as long as its header says
    have hblob : (r.buffer.extract i (i + ((r.buffer.wordAt (i + 4)).value .big).toNat)).size =
        ((r.buffer.wordAt (i + 4)).value .big).toNat := by
      rw [ByteArray.size_extract]
      omega
    exact ⟨rfl, hheader, rfl, hblob, by rw [hblob]; exact hin, by rw [hblob]⟩
  · intro h
    -- the size is read off the header, and the blob lies inside
    obtain ⟨hsub, h⟩ := h
    have hheader := h.header_inside
    have hin := h.inside
    have hblob := h.blob
    rw [h.size] at hin hblob
    -- the size, the slice, and the record made of them
    refine ⟨_, ⟨hheader, rfl⟩, d.blob, ⟨?_, ?_⟩, ?_⟩
    · rwa [wordAt_area (by omega)]
    · rw [wordAt_area (by omega), extract_area hin, ← hblob]
    · obtain ⟨s, o, b⟩ := d
      rw [← hsub, ← h.offset]
      rfl

/-- Decoding a payload gives what an entry with a known tag points to. -/
theorem payload_eq_ok_iff (hfit : r.stop ≤ r.buffer.size)
    (hsize : r.buffer.size ≤ lastOffset) (hhead : r.offset + 4 ≤ r.stop) {i : Nat}
    {tag : UInt32} {e : Entry} (hpos : 1 ≤ tag.toNat) (hle : tag.toNat ≤ 15) :
    r.area.payload (.ofRaw tag) i = .ok e ↔ r.HasEntry i tag.toNat e := by
  -- one case for each tag with a payload of its own, and one for the block of the device trees
  rcases Tag.ordinal_cases hpos hle with rfl | rfl | rfl | rfl | rfl | ⟨h₅, h₁₄⟩
  · show (r.area.reservations i).map Entry.reservations = .ok e ↔ r.HasEntry i 1 e
    rw [map_eq_ok]
    cases e <;> simp [HasEntry, reservations_eq_ok_iff hfit hhead]
  · show ((Version.read r.area.bytes i).mapError _).map Entry.version = .ok e ↔ r.HasEntry i 2 e
    rw [map_eq_ok]
    cases e <;> simp [HasEntry, mapError_eq_ok, version_eq_ok_iff hfit]
  · show Except.ok (Entry.uninterpreted .hwConfig i) = .ok e ↔ r.HasEntry i 3 e
    cases e <;> simp [HasEntry, eq_comm]
  · show Except.ok (Entry.uninterpreted .cacheConfig i) = .ok e ↔ r.HasEntry i 4 e
    cases e <;> simp [HasEntry, eq_comm]
  · show Except.ok (Entry.uninterpreted .avmNet i) = .ok e ↔ r.HasEntry i 15 e
    cases e <;> simp [HasEntry, eq_comm]
  · -- the sub-revision fits into a byte
    have hsub : (UInt8.ofNat (tag.toNat - 5)).toNat = tag.toNat - 5 := by
      rw [UInt8.toNat_ofNat']
      omega
    rw [Tag.ofRaw_eq_deviceTree h₅ h₁₄]
    show ((r.area.deviceTree _ i).mapError _).map Entry.deviceTree = .ok e ↔ _
    simp only [map_eq_ok, mapError_eq_ok, deviceTree_eq_ok_iff hfit hsize, ← UInt8.toNat_inj, hsub]
    -- the sub-revision is told by the tag, and no other record has a tag of the block
    cases e with
    | deviceTree d => simp [HasEntry, h₅, h₁₄]
    | reservations rs => simp [HasEntry, show tag.toNat ≠ 1 by omega]
    | version v => simp [HasEntry, show tag.toNat ≠ 2 by omega]
    | uninterpreted kind offset =>
      simp [HasEntry, show tag.toNat ≠ 3 by omega, show tag.toNat ≠ 4 by omega,
        show tag.toNat ≠ 15 by omega]

/-! ## Entries -/

/-- An entry that is read is made of the two words that lie there. -/
theorem words_of_slot_eq_ok (hfit : r.stop ≤ r.buffer.size) {i : Nat} {s : Slot}
    (h : r.area.slot i = .ok s) :
    s.offset = i ∧ s.tag.toNat = r.word i ∧ s.payload.toNat = r.word (i + 4) := by
  rw [Area.slot_eq_ok_iff, size_area hfit] at h
  obtain ⟨hin, hs⟩ := h
  rw [wordAt_area (by omega), wordAt_area (by omega)] at hs
  subst hs
  exact ⟨rfl, rfl, rfl⟩

/-- What ends the walk at a known tag ends the array. -/
theorem ends_of_slot_eq_ok (hfit : r.stop ≤ r.buffer.size) {i : Nat} {s : Slot} {reason : Ending}
    (hread : r.area.slot i = .ok s) (hend : s.ending? = some reason)
    (hreason : reason ≠ .unknownTag) : r.word (i + 4) = 0 ∨ r.word i = 16 := by
  obtain ⟨-, htag, hpayload⟩ := words_of_slot_eq_ok hfit hread
  rw [← htag, ← hpayload]
  exact (Slot.ending?_eq_some hend hreason).imp (congrArg _) (congrArg _)

/-- Decoding an entry that the walk passes gives what stands there. -/
theorem entry_eq_ok_iff (hfit : r.stop ≤ r.buffer.size)
    (hsize : r.buffer.size ≤ lastOffset) (hhead : r.offset + 4 ≤ r.stop) {i : Nat}
    {s : Slot} {e : Entry} (hread : r.area.slot i = .ok s) (hgo : s.ending? = none)
    (hpos : 1 ≤ s.tag.toNat) :
    r.area.entry s = .ok e ↔ r.HasSlot i e := by
  obtain ⟨hoffset, htag, hpayload⟩ := words_of_slot_eq_ok hfit hread
  obtain ⟨hne, hlt⟩ := Slot.ending?_eq_none_iff.1 hgo
  have hne : s.payload.toNat ≠ 0 := fun h₀ => hne (UInt32.toNat_inj.1 h₀)
  simp only [Area.entry, bind_eq_ok, resolve_eq_ok_iff hfit hhead,
    payload_eq_ok_iff hfit hsize hhead hpos (Nat.le_of_lt_succ hlt)]
  -- the pointer and the tag are the words of the region
  rw [htag, hpayload] at *
  constructor
  · intro h
    obtain ⟨target, ⟨haddr, htarget⟩, he⟩ := h
    subst htarget
    exact ⟨hne, haddr, he⟩
  · intro h
    exact ⟨_, ⟨h.addresses, rfl⟩, h.entry⟩

/-- The entries of a region are those that the walk passes, if it does not end at an unknown tag. -/
theorem hasEntries_iff_of_passes (hfit : r.stop ≤ r.buffer.size)
    (hsize : r.buffer.size ≤ lastOffset) (hhead : r.offset + 4 ≤ r.stop) {i : Nat}
    {passed : List Slot} {stop : Slot} {reason : Ending} {es : List Entry}
    (h : r.area.Passes i passed stop reason) (hreason : reason ≠ .unknownTag)
    (hpos : ∀ s ∈ passed, 1 ≤ s.tag.toNat) :
    passed.mapM r.area.entry = .ok es ↔ r.HasEntries i es := by
  unfold HasEntries
  -- Induction on the walk, for any entries: those of the region have to end where the walk does.
  induction h generalizing es with
  | @ends i s reason hread hend =>
    have hlast := ends_of_slot_eq_ok hfit hread hend hreason
    cases es with
    | nil =>
      rw [Records.nil_iff]
      exact ⟨fun _ => hlast, fun _ => rfl⟩
    | cons e es =>
      -- an entry that ends the array is none of its entries
      rw [Records.cons_iff]
      constructor
      · intro h
        cases h
      · intro h
        obtain ⟨h, _⟩ := h
        rcases hlast with h₀ | h₁₆
        · exact absurd h₀ h.pointer_ne
        · have := h.entry.tag_mem.2
          omega
  | @next i s passed stop reason hread hgo _ ih =>
    obtain ⟨-, htag, hpayload⟩ := words_of_slot_eq_ok hfit hread
    have hentry {e : Entry} := entry_eq_ok_iff hfit hsize hhead hread hgo
      (hpos s List.mem_cons_self) (e := e)
    have hrest {es : List Entry} := @ih es hreason
      (fun t ht => hpos t (List.mem_cons_of_mem _ ht))
    -- the array does not end at an entry that is passed
    have hmore : ¬(r.word (i + 4) = 0 ∨ r.word i = 16) := by
      obtain ⟨hne, hlt⟩ := Slot.ending?_eq_none_iff.1 hgo
      rw [← htag, ← hpayload]
      exact fun h => h.elim (fun h₀ => hne (UInt32.toNat_inj.1 h₀)) (by omega)
    simp only [List.mapM_cons, bind_eq_ok]
    cases es with
    | nil =>
      -- no entries would have to end here
      rw [Records.nil_iff]
      constructor
      · intro h
        obtain ⟨_, _, _, _, h⟩ := h
        cases h
      · intro h
        exact absurd h hmore
    | cons e es =>
      -- the first is decoded from the slot, and the others from those behind it
      rw [Records.cons_iff]
      constructor
      · intro h
        obtain ⟨e', he, es', hes, h⟩ := h
        obtain ⟨rfl, rfl⟩ := List.cons.inj (Except.ok.inj h)
        exact ⟨hentry.1 he, hrest.1 hes⟩
      · intro h
        obtain ⟨he, hes⟩ := h
        exact ⟨e, hentry.2 he, es, hrest.2 hes, rfl⟩

/-- Where detection has accepted a region, the table pointer leads to the entries that it found. -/
theorem locate_word_of_follows (hfit : r.stop ≤ r.buffer.size) {v : Detection.Verdict}
    {passed : List Slot} {stop : Slot} {reason : Ending}
    (h : r.area.Follows v passed stop reason) :
    r.offset + 4 ≤ r.stop ∧ r.offset + 4 * v.landmarks.start = r.locate (r.word r.offset) := by
  have hhead : r.offset + 4 ≤ r.stop := by
    have := (Area.read_eq_ok_iff.1 h.head.1).1
    rwa [size_area hfit] at this
  -- the table pointer is the first word of the region
  have hword : r.area.head.toNat = r.word r.offset := ((read_eq_ok_iff hfit).1 h.head.1).2
  refine ⟨hhead, ?_⟩
  rw [← hword]
  exact ((resolve_eq_ok_iff hfit hhead).1 h.head.2).2

/-- Decoding the area gives the table of the region, once detection has accepted it. -/
theorem decode_eq_ok_iff (hfit : r.stop ≤ r.buffer.size)
    (hsize : r.buffer.size ≤ lastOffset) {v : Detection.Verdict} {passed : List Slot}
    {stop : Slot} {reason : Ending} {t : Table} (h : r.area.Follows v passed stop reason) :
    r.area.decode = .ok t ↔ r.HasTable t := by
  obtain ⟨hhead, hfirst⟩ := locate_word_of_follows hfit h
  have hfirst : r.area.start + 4 * v.landmarks.start = r.locate (r.word r.offset) := hfirst
  -- the entries, at the place to which the pointer leads
  have hentries {es : List Entry} : passed.mapM r.area.entry = .ok es ↔
      r.HasEntries (r.area.start + 4 * v.landmarks.start) es :=
    hasEntries_iff_of_passes hfit hsize hhead h.walk h.reason_ne
      (fun s hs => (h.passed_mem s hs).1.1)
  have hbase := toNat_linkBase_area hhead
  have hrest : r.stop - r.offset = r.size := Nat.add_sub_cancel_left ..
  rw [h.decode_eq, map_eq_ok, hfirst, size_area hfit]
  rw [hfirst] at hentries
  constructor
  · intro h
    -- the table that decoding makes has the fields of that of the region
    obtain ⟨es, hes, ht⟩ := h
    subst ht
    exact ⟨rfl, hbase, rfl, hrest, rfl, hentries.1 hes⟩
  · intro ht
    -- and a table with those fields is the one that decoding makes
    obtain ⟨order, base, start, size, first, es⟩ := t
    obtain ⟨rfl, hb, rfl, rfl, rfl, hes⟩ := ht
    refine ⟨es, hentries.2 hes, ?_⟩
    have hb : base = r.area.linkBase := UInt32.toNat_inj.1 (hb.trans hbase.symm)
    have hrest : r.stop - r.area.start = r.size := hrest
    rw [hb, hrest]
    rfl

/-- Relocation gives the table of the region, where detection accepts it. -/
theorem relocate_eq_ok_iff {horizon : Nat} {buffer : ByteArray} {offset size : Nat} {t : Table}
    (hsize : buffer.size ≤ lastOffset) :
    relocate horizon buffer offset size = .ok t ↔ offset + size ≤ buffer.size ∧
      ∃ order, detect horizon (buffer.extract offset (offset + size)) = .ok order ∧
        Region.HasTable ⟨buffer, order, offset, size⟩ t := by
  rw [ConfigArea.relocate_eq_ok_iff]
  apply and_congr_right
  intro hfit
  apply exists_congr
  intro order
  apply and_congr_right
  intro h
  -- what is accepted has a walk that follows detection, whose decoding is the table
  obtain ⟨v, hv, rfl⟩ := detect_eq_ok_iff.1 h
  obtain ⟨passed, stop, reason, hfollows⟩ := Area.exists_follows hfit hv
  exact decode_eq_ok_iff (r := ⟨buffer, v.order, offset, size⟩) hfit hsize hfollows

end Region

/-- Relocation gives exactly the table that an accepted region contains: what is in its entries, its
records and its blobs is told by the words and bytes of the region alone. The entries start at a
word of the first page behind the table pointer, and each has a known tag. -/
theorem relocate_eq_ok_iff_hasTable {horizon : Nat} {buffer : ByteArray} {offset size : Nat}
    {t : Table} (hsize : buffer.size < 0x8000000000000000) :
    (relocate horizon buffer offset size = .ok t ↔
      offset + size ≤ buffer.size ∧
        ∃ order, detect horizon (buffer.extract offset (offset + size)) = .ok order ∧
          Region.HasTable ⟨buffer, order, offset, size⟩ t) ∧
    (relocate horizon buffer offset size = .ok t →
      (4 ∣ t.entriesOffset - t.localBase ∧ 4 ≤ t.entriesOffset - t.localBase ∧
        t.entriesOffset - t.localBase < 4096) ∧
      ∀ e ∈ t.entries, 1 ≤ e.tag.raw.toNat ∧ e.tag.raw.toNat ≤ 15) := by
  have hoffset := le_lastOffset hsize
  refine ⟨Region.relocate_eq_ok_iff hoffset, fun ht => ?_⟩
  obtain ⟨hfit, order, hdetect, htable⟩ := (Region.relocate_eq_ok_iff hoffset).1 ht
  -- the entries of the table start at the landmark that detection found
  obtain ⟨v, hv, rfl⟩ := detect_eq_ok_iff.1 hdetect
  obtain ⟨passed, stop, reason, hfollows⟩ := Area.exists_follows hfit hv
  obtain ⟨-, hfirst⟩ := Region.locate_word_of_follows (r := ⟨buffer, v.order, offset, size⟩) hfit
    hfollows
  have hpos := (Detection.marks_of_landmarks (Detection.examine_eq_ok_iff.1 hv).1).start_pos
  rw [htable.entriesOffset, htable.localBase]
  refine ⟨?_, fun e he => ?_⟩
  · -- the entries start where the landmarks say, in the page of the table pointer
    rw [← hfirst]
    dsimp only [Region.locate, Region.base] at hfirst ⊢
    omega
  · -- each entry is one of the region
    obtain ⟨k, hk, rfl⟩ := List.getElem_of_mem he
    have hentry := (htable.entries.record k hk).entry
    rw [hentry.raw_tag]
    exact hentry.tag_mem

/-- A buffer with an area from offset 2 on, whose one entry is the smallest device tree blob. -/
def bufferWithBlob : ByteArray :=
  ⟨#[0x5a, 0x5a, 0x04, 0x20, 0x43, 0x80, 5, 0, 0, 0, 0x14, 0x20, 0x43, 0x80, 16, 0, 0, 0,
    0, 0, 0, 0, 0, 0, 0, 0, 0, 0, 0, 8, 0x5a, 0x5a]⟩

/-- The table of that area. -/
def tableWithBlob : Table :=
  ⟨.little, 0x80432000, 2, 28, 6, [.deviceTree ⟨0, 22, ⟨#[0, 0, 0, 0, 0, 0, 0, 8]⟩⟩]⟩

/-- The walk passes the one entry of that area, whose payload is the blob. -/
theorem decode_bufferWithBlob :
    (Area.ofBuffer .little bufferWithBlob 2 28).decode = .ok tableWithBlob := by
  have hwalk : (Area.ofBuffer .little bufferWithBlob 2 28).Passes 6 [⟨6, 5, 0x80432014⟩]
      ⟨14, 16, 0⟩ .nullPayload := .next rfl rfl (.ends rfl rfl)
  rw [Area.decode_of_passes rfl rfl hwalk]
  rfl

/-- The region of the buffer has the table that relocation gives for it. -/
theorem hasTable_bufferWithBlob :
    bufferWithBlob.size < 0x8000000000000000 ∧
      relocate 16384 bufferWithBlob 2 28 = .ok tableWithBlob ∧
      Region.HasTable ⟨bufferWithBlob, .little, 2, 28⟩ tableWithBlob := by
  have hsize : bufferWithBlob.size < 0x8000000000000000 := by decide
  have hdetect : detect 16384 (bufferWithBlob.extract 2 (2 + 28)) = .ok .little := rfl
  have hrelocate : relocate 16384 bufferWithBlob 2 28 = .ok tableWithBlob :=
    relocate_eq_ok_iff.2 ⟨by decide, .little, hdetect, decode_bufferWithBlob⟩
  obtain ⟨-, order, horder, htable⟩ := (relocate_eq_ok_iff_hasTable hsize).1.1 hrelocate
  obtain rfl : order = .little := Except.ok.inj (horder.symm.trans hdetect)
  exact ⟨hsize, hrelocate, htable⟩

end ConfigArea
