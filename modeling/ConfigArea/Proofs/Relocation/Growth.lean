import ConfigArea.Proofs.Detection.Locality
import ConfigArea.Proofs.Relocation.Contents

/-!
# Growing a region

A region can be taken larger than its area, and more of it can be scanned. This file shows that
nothing that has been decoded changes then: what is read in the smaller region is read in the larger
one, no walk and no string ends elsewhere, and detection accepts the larger region for the same
reasons.

## Key results

- `Area.decode_of_cut`: what is decoded in the first bytes of an area is decoded in all of them
- `examineRegion_of_le`: detection sees the same in a larger region, with a larger horizon
- `relocate_of_le`: relocation gives the same table
-/

namespace ByteArray

open ConfigArea

variable {b : ByteArray} {n : Nat}

/-! ## Reads in the first bytes -/

/-- A number that is read in the first bytes is read in all of them. -/
theorem lasts_readU32 (i : Nat) (order : ByteOrder) :
    Lasts ((b.extract 0 n).readU32 i order) (b.readU32 i order) := by
  intro v h
  obtain ⟨hle, hv⟩ := readU32_eq_ok_iff.1 h
  rw [size_extract] at hle
  rw [wordAt_extract (by omega), Nat.zero_add] at hv
  exact readU32_eq_ok_iff.2 ⟨by omega, hv⟩

/-- A slice that is read in the first bytes is read in all of them. -/
theorem lasts_readSlice (i len : Nat) :
    Lasts ((b.extract 0 n).readSlice i len) (b.readSlice i len) := by
  intro s h
  obtain ⟨hle, hs⟩ := readSlice_eq_ok_iff.1 h
  rw [size_extract] at hle
  rw [extract_extract, Nat.zero_add, Nat.zero_add, Nat.min_eq_left (by omega)] at hs
  exact readSlice_eq_ok_iff.2 ⟨by omega, hs⟩

/-- The zero byte that ends a string is the first one, however many bytes follow. -/
theorem lasts_readCString (i : Nat) :
    Lasts ((b.extract 0 n).readCString i) (b.readCString i) := by
  intro s h
  obtain ⟨stop, hle, hlt, hzero, hmin, hs⟩ := readCString_eq_ok_iff.1 h
  rw [size_extract] at hlt
  -- up to the zero byte the bytes are the same
  have hbyte (k : Nat) (hk : k ≤ stop) : (b.extract 0 n).byteAt k = b.byteAt k := by
    rw [byteAt_extract (by omega), Nat.zero_add]
  rw [hbyte stop (Nat.le_refl _)] at hzero
  rw [extract_extract, Nat.zero_add, Nat.zero_add, Nat.min_eq_left (by omega)] at hs
  refine readCString_eq_ok_iff.2 ⟨stop, hle, by omega, hzero, fun k hk hk' => ?_, hs⟩
  rw [← hbyte k (Nat.le_of_lt hk')]
  exact hmin k hk hk'

end ByteArray

namespace ConfigArea

namespace Area

/-- The area cut after `n` bytes of the buffer. -/
def cut (a : Area) (n : Nat) : Area :=
  ⟨a.bytes.extract 0 n, a.order, a.start⟩

variable {a : Area} {n : Nat}

/-- An area that is cut behind its first word keeps its link-time address. -/
theorem linkBase_cut (h : a.start + 4 ≤ n) : (a.cut n).linkBase = a.linkBase := by
  -- the first word is left
  have hword : (a.cut n).bytes.wordAt a.start = a.bytes.wordAt a.start := by
    show (a.bytes.extract 0 n).wordAt a.start = _
    rw [ByteArray.wordAt_extract (by omega), Nat.zero_add]
  rw [linkBase, linkBase, head, head, ← hword]
  rfl

/-- The cut area ends at the cut, if the area does not end before it. -/
theorem size_cut : (a.cut n).bytes.size = min n a.bytes.size := by
  show (a.bytes.extract 0 n).size = _
  rw [ByteArray.size_extract, Nat.sub_zero]

/-! ## Fields -/

/-- A number that is read in the cut area is read in the area. -/
theorem lasts_read (i : Nat) : Lasts ((a.cut n).read i) (a.read i) :=
  (ByteArray.lasts_readU32 i a.order).mapError _

/-- What a pointer leads to is no less inside a larger area. -/
theorem lasts_resolve (h : a.start + 4 ≤ n) (cell : Nat) (pointer : UInt32) :
    Lasts ((a.cut n).resolve cell pointer) (a.resolve cell pointer) := by
  intro target htarget
  unfold resolve at htarget ⊢
  rw [linkBase_cut h, size_cut] at htarget
  -- only the upper bound depends on how large the area is
  split at htarget
  · rename_i hin
    rw [if_pos ⟨hin.1, Nat.lt_of_lt_of_le hin.2 (Nat.min_le_right _ _)⟩]
    exact htarget
  · cases htarget

/-- An entry that is read in the cut area is read in the area. -/
theorem lasts_slot (i : Nat) : Lasts ((a.cut n).slot i) (a.slot i) := by
  rw [slot, slot]
  apply (lasts_read i).bind
  intro tag _
  apply (lasts_read (i + 4)).bind
  intro payload _ s hs
  exact hs

/-! ## Records -/

/-- A reservation that is decoded in the cut area is decoded in the area. -/
theorem lasts_reservation (h : a.start + 4 ≤ n) (i : Nat) (pointer : UInt32) :
    Lasts ((a.cut n).reservation i pointer) (a.reservation i pointer) := by
  rw [reservation, reservation]
  apply (lasts_read (i + 4)).bind
  intro size _
  apply (lasts_resolve h i pointer).bind
  intro target _
  apply ((ByteArray.lasts_readCString target).mapError _).bind
  intro name _ m hm
  exact hm

/-- Reservations that are decoded in the cut area are decoded in the area, and no others behind
them. -/
theorem lasts_reservations (h : a.start + 4 ≤ n) (i : Nat) :
    Lasts ((a.cut n).reservations i) (a.reservations i) := by
  -- Induction on the room behind the record in the smaller area.
  rw [reservations_eq_bind, reservations_eq_bind a]
  apply (lasts_read i).bind
  intro pointer hread
  have hroom := (read_eq_ok_iff.1 hread).1
  split
  · intro ms hms
    exact hms
  · apply (lasts_reservation h i pointer).bind
    intro m _
    exact (lasts_reservations h (i + 8)).map _
termination_by (a.cut n).bytes.size - i

/-- A version record that is decoded in the cut area is decoded in the area. -/
theorem lasts_version (i : Nat) :
    Lasts (Version.read (a.cut n).bytes i) (Version.read a.bytes i) :=
  (ByteArray.lasts_readSlice i 192).map _

/-- A device tree that is decoded in the cut area is decoded in the area. -/
theorem lasts_deviceTree (subrev : UInt8) (i : Nat) :
    Lasts ((a.cut n).deviceTree subrev i) (a.deviceTree subrev i) := by
  rw [deviceTree, deviceTree]
  apply Lasts.bind (ByteArray.lasts_readU32 _ .big)
  intro size _
  apply (ByteArray.lasts_readSlice i size.toNat).bind
  intro blob _ d hd
  exact hd

/-- A payload that is decoded in the cut area is decoded in the area. -/
theorem lasts_payload (h : a.start + 4 ≤ n) (tag : Tag) (i : Nat) :
    Lasts ((a.cut n).payload tag i) (a.payload tag i) := by
  unfold payload
  split
  · -- by the kind of record that the tag asks for
    exact (lasts_reservations h i).map _
  · exact ((lasts_version i).mapError _).map _
  · exact ((lasts_deviceTree _ i).mapError _).map _
  · intro e he
    exact he

/-! ## Entries -/

/-- An entry that is decoded in the cut area is decoded in the area. -/
theorem lasts_entry (h : a.start + 4 ≤ n) (s : Slot) : Lasts ((a.cut n).entry s) (a.entry s) := by
  rw [entry, entry]
  apply (lasts_resolve h _ _).bind
  intro target _
  exact lasts_payload h _ target

/-- Entries that are decoded in the cut area are decoded in the area, and no others behind them. -/
theorem lasts_entries (h : a.start + 4 ≤ n) (i : Nat) :
    Lasts ((a.cut n).entries i) (a.entries i) := by
  -- As for reservations the induction is on the room behind the slot.
  rw [entries_eq_bind, entries_eq_bind a]
  apply (lasts_slot i).bind
  intro s hs
  have hroom := (slot_eq_ok_iff.1 hs).1
  split
  · intro es hes
    exact hes
  · apply (lasts_entry h s).bind
    intro x _
    exact (lasts_entries h (i + 8)).map _
termination_by (a.cut n).bytes.size - i

/-- What is decoded in the first bytes of an area is decoded in all of them. The table only counts
the bytes. -/
theorem decode_of_cut {t : Table} (h : (a.cut n).decode = .ok t) :
    a.decode = .ok { t with regionSize := a.bytes.size - a.start } := by
  rw [decode] at h
  obtain ⟨head, hread, h⟩ := bind_eq_ok.1 h
  obtain ⟨first, hresolve, h⟩ := bind_eq_ok.1 h
  obtain ⟨es, hes, ht⟩ := bind_eq_ok.1 h
  have hread : (a.cut n).read a.start = .ok head := hread
  have hresolve : (a.cut n).resolve a.start head = .ok first := hresolve
  -- the first pointer lies in the smaller area
  have hroom : a.start + 4 ≤ n := by
    have hle := (read_eq_ok_iff.1 hread).1
    rw [size_cut] at hle
    omega
  cases ht
  rw [decode, lasts_read _ _ hread, ok_bind, lasts_resolve hroom _ _ _ hresolve, ok_bind,
    lasts_entries hroom _ _ hes, ok_bind, linkBase_cut hroom]
  rfl

end Area

/-! ## Regions -/

variable {horizon horizon' offset size size' : Nat} {buffer : ByteArray}

/-- Detection that accepts a region accepts a larger one with the same verdict. -/
theorem examineRegion_of_le {v : Detection.Verdict}
    (h : examineRegion horizon (buffer.extract offset (offset + size)) = .ok v)
    (hhorizon : horizon ≤ horizon') (hsize : size ≤ size') (hfit : offset + size' ≤ buffer.size) :
    examineRegion horizon' (buffer.extract offset (offset + size')) = .ok v := by
  have hnull := (Detection.marks_of_landmarks (Detection.examine_eq_ok_iff.1 h).1).null_lt
  simp only [examineRegion, ByteArray.size_extract] at h hnull ⊢
  apply Detection.examine_of_agree h (by omega) (by omega)
  intro i hi
  -- words up to the null are complete in the smaller region, and the same in both
  rw [ByteArray.wordAt_extract (by omega), ByteArray.wordAt_extract (by omega)]

/-- A table that relocation gives, it gives for every larger region of the buffer and with every
larger horizon too: the byte order, the link-time address, the places and the entries are the same,
and only the size of the region differs. -/
theorem relocate_of_le {t : Table} (h : relocate horizon buffer offset size = .ok t)
    (hhorizon : horizon ≤ horizon') (hsize : size ≤ size') (hfit : offset + size' ≤ buffer.size) :
    relocate horizon' buffer offset size' = .ok { t with regionSize := size' } := by
  obtain ⟨-, order, hdetect, hdecode⟩ := relocate_eq_ok_iff.1 h
  refine relocate_eq_ok_iff.2 ⟨hfit, order, ?_, ?_⟩
  · -- detection gives the same order
    obtain ⟨v, hv, horder⟩ := detect_eq_ok_iff.1 hdetect
    exact detect_eq_ok_iff.2 ⟨v, examineRegion_of_le hv hhorizon hsize hfit, horder⟩
  · -- the smaller area is the larger one, cut
    have hcut : Area.ofBuffer order buffer offset size =
        (Area.ofBuffer order buffer offset size').cut (offset + size) := by
      rw [Area.cut, Area.ofBuffer, Area.ofBuffer, ByteArray.extract_extract, Nat.zero_add,
        Nat.zero_add, Nat.min_eq_left (by omega)]
    rw [hcut] at hdecode
    -- all that is counted anew is the size
    have hrest : (buffer.extract 0 (offset + size')).size - offset = size' := by
      rw [ByteArray.size_extract]
      omega
    rw [Area.decode_of_cut hdecode]
    exact congrArg (fun n => Except.ok { t with regionSize := n }) hrest

/-- Two bytes more do not change the table of the region, nor does a larger horizon. -/
theorem relocate_of_le_bufferWithBlob :
    relocate 21 bufferWithBlob 2 28 = .ok tableWithBlob ∧ (21 ≤ 16384 ∧ 28 ≤ 30 ∧
      2 + 30 ≤ bufferWithBlob.size) ∧
      relocate 16384 bufferWithBlob 2 30 = .ok { tableWithBlob with regionSize := 30 } := by
  have hrelocate : relocate 21 bufferWithBlob 2 28 = .ok tableWithBlob :=
    relocate_eq_ok_iff.2 ⟨by decide, .little, rfl, decode_bufferWithBlob⟩
  -- two bytes are left behind the region
  have hfit : 2 + 30 ≤ bufferWithBlob.size := by decide
  exact ⟨hrelocate, ⟨by decide, by decide, hfit⟩,
    relocate_of_le hrelocate (by decide) (by decide) hfit⟩

end ConfigArea
