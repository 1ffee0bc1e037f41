import ConfigArea.Guarded.Relocation
import ConfigArea.Proofs.Guarded.Detection
import ConfigArea.Proofs.Relocation.Walk

/-!
# Relocation goes through

No buffer stops relocation, whatever part of it is relocated. A loop over entries or reservations
goes on by the size of what it has read, so each offset that it comes to lies inside the area or at
its end, and the loop comes to an end.

## Key results

- `reservations_gives`, `entries_gives`: the loops go through
- `relocate_gives`: relocation goes through
-/

namespace ConfigArea.Guarded

/-! ## Records -/

/-- The first ordinal of the block of the device trees is subtracted inside the block only. -/
theorem tagOf_eq (raw : UInt32) : tagOf raw = some (.ofRaw raw) := by
  rw [tagOf]
  split
  · rename_i h
    have h₅ : 5 ≤ raw.toNat := h.1
    have h₁₄ : raw.toNat ≤ 14 := h.2
    rw [sub32_of_le h.1, Option.map_some, Tag.ofRaw_eq_deviceTree h₅ h₁₄]
    -- the difference is the sub-revision
    congr 2
    apply UInt8.toNat_inj.1
    rw [UInt32.toNat_toUInt8, UInt32.toNat_sub_of_le _ _ h.1]
    exact (UInt8.toNat_ofNat').symm
  · rfl

/-- The array ends at a terminator's tag, and at any above it. -/
theorem ofRaw_eq_last_or_isValid_eq_false_iff {raw : UInt32} :
    Tag.ofRaw raw = .last ∨ (Tag.ofRaw raw).isValid = false ↔ 16 ≤ raw.toNat := by
  -- the tag of the terminator is the last one that is valid
  have hvalid : (Tag.ofRaw raw).isValid = true ↔ raw.toNat ≤ 16 := Tag.isValid_ofRaw raw
  have hlast : Tag.ofRaw raw = .last ↔ raw.toNat = 16 := by
    constructor
    · intro h
      rw [← Tag.raw_ofRaw raw, h]
      rfl
    · intro h
      obtain rfl : raw = 16 := UInt32.toNat_inj.1 h
      rfl
  rw [hlast, ← Bool.not_eq_true, hvalid]
  omega

section Records

variable {b : ByteArray} {offset : Nat}

/-- A version record is as long as its fields are together. -/
theorem readVersion_gives (hb : b.size < 0x8000000000000000) :
    Gives (readVersion b offset) (Version.read b offset) := by
  rw [readVersion, Version.read, readSlice_eq hb]
  cases h : b.readSlice offset 192 with
  | error e => exact (gives_except _).error_bind
  | ok record =>
    -- the record is long enough to be cut twice
    have hsize : record.size = 192 := by
      obtain ⟨hle, rfl⟩ := ByteArray.readSlice_eq_ok_iff.1 h
      rw [ByteArray.size_extract]
      omega
    have hrest : (record.extract 32 record.size).size = 160 := by
      rw [ByteArray.size_extract]
      omega
    refine (gives_except _).ok_bind ?_
    refine .lift (splitAt_of_le (by omega)) ?_
    refine .lift (splitAt_of_le (by omega)) ?_
    rw [hrest, hsize, ByteArray.extract_extract, ByteArray.extract_extract]
    exact gives_pure _

/-- The size of a device tree is read where there can be one. -/
theorem readDeviceTree_gives {a : Area} (ha : a.bytes.size < 0x8000000000000000) (subrev : UInt8) :
    Gives (readDeviceTree a.bytes subrev offset) (a.deviceTree subrev offset) := by
  have hstop : saturatingAdd offset 4 = min (offset + 4) lastOffset := rfl
  rw [readDeviceTree, Area.deviceTree, deviceTreeSize, hstop, readU32_eq ha]
  refine (gives_except _).bind fun size _ => ?_
  rw [readSlice_eq ha]
  exact (gives_except _).bind fun blob _ => gives_pure _

end Records

/-! ## Reads inside an area -/

/-- What relocation knows of `a`. -/
def Relocator.ofArea (a : Area) : Relocator :=
  ⟨a.bytes, a.order, a.linkBase, a.start⟩

section Area

variable {a : Area} {offset : Nat}

/-- The numbers of an area are read as it reads them. -/
theorem read_ofArea (ha : a.bytes.size < 0x8000000000000000) :
    (Relocator.ofArea a).read offset = a.read offset := by
  rw [Relocator.read, Area.read, Relocator.ofArea, readU32_eq ha]

/-- A pointer below the link-time address, or one that leads behind the last offset there is, is
dangling. -/
theorem rebase_ofArea (ha : a.bytes.size < 0x8000000000000000) (cell : Nat) (pointer : UInt32) :
    (Relocator.ofArea a).rebase cell pointer = a.resolve cell pointer := by
  rw [Relocator.rebase, Area.resolve, Relocator.ofArea]
  by_cases hbase : a.linkBase ≤ pointer
  · -- a sum that is inside is no number that is too large
    have hlimit (n : Nat) (hn : decide (n < a.bytes.size) = true) : n < 0x10000000000000000 := by
      have hn := of_decide_eq_true hn
      omega
    simp only [sub32_of_le hbase, Option.bind_some, filter_add hlimit, decide_eq_true_eq, hbase,
      true_and]
    by_cases hinside : a.start + (pointer - a.linkBase).toNat < a.bytes.size
    · simp only [if_pos hinside]
    · simp only [if_neg hinside]
  · simp [sub32, hbase]

/-- The reservations are read to their end. -/
theorem reservations_gives (ha : a.bytes.size < 0x8000000000000000) :
    Gives ((Relocator.ofArea a).reservations offset) (a.reservations offset) := by
  -- each record that is read brings the end of the area nearer
  induction hleft : a.bytes.size - offset using Nat.strongRecOn generalizing offset with
  | _ left ih =>
    rw [Relocator.reservations, Area.reservations_eq_bind, read_ofArea ha]
    refine (gives_except _).bind fun namePointer hread => ?_
    have hinside := (Area.read_eq_ok_iff.1 hread).1
    -- a pointer of zero ends the records
    refine .ite (fun _ => gives_pure _) fun _ => ?_
    refine .lift (add_of_lt (by omega)) ?_
    rw [read_ofArea ha, rebase_ofArea ha, Area.reservation, bind_assoc]
    refine (gives_except _).bind fun size hsize => ?_
    have hinside := (Area.read_eq_ok_iff.1 hsize).1
    rw [bind_assoc]
    refine (gives_except _).bind fun nameOffset _ => ?_
    rw [bind_assoc]
    refine ((readCString_gives ha).adapt _).bind fun name _ => ?_
    -- the record is read, and the next one is nearer to the end
    refine .lift (advance_of_lt (by omega)) ?_
    exact (ih _ (by omega) rfl).map _

/-- A payload is read as what its tag says. -/
theorem entry_gives (ha : a.bytes.size < 0x8000000000000000) (tag : Tag) :
    Gives ((Relocator.ofArea a).entry tag offset) (a.payload tag offset) := by
  cases tag with
  | moduleMemory => exact (reservations_gives ha).map _
  | versionInfo => exact ((readVersion_gives ha).adapt _).map _
  | deviceTree subrev => exact ((readDeviceTree_gives ha subrev).adapt _).map _
  | _ => exact gives_pure _

/-- The entries are read to their end. -/
theorem entries_gives (ha : a.bytes.size < 0x8000000000000000) :
    Gives ((Relocator.ofArea a).entries offset) (a.entries offset) := by
  -- Induction on the bytes that are left of the area: an entry that is read brings its end nearer.
  induction hleft : a.bytes.size - offset using Nat.strongRecOn generalizing offset with
  | _ left ih =>
    rw [Relocator.entries, Area.entries_eq_bind, read_ofArea ha, Area.slot, bind_assoc]
    refine (gives_except _).bind fun raw hraw => ?_
    have hinside := (Area.read_eq_ok_iff.1 hraw).1
    have hnext : add offset 4 = some (offset + 4) := add_of_lt (by omega)
    rw [bind_assoc]
    refine .lift (tagOf_eq raw) (.lift hnext ?_)
    rw [read_ofArea ha]
    refine (gives_except _).bind fun payload hpayload => ?_
    have hinside := (Area.read_eq_ok_iff.1 hpayload).1
    -- both loops end at the same entries
    have hend := @Slot.ending?_eq_none_iff ⟨offset, raw, payload⟩
    rw [pure_bind]
    cases hs : Slot.ending? ⟨offset, raw, payload⟩ with
    | some reason =>
      have hnone : ¬(payload ≠ 0 ∧ raw.toNat < 16) := by
        rw [← hend, hs]
        intro h
        cases h
      -- the array ends here, with a null payload or with a tag that is not that of an entry
      by_cases hzero : payload = 0
      · rw [if_pos hzero]
        exact gives_pure _
      · rw [if_neg hzero, if_pos (ofRaw_eq_last_or_isValid_eq_false_iff.2
          (Nat.not_lt.1 fun h => hnone ⟨hzero, h⟩))]
        exact gives_pure _
    | none =>
      -- an entry, whose payload is read before the loop goes on
      obtain ⟨hpayload, htag⟩ := hend.1 hs
      rw [if_neg hpayload, if_neg (mt ofRaw_eq_last_or_isValid_eq_false_iff.1 (Nat.not_le.2 htag))]
      refine .lift hnext ?_
      rw [rebase_ofArea ha, Area.entry, bind_assoc]
      refine (gives_except _).bind fun target _ => ?_
      refine (entry_gives ha _).bind fun entry _ => ?_
      refine .lift (advance_of_lt (by omega)) ?_
      exact (ih _ (by omega) rfl).map _

/-- An area is decoded to its end. -/
theorem decode_gives (ha : a.bytes.size < 0x8000000000000000) {size : Nat}
    (hsize : a.start + size = a.bytes.size) :
    Gives (decode a.bytes a.order a.start size) a.decode := by
  have hread : (readU32 a.bytes a.start a.order).mapError .ofTruncated = a.read a.start := by
    rw [Area.read, readU32_eq ha]
  rw [decode, Area.decode, hread]
  refine (gives_except _).bind fun head hhead => ?_
  -- what relocation keeps of the area is read off its first word
  have hr : (⟨a.bytes, a.order, head &&& pageMask, a.start⟩ : Relocator) = .ofArea a := by
    rw [and_pageMask, ← (Area.read_eq_ok_iff.1 hhead).2]
    rfl
  rw [hr]
  dsimp only
  rw [rebase_ofArea ha]
  refine (gives_except _).bind fun first _ => ?_
  refine (entries_gives ha).bind fun entries _ => ?_
  rw [← hsize, Nat.add_sub_cancel_left]
  exact gives_pure _

end Area

/-- Relocation goes through. -/
theorem relocate_gives (horizon : Nat) {buffer : ByteArray} (h : buffer.size < 0x8000000000000000)
    (offset size : Nat) :
    Gives (relocate horizon buffer offset size)
      (ConfigArea.relocate horizon buffer offset size) := by
  have hlimit (n : Nat) (hn : decide (n ≤ buffer.size) = true) : n < 0x10000000000000000 := by
    have hn := of_decide_eq_true hn
    omega
  rw [relocate, ConfigArea.relocate, filter_add hlimit]
  by_cases hfit : offset + size ≤ buffer.size
  · -- the region is inside, and detection goes through
    have hregion : (buffer.extract offset (offset + size)).size < 0x8000000000000000 := by
      rw [ByteArray.size_extract]
      omega
    rw [if_pos (decide_eq_true hfit), if_pos hfit]
    refine .lift (slice_of_le (by omega) hfit) ?_
    have hdetect := (detect_gives horizon hregion).adapt RelocationFailure.notAConfigTable
    cases hr : ConfigArea.detect horizon (buffer.extract offset (offset + size)) with
    | error reason =>
      rw [hr] at hdetect
      exact hdetect.error_bind
    | ok order =>
      rw [hr] at hdetect
      refine hdetect.ok_bind ?_
      refine .lift (slice_of_le (Nat.zero_le _) hfit) ?_
      -- so does decoding, of the buffer up to the end of the area
      have harea : (Area.ofBuffer order buffer offset size).bytes.size = offset + size := by
        rw [Area.ofBuffer, ByteArray.size_extract]
        omega
      exact (decode_gives (a := .ofBuffer order buffer offset size) (by omega) harea.symm).adapt _
  · -- the region is not inside
    rw [if_neg (by simpa using hfit), if_neg hfit]
    exact gives_throw _

end ConfigArea.Guarded
