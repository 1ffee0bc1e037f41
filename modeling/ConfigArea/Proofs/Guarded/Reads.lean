import ConfigArea.Proofs.Guarded.Relocation
import Mathlib.Data.Nat.Digits.Defs

/-!
# Reads are exact at every boundary

The reads of fields go about the end of the numbers in different ways: one lets the end of its range
stop at the largest number, one refuses a sum that is too large, one has no end of its own. In
figures without an end they are all the same: a read succeeds exactly where its range ends inside
the bytes, it gives what is there, and what it reports as missing goes past the end.

The bytes of a range are `(b.data.toList.drop offset).take len` in the view of the whole.

## Key results

- `Word.toNat_value`: a word reads as the number whose digits are its bytes
- `readU32_exact`, `readSlice_exact`, `readVersion_exact`, `deviceTreeSize_exact`,
  `readCString_exact`: each read by itself
- `reads_exact`: all of them, at any offset and with any length
-/

namespace ConfigArea

/-! ## Numbers -/

/-- The number whose digits are these bytes, stored in the given order. -/
def ByteOrder.number (order : ByteOrder) (bytes : List UInt8) : Nat :=
  match order with
  | .little => Nat.ofDigits 256 (bytes.map UInt8.toNat)
  | .big => Nat.ofDigits 256 (bytes.reverse.map UInt8.toNat)

/-- A word reads as the number whose digits are its bytes. -/
theorem Word.toNat_value (w : Word) (order : ByteOrder) :
    (w.value order).toNat = order.number w.toList := by
  cases order with
  | little =>
    simp only [Word.value, toNat_ofBytes, ByteOrder.number, Word.toList, List.map_cons,
      List.map_nil, Nat.ofDigits_cons, Nat.ofDigits_nil, Nat.mul_zero, Nat.add_zero]
  | big =>
    simp only [Word.value, toNat_ofBytes, ByteOrder.number, Word.toList, List.reverse_cons,
      List.reverse_nil, List.nil_append, List.cons_append, List.map_cons, List.map_nil,
      Nat.ofDigits_cons, Nat.ofDigits_nil, Nat.mul_zero, Nat.add_zero]

/-- The four bytes of a word that is there. -/
theorem toList_wordAt {b : ByteArray} {i : Nat} (h : i + 4 ≤ b.size) :
    (b.wordAt i).toList = (b.data.toList.drop i).take 4 := by
  have hbytes : (b.wordAt i).toList = (b.extract i (i + 4)).data.toList := by
    rw [ByteArray.extract_eq_toBytes h]
    rfl
  rw [hbytes, ByteArray.toList_data_extract, Nat.add_sub_cancel_left]

/-- The bytes from an offset on, one by one. -/
theorem getElem_drop_data_toList {b : ByteArray} {offset i : Nat}
    (hi : i < (b.data.toList.drop offset).length) :
    (b.data.toList.drop offset)[i] = b.byteAt (offset + i) := by
  have hlt : offset + i < b.size := by
    rw [List.length_drop, ByteArray.length_data_toList] at hi
    omega
  rw [List.getElem_drop, ByteArray.byteAt_of_lt hlt]
  rfl

/-- A list is taken up to its first element without a property, where there is one. -/
theorem takeWhile_eq_take {α : Type} {p : α → Bool} {l : List α} {k : Nat} (hk : k < l.length)
    (hp : p l[k] = false) (hmin : ∀ i (hi : i < k), p l[i] = true) :
    l.takeWhile p = l.take k := by
  have hfirst : l.findIdx (fun a => !p a) = k := by
    refine (List.findIdx_eq hk).2 ⟨by rw [hp, Bool.not_false], fun i hi => ?_⟩
    rw [hmin i hi, Bool.not_true]
  rw [List.takeWhile_eq_take_findIdx_not, hfirst]

/-- The bytes are those of the fields one after the other, each as wide as it is to be. -/
structure Version.Splits (v : Version) (bytes : List UInt8) : Prop where
  buildNumber : v.buildNumber.size = 32
  sourceRevision : v.sourceRevision.size = 32
  firmware : v.firmware.size = 128
  append : v.buildNumber.data.toList ++ v.sourceRevision.data.toList ++ v.firmware.data.toList =
    bytes

namespace Guarded

/-! ## Exact reads -/

/-- A read with guarded operations, `x`, is exact: it goes through, with the outcome `r`; it
succeeds exactly if what it is to read `fits`; its result `shows` what is there; and a failure
names a range that goes past the end of the bytes. -/
structure ExactRead {α : Type} (b : ByteArray) (x : Guarded Truncated α) (r : Except Truncated α)
    (fits : Prop) (shows : α → Prop) : Prop where
  gives : Gives x r
  succeeds_iff : (∃ a, r = .ok a) ↔ fits
  shows_of_ok : ∀ a, r = .ok a → shows a
  past_end : ∀ t, r = .error t → b.size < t.offset + t.needed

section Reads

variable {α : Type} {b : ByteArray} {x : Guarded Truncated α} {r : Except Truncated α}
  {fits : Prop} {shows : α → Prop} {offset len : Nat} {order : ByteOrder}

/-- A read that goes through is exact if its results are there and its failures are not. -/
theorem ExactRead.of_cases (hx : Gives x r) (hok : ∀ a, r = .ok a → fits ∧ shows a)
    (herror : ∀ t, r = .error t → ¬fits ∧ b.size < t.offset + t.needed) :
    ExactRead b x r fits shows where
  gives := hx
  succeeds_iff := by
    constructor
    · intro h
      obtain ⟨a, ha⟩ := h
      -- a result fits
      exact (hok a ha).1
    · intro h
      -- what fits does not fail
      cases hr : r with
      | ok a => exact ⟨a, rfl⟩
      | error t => exact absurd h (herror t hr).1
  shows_of_ok a ha := (hok a ha).2
  past_end t ht := (herror t ht).2

/-- What fits and what is there may be told in other words. -/
theorem ExactRead.imp {fits' : Prop} {shows' : α → Prop} (h : ExactRead b x r fits shows)
    (hfits : fits ↔ fits') (hshows : ∀ a, fits → shows a → shows' a) :
    ExactRead b x r fits' shows' where
  gives := h.gives
  succeeds_iff := h.succeeds_iff.trans hfits
  shows_of_ok a ha := hshows a (h.succeeds_iff.1 ⟨a, ha⟩) (h.shows_of_ok a ha)
  past_end := h.past_end

/-- The end of the range may stop at the largest number, which is past the end of the bytes. -/
theorem readU32_exact (h : b.size < 0x8000000000000000) :
    ExactRead b (liftM (readU32 b offset order)) (b.readU32 offset order) (offset + 4 ≤ b.size)
      (fun v => v.toNat = order.number ((b.data.toList.drop offset).take 4)) := by
  refine .of_cases ?_ (fun v hv => ?_) (fun t ht => ?_)
  · rw [readU32_eq h]
    exact gives_except _
  · obtain ⟨hle, rfl⟩ := ByteArray.readU32_eq_ok_iff.1 hv
    exact ⟨hle, by rw [Word.toNat_value, toList_wordAt hle]⟩
  · obtain ⟨hlt, rfl⟩ := ByteArray.readU32_eq_error_iff.1 ht
    exact ⟨Nat.not_le.2 hlt, hlt⟩

/-- A length that leads behind the largest number is refused. -/
theorem readSlice_exact (h : b.size < 0x8000000000000000) :
    ExactRead b (liftM (readSlice b offset len)) (b.readSlice offset len) (offset + len ≤ b.size)
      (fun s => s.data.toList = (b.data.toList.drop offset).take len) := by
  refine .of_cases ?_ (fun s hs => ?_) (fun t ht => ?_)
  · rw [readSlice_eq h]
    exact gives_except _
  · obtain ⟨hle, rfl⟩ := ByteArray.readSlice_eq_ok_iff.1 hs
    exact ⟨hle, by rw [ByteArray.toList_data_extract, Nat.add_sub_cancel_left]⟩
  · obtain ⟨hlt, rfl⟩ := ByteArray.readSlice_eq_error_iff.1 ht
    exact ⟨Nat.not_le.2 hlt, hlt⟩

/-- The fields of a version record are its bytes one after the other. -/
theorem readVersion_exact (h : b.size < 0x8000000000000000) :
    ExactRead b (readVersion b offset) (Version.read b offset) (offset + 192 ≤ b.size)
      (·.Splits ((b.data.toList.drop offset).take 192)) := by
  refine .of_cases (readVersion_gives h) (fun v hv => ?_) (fun t ht => ?_)
  · obtain ⟨hle, hbuild, hrevision, hfirmware⟩ := Version.read_eq_ok_iff.1 hv
    -- each field is as wide as it is to be, and together they are the 192 bytes
    refine ⟨hle, ?_, ?_, ?_, ?_⟩
    · rw [hbuild, ByteArray.size_extract]
      omega
    · rw [hrevision, ByteArray.size_extract]
      omega
    · rw [hfirmware, ByteArray.size_extract]
      omega
    · rw [hbuild, hrevision, hfirmware]
      simp only [ByteArray.toList_data_extract, Nat.add_sub_cancel_left, Nat.add_sub_add_left,
        Nat.reduceSub]
      rw [show 192 = 32 + 32 + 128 from rfl, List.take_add, List.take_add, List.drop_drop,
        List.drop_drop]
  · obtain ⟨hlt, rfl⟩ := Version.read_eq_error_iff.1 ht
    exact ⟨Nat.not_le.2 hlt, hlt⟩

/-- The offset of the size may stop at the last one there is, which is past the end of the bytes. -/
theorem deviceTreeSize_exact (h : b.size < 0x8000000000000000) :
    ExactRead b (liftM (readU32 b (saturatingAdd offset 4) .big)) (deviceTreeSize b offset)
      (offset + 8 ≤ b.size)
      (fun n => n.toNat = ByteOrder.big.number ((b.data.toList.drop (offset + 4)).take 4)) := by
  refine (readU32_exact h).imp ?_ (fun n hle hn => ?_)
  · -- stopped or not, the range ends inside only if the second word does
    unfold saturatingAdd limit
    omega
  · have hlt : offset + 4 < 0x10000000000000000 := by
      unfold saturatingAdd limit at hle
      omega
    rwa [saturatingAdd_of_lt hlt] at hn

/-- The end of the bytes is the end of the range in which a zero byte is looked for. -/
theorem readCString_exact (h : b.size < 0x8000000000000000) :
    ExactRead b (readCString b offset) (b.readCString offset) (0 ∈ b.data.toList.drop offset)
      (fun s => s.data.toList = (b.data.toList.drop offset).takeWhile (· != 0)) := by
  refine .of_cases (readCString_gives h) (fun s hs => ?_) (fun t ht => ?_)
  · -- the first zero byte is among the bytes from the offset on, and ends what is taken of them
    obtain ⟨stop, hle, hlt, hzero, hmin, rfl⟩ := ByteArray.readCString_eq_ok_iff.1 hs
    have hk : stop - offset < (b.data.toList.drop offset).length := by
      rw [List.length_drop, ByteArray.length_data_toList]
      omega
    have hend : (b.data.toList.drop offset)[stop - offset] = 0 := by
      rw [getElem_drop_data_toList, Nat.add_sub_of_le hle, hzero]
    refine ⟨hend ▸ List.getElem_mem hk, ?_⟩
    rw [ByteArray.toList_data_extract, takeWhile_eq_take hk (by simp [hend])]
    intro i hi
    rw [getElem_drop_data_toList]
    simpa using hmin (offset + i) (by omega) (by omega)
  · -- no byte from the offset on is zero
    obtain ⟨hall, rfl⟩ := ByteArray.readCString_eq_error_iff.1 ht
    refine ⟨fun hmem => ?_, ?_⟩
    · obtain ⟨i, hi, hzero⟩ := List.getElem_of_mem hmem
      rw [getElem_drop_data_toList] at hzero
      rw [List.length_drop, ByteArray.length_data_toList] at hi
      exact hall (offset + i) (by omega) (by omega) hzero
    · dsimp only
      omega

/-- Every read is exact, at any offset and with any length: a number, a slice, a version record and
the size of a device tree are read exactly where their bytes end inside, a string exactly where
there is a zero byte to end it, and each is the bytes that are there. -/
theorem reads_exact (h : b.size < 0x8000000000000000) (offset len : Nat) (order : ByteOrder) :
    ExactRead b (liftM (readU32 b offset order)) (b.readU32 offset order) (offset + 4 ≤ b.size)
        (fun v => v.toNat = order.number ((b.data.toList.drop offset).take 4)) ∧
      ExactRead b (liftM (readSlice b offset len)) (b.readSlice offset len)
        (offset + len ≤ b.size)
        (fun s => s.data.toList = (b.data.toList.drop offset).take len) ∧
      ExactRead b (readVersion b offset) (Version.read b offset) (offset + 192 ≤ b.size)
        (·.Splits ((b.data.toList.drop offset).take 192)) ∧
      ExactRead b (liftM (readU32 b (saturatingAdd offset 4) .big)) (deviceTreeSize b offset)
        (offset + 8 ≤ b.size)
        (fun n => n.toNat = ByteOrder.big.number ((b.data.toList.drop (offset + 4)).take 4)) ∧
      ExactRead b (readCString b offset) (b.readCString offset) (0 ∈ b.data.toList.drop offset)
        (fun s => s.data.toList = (b.data.toList.drop offset).takeWhile (· != 0)) :=
  ⟨readU32_exact h, readSlice_exact h, readVersion_exact h, deviceTreeSize_exact h,
    readCString_exact h⟩

end Reads

/-- A string of one byte, and the first two words of a device tree of 40 bytes. -/
def bytesWithHeader : ByteArray :=
  ⟨#[0x61, 0, 0xd0, 0x0d, 0xfe, 0xed, 0, 0, 0, 40]⟩

/-- The size is the last word there is. The slice would be too long by itself, and its end is no
number of 64 bits. -/
theorem reads_exact_bytesWithHeader :
    bytesWithHeader.size < 0x8000000000000000 ∧
      (∃ v, bytesWithHeader.readU32 2 .big = .ok v ∧ v.toNat = 0xd00dfeed) ∧
      (¬∃ s, bytesWithHeader.readSlice 2 0xffffffffffffffff = .ok s) ∧
      (¬∃ v, Version.read bytesWithHeader 2 = .ok v) ∧
      (∃ n, deviceTreeSize bytesWithHeader 2 = .ok n ∧ n.toNat = 40) ∧
      ∃ s, bytesWithHeader.readCString 2 = .ok s ∧ s.data.toList = [0xd0, 0x0d, 0xfe, 0xed] := by
  have hsize : bytesWithHeader.size < 0x8000000000000000 := by decide
  obtain ⟨hnumber, hslice, hversion, htree, hstring⟩ :=
    reads_exact hsize 2 0xffffffffffffffff .big
  -- the number, the size and the string fit
  obtain ⟨v, hv⟩ := hnumber.succeeds_iff.2 (by decide)
  obtain ⟨n, hn⟩ := htree.succeeds_iff.2 (by decide)
  obtain ⟨s, hs⟩ := hstring.succeeds_iff.2 (by decide)
  refine ⟨hsize, ⟨v, hv, hnumber.shows_of_ok v hv⟩, fun h => ?_, fun h => ?_,
    ⟨n, hn, htree.shows_of_ok n hn⟩, ⟨s, hs, hstring.shows_of_ok s hs⟩⟩
  · -- the slice and the version record do not
    exact absurd (hslice.succeeds_iff.1 h) (by decide)
  · exact absurd (hversion.succeeds_iff.1 h) (by decide)

end Guarded

end ConfigArea
