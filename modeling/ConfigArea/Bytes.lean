import ConfigArea.Search
import ConfigArea.Text.Hex
import ConfigArea.Word

/-!
# Fields of a byte string

Reading words, slices and terminated strings out of a `ByteArray`, and overwriting a part of one.
A read that needs a byte past the end fails with a `Truncated` that names what it needed; offsets
and lengths are exact numbers, so a range never wraps around.

The view of a byte string is `b.data.toList`, or `b.byteAt i` one byte at a time.

* `toList_data_extract`, `byteAt_extract`: a part in either view
* `readU32_eq_ok_iff`, `readSlice_eq_ok_iff`: a read succeeds exactly when its range ends inside
* `readCString_eq_ok_iff`, `readCString_eq_error_iff`: a string is read exactly when there is a zero
  byte to end it
* `size_put?`, `byteAt_put?`: overwriting changes the bytes of its range and no other
-/

namespace ConfigArea

/-- A read that ran past the end of the bytes. -/
structure Truncated where
  offset : Nat
  needed : Nat
  deriving DecidableEq

/-- The text that reports the failed read. -/
def Truncated.message (t : Truncated) : String :=
  s!"truncated at {Hex.number t.offset}, needed {t.needed} bytes"

end ConfigArea

namespace ByteArray

open ConfigArea

/-- The byte at `i`, zero past the end. -/
@[inline] def byteAt (b : ByteArray) (i : Nat) : UInt8 :=
  if h : i < b.size then b[i] else 0

/-- The four bytes from offset `i` on, zero past the end. -/
@[inline] def wordAt (b : ByteArray) (i : Nat) : Word :=
  ⟨b.byteAt i, b.byteAt (i + 1), b.byteAt (i + 2), b.byteAt (i + 3)⟩

/-- The number at `offset`, stored in the given order. -/
def readU32 (b : ByteArray) (offset : Nat) (order : ByteOrder) : Except Truncated UInt32 :=
  if offset + 4 ≤ b.size then .ok ((b.wordAt offset).value order)
  else .error ⟨offset, 4⟩

/-- The `len` bytes at `offset`. -/
def readSlice (b : ByteArray) (offset len : Nat) : Except Truncated ByteArray :=
  if offset + len ≤ b.size then .ok (b.extract offset (offset + len))
  else .error ⟨offset, len⟩

/-- The bytes from `offset` up to the zero byte that ends them. -/
def readCString (b : ByteArray) (offset : Nat) : Except Truncated ByteArray :=
  if offset ≤ b.size then
    match firstIndex (fun i => b.byteAt i == 0) offset b.size with
    | some stop => .ok (b.extract offset stop)
    | none => .error ⟨offset, b.size - offset + 1⟩
  else .error ⟨offset, 1⟩

/-- The bytes with those at `offset` overwritten by `new`, if `new` fits. -/
def put? (b : ByteArray) (offset : Nat) (new : ByteArray) : Option ByteArray :=
  if offset + new.size ≤ b.size then
    some (b.extract 0 offset ++ new ++ b.extract (offset + new.size) b.size)
  else none

/-- `len` bytes of one value. -/
def replicate (len : Nat) (value : UInt8) : ByteArray :=
  ⟨Array.replicate len value⟩

/-! ## Bytes of derived byte strings -/

/-- Inside, the byte at an offset is the element there. -/
theorem byteAt_of_lt {b : ByteArray} {i : Nat} (h : i < b.size) : b.byteAt i = b[i] :=
  dif_pos h

/-- There are only zero bytes past the end. -/
theorem byteAt_of_le {b : ByteArray} {i : Nat} (h : b.size ≤ i) : b.byteAt i = 0 :=
  dif_neg (Nat.not_lt.2 h)

/-- A part keeps the bytes of its range. -/
theorem byteAt_extract {b : ByteArray} {start stop i : Nat} (h : start + i < stop) :
    (b.extract start stop).byteAt i = b.byteAt (start + i) := by
  by_cases hb : start + i < b.size
  · -- the byte is there, in the part as in the whole
    have hi : i < (b.extract start stop).size := by rw [size_extract]; omega
    rw [byteAt_of_lt hi, byteAt_of_lt hb, getElem_extract]
  · -- neither has it
    rw [byteAt_of_le (b := b) (by omega), byteAt_of_le (by rw [size_extract]; omega)]

/-- A part keeps the words that lie inside its range. -/
theorem wordAt_extract {b : ByteArray} {start stop i : Nat} (h : start + i + 4 ≤ stop) :
    (b.extract start stop).wordAt i = b.wordAt (start + i) := by
  simp only [wordAt]
  rw [byteAt_extract (by omega), byteAt_extract (by omega), byteAt_extract (by omega),
    byteAt_extract (by omega)]
  rfl

/-- A byte string has as many bytes in either view. -/
theorem length_data_toList (b : ByteArray) : b.data.toList.length = b.size :=
  Array.length_toList

/-- The bytes of a part, in the view of the whole. -/
theorem toList_data_extract (b : ByteArray) (start stop : Nat) :
    (b.extract start stop).data.toList = (b.data.toList.drop start).take (stop - start) := by
  rw [data_extract, Array.toList_extract, List.extract_eq_take_drop]

/-- Words with the same four bytes are equal. -/
theorem wordAt_congr {a b : ByteArray} {i j : Nat}
    (h : ∀ k, k < 4 → a.byteAt (i + k) = b.byteAt (j + k)) : a.wordAt i = b.wordAt j := by
  unfold wordAt
  rw [h 1 (by omega), h 2 (by omega), h 3 (by omega)]
  congr 1
  exact h 0 (by omega)

/-- Where four bytes are zero there is the zero word. -/
theorem wordAt_eq_zero {b : ByteArray} {i : Nat}
    (h : ∀ k, i ≤ k → k < i + 4 → b.byteAt k = 0) : b.wordAt i = ⟨0, 0, 0, 0⟩ := by
  unfold wordAt
  rw [h i (by omega) (by omega), h (i + 1) (by omega) (by omega), h (i + 2) (by omega) (by omega),
    h (i + 3) (by omega) (by omega)]

/-- The bytes of the second string follow those of the first. -/
theorem byteAt_append {a b : ByteArray} {i : Nat} :
    (a ++ b).byteAt i = if i < a.size then a.byteAt i else b.byteAt (i - a.size) := by
  by_cases ha : i < a.size
  · -- in the first string
    rw [if_pos ha, byteAt_of_lt ha, byteAt_of_lt (by rw [size_append]; omega),
      getElem_append_left ha]
  · -- in the second string, or past its end
    rw [if_neg ha]
    by_cases hb : i - a.size < b.size
    · rw [byteAt_of_lt hb, byteAt_of_lt (by rw [size_append]; omega),
        getElem_append_right (by omega)]
    · rw [byteAt_of_le (b := b) (by omega), byteAt_of_le (by rw [size_append]; omega)]

/-- Byte strings of one size with the same bytes are equal. -/
theorem ext_byteAt {a b : ByteArray} (hs : a.size = b.size)
    (h : ∀ i, i < a.size → a.byteAt i = b.byteAt i) : a = b := by
  refine ByteArray.ext (Array.ext hs fun i ha hb => ?_)
  have := h i ha
  rwa [byteAt_of_lt ha, byteAt_of_lt hb] at this

/-- Four bytes are those of a word. -/
theorem extract_eq_toBytes {b : ByteArray} {i : Nat} (h : i + 4 ≤ b.size) :
    b.extract i (i + 4) = (b.wordAt i).toBytes := by
  have hsize : (b.extract i (i + 4)).size = 4 := by
    rw [size_extract]
    omega
  apply ext_byteAt hsize
  intro j hj
  rw [byteAt_extract (by omega)]
  -- there are four bytes to compare
  obtain rfl | rfl | rfl | rfl : j = 0 ∨ j = 1 ∨ j = 2 ∨ j = 3 := by omega
  all_goals rfl

/-- Byte strings that start with the same bytes have them in common one by one. -/
theorem byteAt_eq_of_extract_eq {a b : ByteArray} {n i : Nat} (h : a.extract 0 n = b.extract 0 n)
    (hi : i < n) : a.byteAt i = b.byteAt i := by
  have ha : (a.extract 0 n).byteAt i = a.byteAt i := by
    rw [byteAt_extract (by omega), Nat.zero_add]
  rw [← ha, h, byteAt_extract (by omega), Nat.zero_add]

/-! ## When reads succeed -/

/-- A number is read exactly where its four bytes end inside. -/
theorem readU32_eq_ok_iff {b : ByteArray} {offset : Nat} {order : ByteOrder} {v : UInt32} :
    b.readU32 offset order = .ok v ↔
      offset + 4 ≤ b.size ∧ (b.wordAt offset).value order = v := by
  rw [readU32]
  split <;> simp [*]

/-- Where a number is not read, four bytes are missing at its offset. -/
theorem readU32_eq_error_iff {b : ByteArray} {offset : Nat} {order : ByteOrder} {e : Truncated} :
    b.readU32 offset order = .error e ↔ b.size < offset + 4 ∧ e = ⟨offset, 4⟩ := by
  rw [readU32]
  split
  · simp only [reduceCtorEq, false_iff]; omega
  · simp only [Except.error.injEq, eq_comm (a := e), iff_and_self]; omega

/-- A slice is read exactly where it ends inside. -/
theorem readSlice_eq_ok_iff {b : ByteArray} {offset len : Nat} {s : ByteArray} :
    b.readSlice offset len = .ok s ↔
      offset + len ≤ b.size ∧ b.extract offset (offset + len) = s := by
  rw [readSlice]
  split <;> simp [*]

/-- Where a slice is not read, its length is missing at its offset. -/
theorem readSlice_eq_error_iff {b : ByteArray} {offset len : Nat} {e : Truncated} :
    b.readSlice offset len = .error e ↔ b.size < offset + len ∧ e = ⟨offset, len⟩ := by
  rw [readSlice]
  split
  · simp only [reduceCtorEq, false_iff]; omega
  · simp only [Except.error.injEq, eq_comm (a := e), iff_and_self]; omega

/-- A string is read exactly where a zero byte ends it, and it stops before the first one. -/
theorem readCString_eq_ok_iff {b : ByteArray} {offset : Nat} {s : ByteArray} :
    b.readCString offset = .ok s ↔
      ∃ stop, offset ≤ stop ∧ stop < b.size ∧ b.byteAt stop = 0 ∧
        (∀ i, offset ≤ i → i < stop → b.byteAt i ≠ 0) ∧ b.extract offset stop = s := by
  simp only [readCString]
  split
  · cases h : firstIndex (fun i => b.byteAt i == 0) offset b.size with
    | some stop =>
      obtain ⟨hlo, hhi, hz, hmin⟩ := firstIndex_eq_some_iff.1 h
      simp only [beq_iff_eq, beq_eq_false_iff_ne] at hz hmin
      simp only [Except.ok.injEq]
      refine ⟨fun hs => ⟨stop, hlo, hhi, hz, hmin, hs⟩, ?_⟩
      rintro ⟨stop', hlo', -, hz', hmin', hs⟩
      -- there is only one first zero byte
      have : stop' = stop := by
        rcases Nat.lt_trichotomy stop' stop with hlt | rfl | hlt
        · exact absurd hz' (hmin stop' hlo' hlt)
        · rfl
        · exact absurd hz (hmin' stop hlo hlt)
      rwa [this] at hs
    | none =>
      -- no byte is zero, so none ends a string
      have hall := firstIndex_eq_none_iff.1 h
      simp only [reduceCtorEq, false_iff]
      rintro ⟨stop, hlo, hhi, hz, -⟩
      simpa [hz] using hall stop hlo hhi
  · -- the string starts behind the last byte, where no byte is left to end it
    simp only [reduceCtorEq, false_iff]
    rintro ⟨stop, hlo, hhi, -⟩
    omega

/-- Where no zero byte ends a string, what is missing is one byte more than there are. -/
theorem readCString_eq_error_iff {b : ByteArray} {offset : Nat} {e : Truncated} :
    b.readCString offset = .error e ↔
      (∀ i, offset ≤ i → i < b.size → b.byteAt i ≠ 0) ∧ e = ⟨offset, b.size - offset + 1⟩ := by
  simp only [readCString]
  split
  · cases h : firstIndex (fun i => b.byteAt i == 0) offset b.size with
    | some stop =>
      -- a zero byte ends the string, so the read does not fail
      obtain ⟨hlo, hhi, hz, -⟩ := firstIndex_eq_some_iff.1 h
      simp only [reduceCtorEq, false_iff]
      intro hall
      exact hall.1 stop hlo hhi (by simpa using hz)
    | none =>
      have hall := firstIndex_eq_none_iff.1 h
      simp only [Except.error.injEq, eq_comm (a := e), iff_and_self]
      intro _ i hlo hhi
      simpa using hall i hlo hhi
  · -- the string starts behind the last byte
    rename_i hlt
    rw [show b.size - offset + 1 = 1 by omega]
    simp only [Except.error.injEq, eq_comm (a := e), iff_and_self]
    intro _ i hlo hhi
    omega

/-! ## Overwriting -/

/-- There are as many bytes as asked for. -/
@[simp] theorem size_replicate (len : Nat) (value : UInt8) : (replicate len value).size = len := by
  simp [replicate, ByteArray.size]

/-- Each of the repeated bytes has the value. -/
theorem byteAt_replicate {len i : Nat} {value : UInt8} (h : i < len) :
    (replicate len value).byteAt i = value := by
  rw [byteAt_of_lt (by simpa using h), getElem_eq_getElem_data]
  simp [replicate]

/-- A string of zero bytes is zero at every offset, also past the end. -/
theorem byteAt_zeros (len i : Nat) : (replicate len 0).byteAt i = 0 := by
  by_cases h : i < len
  · exact byteAt_replicate h
  · exact byteAt_of_le (by rw [size_replicate]; omega)

/-- Overwriting succeeds exactly where the new bytes fit. -/
theorem put?_eq_some_iff {b new r : ByteArray} {offset : Nat} :
    b.put? offset new = some r ↔ offset + new.size ≤ b.size ∧
      b.extract 0 offset ++ new ++ b.extract (offset + new.size) b.size = r := by
  rw [put?]
  split <;> simp [*]

/-- Overwriting keeps the size. -/
theorem size_put? {b new r : ByteArray} {offset : Nat} (h : b.put? offset new = some r) :
    r.size = b.size := by
  obtain ⟨hle, rfl⟩ := put?_eq_some_iff.1 h
  simp only [size_append, size_extract]
  omega

/-- Overwriting changes the bytes of its range and no other. -/
theorem byteAt_put? {b new r : ByteArray} {offset i : Nat} (h : b.put? offset new = some r) :
    r.byteAt i =
      if offset ≤ i ∧ i < offset + new.size then new.byteAt (i - offset) else b.byteAt i := by
  obtain ⟨hle, rfl⟩ := put?_eq_some_iff.1 h
  simp only [byteAt_append, size_append, size_extract]
  -- before the range, inside it, and behind it
  by_cases h1 : i < offset
  · rw [if_pos (by omega), if_pos (by omega), if_neg (by omega), byteAt_extract (by omega),
      Nat.zero_add]
  · by_cases h2 : i < offset + new.size
    · rw [if_pos (by omega), if_neg (by omega), if_pos (by omega)]
      congr 1
      omega
    · rw [if_neg (by omega), if_neg (by omega)]
      by_cases h3 : i < b.size
      · rw [byteAt_extract (by omega)]
        congr 1
        omega
      · rw [byteAt_of_le (b := b) (by omega), byteAt_of_le (by rw [size_extract]; omega)]

/-- New bytes that fit can be written. -/
theorem exists_put? {b new : ByteArray} {offset : Nat} (h : offset + new.size ≤ b.size) :
    ∃ r, b.put? offset new = some r :=
  ⟨_, put?_eq_some_iff.2 ⟨h, rfl⟩⟩

/-- Overwriting leaves the bytes outside its range alone. -/
theorem byteAt_put?_of_not_mem {b new r : ByteArray} {offset i : Nat}
    (h : b.put? offset new = some r) (hi : i < offset ∨ offset + new.size ≤ i) :
    r.byteAt i = b.byteAt i := by
  rw [byteAt_put? h]
  exact if_neg (by omega)

/-- Inside its range overwriting puts the new bytes. -/
theorem byteAt_put?_add {b new r : ByteArray} {offset j : Nat}
    (h : b.put? offset new = some r) (hj : j < new.size) :
    r.byteAt (offset + j) = new.byteAt j := by
  rw [byteAt_put? h, if_pos (by omega), Nat.add_sub_cancel_left]

end ByteArray
