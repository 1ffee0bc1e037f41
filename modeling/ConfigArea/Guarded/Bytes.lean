import ConfigArea.Bytes
import ConfigArea.Guarded.Machine

/-!
# Guarded reads

The reads of a byte string in terms of its slices, which must lie inside it, and of guarded
operations on offsets.

* `slice_of_le`: a slice inside
* `words_eq_cells`: the complete words of a byte string
* `readU32_eq`, `readSlice_eq`, `readCString_gives`: the reads go through
-/

namespace ConfigArea.Guarded

/-- The bytes between two offsets. -/
def slice (b : ByteArray) (start stop : Nat) : Option ByteArray :=
  if start ≤ stop ∧ stop ≤ b.size then some (b.extract start stop) else none

/-- The bytes before and those from an offset on. -/
def splitAt (b : ByteArray) (middle : Nat) : Option (ByteArray × ByteArray) :=
  if middle ≤ b.size then some (b.extract 0 middle, b.extract middle b.size) else none

/-- The offset of the first zero byte. -/
def firstZero (b : ByteArray) : Option Nat :=
  firstIndex (fun i => b.byteAt i == 0) 0 b.size

/-- The number at `offset`, stored in the given order. -/
def readU32 (b : ByteArray) (offset : Nat) (order : ByteOrder) : Except Truncated UInt32 :=
  match slice b offset (saturatingAdd offset 4) with
  | some s => if s.size = 4 then .ok ((s.wordAt 0).value order) else .error ⟨offset, 4⟩
  | none => .error ⟨offset, 4⟩

/-- The `len` bytes at `offset`. -/
def readSlice (b : ByteArray) (offset len : Nat) : Except Truncated ByteArray :=
  match (add offset len).bind (slice b offset) with
  | some s => .ok s
  | none => .error ⟨offset, len⟩

/-- The bytes from `offset` up to the zero byte that ends them. -/
def readCString (b : ByteArray) (offset : Nat) : Guarded Truncated ByteArray :=
  match slice b offset b.size with
  | none => throw ⟨offset, 1⟩
  | some rest =>
    match firstZero rest with
    | some stop => liftM (slice rest 0 stop)
    | none => do throw ⟨offset, ← add rest.size 1⟩

/-! ## Words -/

/-- The four bytes of word `i`. -/
def chunk (b : ByteArray) (i : Nat) : ByteArray :=
  b.extract (4 * i) (4 * i + 4)

/-- The complete words of a byte string. -/
def words (b : ByteArray) : List ByteArray :=
  (List.range (b.size / 4)).map (chunk b)

/-- The bytes behind the last complete word. -/
def remainder (b : ByteArray) : ByteArray :=
  b.extract (4 * (b.size / 4)) b.size

/-- The number that the bytes of a word are in the given order. -/
def wordValue (word : ByteArray) (order : ByteOrder) : Option UInt32 := do
  let b0 ← word[0]?
  let b1 ← word[1]?
  let b2 ← word[2]?
  let b3 ← word[3]?
  return Word.value ⟨b0, b1, b2, b3⟩ order

/-- The role of a word, told from the number of its bytes that are set. -/
def wordKind (word : ByteArray) : WordKind :=
  match word.data.toList.countP (· != 0) with
  | 0 => .zero
  | 1 => .tag
  | _ => .pointer

section Lemmas

variable {b : ByteArray} {start stop middle offset i : Nat} {order : ByteOrder}

/-- A slice inside is not refused. -/
theorem slice_of_le (h : start ≤ stop) (h' : stop ≤ b.size) :
    slice b start stop = some (b.extract start stop) :=
  if_pos ⟨h, h'⟩

/-- A split inside is not refused. -/
theorem splitAt_of_le (h : middle ≤ b.size) :
    splitAt b middle = some (b.extract 0 middle, b.extract middle b.size) :=
  if_pos h

/-- Four bytes are those of a word. -/
theorem chunk_eq_toBytes (h : 4 * i + 4 ≤ b.size) : chunk b i = (b.wordAt (4 * i)).toBytes :=
  ByteArray.extract_eq_toBytes h

/-- The bytes of a word are the number that the word is. -/
@[simp] theorem wordValue_toBytes (w : Word) : wordValue w.toBytes order = some (w.value order) :=
  rfl

/-- The bytes of a word have the role of the word. -/
@[simp] theorem wordKind_toBytes (w : Word) : wordKind w.toBytes = w.kind := by
  -- the bytes that are set are counted one by one, or from a list
  have hcount : w.toBytes.data.toList.countP (· != 0) = w.setBytes := by
    change [w.b0, w.b1, w.b2, w.b3].countP (· != 0) = w.setBytes
    simp only [List.countP_cons, List.countP_nil, Word.setBytes, bne_iff_ne, ne_eq, ite_not]
    omega
  rw [wordKind, hcount]
  rfl

end Lemmas

section Cells

variable {word : Nat → Word} {i count : Nat}

/-- The bytes of `count` words, from word `i` on. -/
def cells (word : Nat → Word) (i count : Nat) : List ByteArray :=
  (List.range' i count).map fun i => (word i).toBytes

/-- Zero words have no bytes. -/
@[simp] theorem cells_zero : cells word i 0 = [] := rfl

/-- The first of some words, then the others. -/
@[simp] theorem cells_succ :
    cells word i (count + 1) = (word i).toBytes :: cells word (i + 1) count := rfl

/-- Word `i` is found at place `i`. -/
theorem getElem?_cells (h : i < count) : (cells word 0 count)[i]? = some (word i).toBytes := by
  simp [cells, List.getElem?_range' h]

/-- The complete words of a byte string are those at the multiples of four. -/
theorem words_eq_cells (b : ByteArray) :
    words b = cells (fun i => b.wordAt (4 * i)) 0 (b.size / 4) := by
  rw [words, cells, List.range_eq_range']
  apply List.map_congr_left
  intro i hi
  have hi : i < b.size / 4 := by simpa using hi
  exact chunk_eq_toBytes (by omega)

/-- The words of a part that starts with the region are words of the region. -/
theorem words_extract {region : ByteArray} {n : Nat} (h : n ≤ region.size) :
    words (region.extract 0 n) = cells (fun i => region.wordAt (4 * i)) 0 (n / 4) := by
  have hsize : (region.extract 0 n).size = n := by
    rw [ByteArray.size_extract]
    omega
  rw [words_eq_cells, hsize]
  apply List.map_congr_left
  intro i hi
  have hi : i < n / 4 := by simpa using hi
  dsimp only
  rw [ByteArray.wordAt_extract (by omega), Nat.zero_add]

end Cells

/-! ## Reads of the same outcome -/

section Reads

variable {b : ByteArray} {offset len : Nat} {order : ByteOrder}

/-- A guarded number is read as an exact one. -/
theorem readU32_eq (hb : b.size < 0x8000000000000000) :
    readU32 b offset order = b.readU32 offset order := by
  rw [readU32, ByteArray.readU32]
  by_cases h : offset + 4 ≤ b.size
  · -- the four bytes end inside, and the slice of them is complete
    rw [saturatingAdd_of_lt (by omega), slice_of_le (by omega) h, if_pos h]
    dsimp only
    rw [if_pos (by rw [ByteArray.size_extract]; omega), ByteArray.wordAt_extract (by omega)]
    rfl
  · -- they do not, and the sum that saturates is past the end as well
    have hnone : slice b offset (saturatingAdd offset 4) = none := by
      apply if_neg
      unfold saturatingAdd limit
      omega
    rw [hnone, if_neg h]

/-- A guarded slice is read as an exact one. -/
theorem readSlice_eq (hb : b.size < 0x8000000000000000) :
    readSlice b offset len = b.readSlice offset len := by
  rw [readSlice, ByteArray.readSlice]
  by_cases h : offset + len ≤ b.size
  · rw [add_of_lt (by omega), Option.bind_some, slice_of_le (by omega) h, if_pos h]
  · -- a slice that does not end inside is refused, if not already its end is
    have hnone : (add offset len).bind (slice b offset) = none := by
      rw [Option.bind_eq_none_iff]
      intro stop hstop
      obtain rfl := eq_add_of_add_eq_some hstop
      exact if_neg (by omega)
    rw [hnone, if_neg h]

/-- The first zero byte from an offset on, counted from the start. -/
theorem firstZero_extract (h : offset ≤ b.size) :
    firstIndex (fun i => b.byteAt i == 0) offset b.size =
      (firstZero (b.extract offset b.size)).map (· + offset) := by
  have hsize : (b.extract offset b.size).size = b.size - offset := by
    rw [ByteArray.size_extract, Nat.min_self]
  -- what is searched is a part, whose byte `i` lies at `i + offset` of the whole
  have hbytes : firstZero (b.extract offset b.size) =
      firstIndex (fun i => b.byteAt (i + offset) == 0) 0 (b.size - offset) := by
    rw [firstZero, hsize]
    apply firstIndex_congr
    intro i _ hi
    rw [ByteArray.byteAt_extract (by omega), Nat.add_comm]
  have hadd := @firstIndex_add (fun i => b.byteAt i == 0) 0 (b.size - offset) offset
  rwa [Nat.zero_add, Nat.sub_add_cancel h, ← hbytes] at hadd

/-- A string is read without a stop. -/
theorem readCString_gives (hb : b.size < 0x8000000000000000) :
    Gives (readCString b offset) (b.readCString offset) := by
  rw [readCString, ByteArray.readCString]
  by_cases h : offset ≤ b.size
  · have hsize : (b.extract offset b.size).size = b.size - offset := by
      rw [ByteArray.size_extract, Nat.min_self]
    rw [slice_of_le h (Nat.le_refl _), if_pos h, firstZero_extract h]
    dsimp only
    cases hzero : firstZero (b.extract offset b.size) with
    | none =>
      -- no zero byte: what is missing is counted without a stop
      have hadd : add (b.extract offset b.size).size 1 = some (b.size - offset + 1) := by
        rw [hsize, add_of_lt (by omega)]
      exact Gives.lift hadd (gives_throw (Truncated.mk offset _))
    | some stop =>
      -- the string stops inside, so the slice of it does not stop the reader
      have hstop : stop < b.size - offset := by
        have hlt := (firstIndex_eq_some_iff.1 hzero).2.1
        rwa [hsize] at hlt
      apply gives_lift
      rw [slice_of_le (Nat.zero_le _) (by omega), ByteArray.extract_extract, Nat.add_zero,
        Nat.min_eq_left (by omega), Nat.add_comm offset]
  · -- the string starts behind the last byte, and both readers fail at once
    have hnone : slice b offset b.size = none := if_neg (by omega)
    rw [hnone, if_neg h]
    exact gives_throw _

end Reads

end ConfigArea.Guarded
