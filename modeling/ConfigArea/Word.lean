/-!
# Words and byte orders

Every integer and pointer of a configuration area is a word of four bytes. A word is kept as its
bytes, since the byte order it is read in is not known before the area has been recognised.

* `Word.value_encode`: reading undoes writing, in either order
* `Word.value_eq_zero_iff`: a word reads as zero where it is stored as zeros
* `Word.value_swap`: reversing the bytes of a word is reading it in the other order
-/

namespace ConfigArea

/-- The order of the bytes of a word. -/
inductive ByteOrder where
  /-- least significant byte first -/
  | little
  /-- most significant byte first -/
  | big
  deriving DecidableEq

namespace ByteOrder

/-- The order of the machine that runs the analysis. -/
def host : ByteOrder := .little

/-- The opposite order. -/
def swapped : ByteOrder → ByteOrder
  | little => big
  | big => little

/-- Whether a value in this order differs from a plain read on the host. -/
def needsSwap (o : ByteOrder) : Bool :=
  o != host

/-- The word by which settings and summaries name the order. -/
def name : ByteOrder → String
  | little => "little"
  | big => "big"

/-- The order as messages describe it. -/
def description : ByteOrder → String
  | little => "little-endian"
  | big => "big-endian"

/-- The other order of the other order is the order itself. -/
@[simp] theorem swapped_swapped (o : ByteOrder) : o.swapped.swapped = o := by
  cases o <;> rfl

end ByteOrder

/-- Four bytes in the order in which they are stored. -/
structure Word where
  b0 : UInt8
  b1 : UInt8
  b2 : UInt8
  b3 : UInt8
  deriving DecidableEq

/-- What the bytes of a word say about its role before any byte order is known. -/
inductive WordKind where
  /-- all bytes zero: padding, or the null payload of a terminator -/
  | zero
  /-- one byte set: a small ordinal, whichever the order -/
  | tag
  /-- two or more bytes set: an address -/
  | pointer
  deriving DecidableEq

namespace Word

/-- The number that four bytes stand for, least significant first. -/
def ofBytes (b0 b1 b2 b3 : UInt8) : UInt32 :=
  .ofNat (b0.toNat + 256 * (b1.toNat + 256 * (b2.toNat + 256 * b3.toNat)))

/-- The word read in the given order. -/
def value (w : Word) : ByteOrder → UInt32
  | .little => ofBytes w.b0 w.b1 w.b2 w.b3
  | .big => ofBytes w.b3 w.b2 w.b1 w.b0

/-- The word with its bytes reversed. -/
def swap (w : Word) : Word :=
  ⟨w.b3, w.b2, w.b1, w.b0⟩

/-- The word that reads as `v` in the given order. -/
def encode (v : UInt32) : ByteOrder → Word
  | .little => ⟨.ofNat v.toNat, .ofNat (v.toNat / 256), .ofNat (v.toNat / 65536),
      .ofNat (v.toNat / 16777216)⟩
  | .big => ⟨.ofNat (v.toNat / 16777216), .ofNat (v.toNat / 65536), .ofNat (v.toNat / 256),
      .ofNat v.toNat⟩

/-- The bytes as they are stored. -/
def toList (w : Word) : List UInt8 :=
  [w.b0, w.b1, w.b2, w.b3]

/-- The bytes as they are stored. -/
def toBytes (w : Word) : ByteArray :=
  ⟨#[w.b0, w.b1, w.b2, w.b3]⟩

/-- How many of the bytes are not zero. -/
@[inline] def setBytes (w : Word) : Nat :=
  (if w.b0 = 0 then 0 else 1) + (if w.b1 = 0 then 0 else 1) + (if w.b2 = 0 then 0 else 1)
    + (if w.b3 = 0 then 0 else 1)

/-- The role of the word, told from the number of its bytes that are set. -/
@[inline] def kind (w : Word) : WordKind :=
  match w.setBytes with
  | 0 => .zero
  | 1 => .tag
  | _ => .pointer

/-- A word is zero if none of its bytes is set. -/
theorem kind_eq_zero_iff {w : Word} : w.kind = .zero ↔ w.setBytes = 0 := by
  unfold kind
  split
  · simp [*]
  · simp [*]
  · rename_i h₀ h₁
    exact ⟨nofun, fun h => absurd h h₀⟩

/-- A word is a tag if one of its bytes is set. -/
theorem kind_eq_tag_iff {w : Word} : w.kind = .tag ↔ w.setBytes = 1 := by
  unfold kind
  split
  · simp [*]
  · simp [*]
  · rename_i h₀ h₁
    exact ⟨nofun, fun h => absurd h h₁⟩

/-- A word is a pointer if two or more of its bytes are set. -/
theorem kind_eq_pointer_iff {w : Word} : w.kind = .pointer ↔ 2 ≤ w.setBytes := by
  unfold kind
  split
  · simp [*]
  · simp [*]
  · rename_i h₀ h₁
    have h₀ : w.setBytes ≠ 0 := h₀
    have h₁ : w.setBytes ≠ 1 := h₁
    exact ⟨fun _ => by omega, fun _ => rfl⟩

/-- The number made of four bytes, the lowest first. -/
theorem toNat_ofBytes (b0 b1 b2 b3 : UInt8) :
    (ofBytes b0 b1 b2 b3).toNat =
      b0.toNat + 256 * (b1.toNat + 256 * (b2.toNat + 256 * b3.toNat)) := by
  have := b0.toNat_lt
  have := b1.toNat_lt
  have := b2.toNat_lt
  have := b3.toNat_lt
  rw [ofBytes, UInt32.toNat_ofNat']
  omega

/-- A word reads as zero, in either order, exactly if none of its bytes is set. -/
theorem value_eq_zero_iff {w : Word} {o : ByteOrder} : w.value o = 0 ↔ w.kind = .zero := by
  -- a word is zero if each of its bytes is
  have bytes : w.kind = .zero ↔ w.b0 = 0 ∧ w.b1 = 0 ∧ w.b2 = 0 ∧ w.b3 = 0 := by
    rw [kind_eq_zero_iff]
    unfold setBytes
    by_cases h₀ : w.b0 = 0 <;> by_cases h₁ : w.b1 = 0 <;> by_cases h₂ : w.b2 = 0 <;>
      by_cases h₃ : w.b3 = 0 <;> simp [*]
  rw [bytes]
  simp only [← UInt32.toNat_inj, ← UInt8.toNat_inj]
  cases o <;> simp only [value, toNat_ofBytes, UInt32.toNat_zero, UInt8.toNat_zero] <;> omega

/-- A small number that is not zero has one byte set, in either order. -/
theorem setBytes_eq_one {w : Word} {o : ByteOrder} (hpos : 1 ≤ (w.value o).toNat)
    (hle : (w.value o).toNat ≤ 255) : w.setBytes = 1 := by
  unfold setBytes
  simp only [← UInt8.toNat_inj, UInt8.toNat_zero]
  cases o with
  | little =>
    simp only [value, toNat_ofBytes] at hpos hle
    rw [if_neg (by omega), if_pos (by omega), if_pos (by omega), if_pos (by omega)]
  | big =>
    simp only [value, toNat_ofBytes] at hpos hle
    rw [if_pos (by omega), if_pos (by omega), if_pos (by omega), if_neg (by omega)]

/-- Read in the other order, a small number that is not zero is a large one. -/
theorem lt_value_little {w : Word} (hpos : 1 ≤ (w.value .big).toNat)
    (hle : (w.value .big).toNat ≤ 255) : 0xffffff < (w.value .little).toNat := by
  simp only [value, toNat_ofBytes] at hpos hle ⊢
  omega

/-- Writing a number and reading it in the same order gives it back. -/
@[simp] theorem value_encode (v : UInt32) (o : ByteOrder) : (encode v o).value o = v := by
  have := v.toNat_lt
  -- both sides are below 2^32, so it is enough to compare them as numbers
  apply UInt32.toNat_inj.1
  cases o <;> simp only [encode, value, toNat_ofBytes, UInt8.toNat_ofNat'] <;> omega

/-- Reading a word and writing the number in the same order gives the word back. -/
@[simp] theorem encode_value (w : Word) (o : ByteOrder) : encode (w.value o) o = w := by
  obtain ⟨b0, b1, b2, b3⟩ := w
  have := b0.toNat_lt
  have := b1.toNat_lt
  have := b2.toNat_lt
  have := b3.toNat_lt
  cases o <;> simp only [encode, value, toNat_ofBytes, mk.injEq, ← UInt8.toNat_inj,
    UInt8.toNat_ofNat'] <;> omega

/-- Reversing the bytes of a word is reading it in the other order. -/
@[simp] theorem value_swap (w : Word) (o : ByteOrder) : w.swap.value o.swapped = w.value o := by
  cases o <;> rfl

/-- Reversing the bytes of a word twice gives it back. -/
@[simp] theorem swap_swap (w : Word) : w.swap.swap = w := rfl

/-- Reversing the bytes of a word does not change its role. -/
@[simp] theorem kind_swap (w : Word) : w.swap.kind = w.kind := by
  -- the number of set bytes is a sum, in which the order does not matter
  have h : w.swap.setBytes = w.setBytes := by
    change (if w.b3 = 0 then 0 else 1) + (if w.b2 = 0 then 0 else 1) + (if w.b1 = 0 then 0 else 1)
      + (if w.b0 = 0 then 0 else 1) = w.setBytes
    simp only [setBytes]
    omega
  simp only [kind, h]

end Word

end ConfigArea
