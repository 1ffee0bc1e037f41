import ConfigArea.Bytes
import ConfigArea.Detection.Failure
import ConfigArea.Tag

/-!
# Recognising a configuration area

An area has neither a magic number nor a version. It starts with a table pointer, the link-time
address of an array of entries, each a tag and a payload pointer, and the array ends with an entry
whose payload is null. Three rules read this shape off the words without knowing their order:

* a word with two or more bytes set is an address;
* a word with exactly one byte set is a tag, since tags are small ordinals;
* a word of zeros is padding, or the null payload that ends the array.

The order is then guessed from the terminator's tag, and the guess is checked: no tag exceeds the
terminator's, the table pointer addresses the array, and every payload lies inside the region.

Detection looks at a region through its words, the number of bytes it may scan and its size, and
at nothing else (`Detection.examine`).
-/

namespace ConfigArea

/-- An entry of the array as it is stored: its place, its tag and its payload pointer. -/
structure Slot where
  /-- of the tag, from the start of the region -/
  offset : Nat
  tag : UInt32
  payload : UInt32
  deriving DecidableEq

/-- The offset of the payload pointer. -/
def Slot.payloadOffset (s : Slot) : Nat :=
  s.offset + 4

/-- The link-time address of an area, whose start is aligned to 4 KiB, from one that lies in its
first page. -/
def linkBase (pointer : UInt32) : UInt32 :=
  pointer - pointer % 4096

namespace Detection

/-- Where the entry array lies, in words from the start of the region. -/
structure Landmarks where
  /-- the tag of the first entry -/
  start : Nat
  /-- the null payload of the terminator -/
  null : Nat
  deriving DecidableEq

/-- The word before the null payload: the terminator's tag. -/
def Landmarks.terminator (m : Landmarks) : Nat :=
  m.null - 1

/-- The landmarks among the complete words of the first `horizon` bytes: the first word is a
pointer, the array starts at the first tag after it and ends at the first zero after that. -/
@[specialize] def landmarks (word : Nat → Word) (horizon : Nat) :
    Except DetectionFailure Landmarks :=
  if horizon < 4 ∨ (word 0).kind ≠ .pointer then .error (.missingTablePointer horizon)
  else
    match firstIndex (fun i => (word i).kind == .tag) 1 (horizon / 4) with
    | none => .error (.missingArrayStart horizon)
    | some start =>
      match firstIndex (fun i => (word i).kind == .zero) (start + 1) (horizon / 4) with
      | none => .error (.missingArrayEnd horizon)
      | some null => .ok ⟨start, null⟩

/-- The order in which the terminator's tag, read as the host would, is an ordinal. -/
def guess (word : Nat → Word) (m : Landmarks) : Except DetectionFailure ByteOrder :=
  if (m.terminator - m.start) % 2 ≠ 0 then .error (.misalignedTerminator (4 * m.terminator))
  else
    -- read in the wrong order a small ordinal becomes a large number
    let tag := (word m.terminator).value .host
    if tag = 0 then .error (.zeroTerminatorTag (4 * m.terminator))
    else if Tag.lastRaw < tag then .ok ByteOrder.host.swapped
    else .ok .host

/-- The entry whose tag is word `i`. -/
def slotAt (word : Nat → Word) (order : ByteOrder) (i : Nat) : Slot :=
  ⟨4 * i, (word i).value order, (word (i + 1)).value order⟩

/-- The entries from word `i` on, `count` at most: those up to the first with the terminator's tag.
A larger tag is refused. -/
def walk (word : Nat → Word) (order : ByteOrder) (i : Nat) :
    (count : Nat) → Except DetectionFailure (List Slot)
  | 0 => .ok []
  | count + 1 =>
    let slot := slotAt word order i
    if Tag.lastRaw < slot.tag then .error (.invalidTag slot.offset slot.tag order)
    else if slot.tag = Tag.lastRaw then .ok [slot]
    else (walk word order (i + 2) count).map (slot :: ·)

/-- Whether a payload pointer addresses a byte after the first of the region, or its end. -/
def reaches (base : UInt32) (size : Nat) (pointer : UInt32) : Bool :=
  base < pointer && (pointer - base).toNat ≤ size

/-- What is known of a region once it is accepted. -/
structure Verdict where
  order : ByteOrder
  linkBase : UInt32
  landmarks : Landmarks
  /-- the entries looked at, in order -/
  slots : List Slot
  deriving DecidableEq

/-- Examine a region of `size` bytes by its words, of which those complete within the first
`horizon` bytes count. -/
@[specialize] def examine (word : Nat → Word) (horizon size : Nat) :
    Except DetectionFailure Verdict := do
  let marks ← landmarks word horizon
  let order ← guess word marks
  let slots ← walk word order marks.start ((marks.terminator - marks.start) / 2)
  let pointer := (word 0).value order
  let base := linkBase pointer
  -- the array has to be where the table pointer says
  if (pointer - base).toNat ≠ 4 * marks.start then
    throw (.tablePointerMismatch pointer (4 * marks.start))
  -- and what its entries point to has to be there
  match slots.find? fun s => !reaches base size s.payload with
  | some s => throw (.pointerOutOfRange s.payloadOffset s.payload base size)
  | none => return ⟨order, base, marks, slots⟩

end Detection

/-- Examine the configuration area that `region` may be, scanning `horizon` bytes at most. -/
def examineRegion (horizon : Nat) (region : ByteArray) :
    Except DetectionFailure Detection.Verdict :=
  Detection.examine (fun i => region.wordAt (4 * i)) (min horizon region.size) region.size

/-- The byte order of the configuration area that `region` is, or why it is none. -/
def detect (horizon : Nat) (region : ByteArray) : Except DetectionFailure ByteOrder :=
  (examineRegion horizon region).map (·.order)

end ConfigArea
