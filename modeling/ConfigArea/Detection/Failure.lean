import ConfigArea.Word
import ConfigArea.Text.Hex

/-!
# Why a region is no configuration area

The causes for which detection rejects a region, each with what it saw, and their wording.
-/

namespace ConfigArea

/-- The reason a region is rejected. Offsets count from the start of the region. -/
inductive DetectionFailure where
  /-- the first word is no pointer -/
  | missingTablePointer (horizon : Nat)
  /-- no word after the table pointer looks like a tag -/
  | missingArrayStart (horizon : Nat)
  /-- no null payload ends the entry array -/
  | missingArrayEnd (horizon : Nat)
  /-- the word before the null payload is not where a tag can be -/
  | misalignedTerminator (offset : Nat)
  /-- the word before the null payload is zero -/
  | zeroTerminatorTag (offset : Nat)
  /-- a tag is larger than that of the terminator -/
  | invalidTag (offset : Nat) (tag : UInt32) (order : ByteOrder)
  /-- the table pointer does not address the entry array -/
  | tablePointerMismatch (pointer : UInt32) (arrayStart : Nat)
  /-- a payload pointer addresses nothing inside the region -/
  | pointerOutOfRange (offset : Nat) (pointer base : UInt32) (size : Nat)
  deriving DecidableEq

/-- The text that reports the reason. -/
def DetectionFailure.message : DetectionFailure → String
  | missingTablePointer horizon =>
    s!"region does not start with a table pointer ({Hex.number horizon} bytes scanned)"
  | missingArrayStart horizon =>
    s!"no entry array after the table pointer within {Hex.number horizon} bytes"
  | missingArrayEnd horizon => s!"entry array not terminated within {Hex.number horizon} bytes"
  | misalignedTerminator offset =>
    s!"terminator at {Hex.number offset} is not aligned to the entry array"
  | zeroTerminatorTag offset => s!"terminator entry at {Hex.number offset} has a zero tag"
  | invalidTag offset tag order =>
    s!"invalid tag {Hex.number tag.toNat} at {Hex.number offset} read as {order.description}"
  | tablePointerMismatch pointer arrayStart =>
    s!"table pointer {Hex.address pointer} does not address the entry array at " ++
      Hex.number arrayStart
  | pointerOutOfRange offset pointer base size =>
    s!"payload pointer {Hex.address pointer} at {Hex.number offset} outside " ++
      s!"({Hex.address base}, {Hex.address base} + {Hex.number size}]"

end ConfigArea
