import ConfigArea.Guarded.Bytes
import ConfigArea.Occurrence
import Mathlib

/-!
# Guarded searches for a pattern

The two searches step by step, and the check of a device tree's header: the candidates of a blob and
their comparison word by word, and the words that may be a signature.
-/

namespace ConfigArea.Guarded

/-! ## Whole blobs -/

/-- Whether two byte strings of one size agree, word by word and then behind the last word. -/
def agree (a b : ByteArray) : Bool :=
  decide (words b <+: words a) && decide (remainder a = remainder b)

/-- Whether the needle, of which `first` is the first word or less and `rest` what follows, stands
at `start`. -/
def standsAt (haystack needle first rest : ByteArray) (start : Nat) : Option Bool := do
  let candidate ← slice haystack start (← add start needle.size)
  if (← slice candidate 0 first.size) = first then
    return agree (← slice candidate first.size candidate.size) rest
  else return false

/-- The least aligned offset at which `needle` stands in `haystack`. -/
def exactOccurrence (haystack needle : ByteArray) : Option (Option Nat) := do
  if needle.size = 0 ∨ haystack.size < needle.size then return none
  else
    let (first, rest) ← splitAt needle (min needle.size 4)
    let last ← sub haystack.size needle.size
    let starts := (List.range (last / 4 + 1)).map (4 * ·)
    starts.findM? (standsAt haystack needle first rest)

/-! ## Signatures -/

/-- Search the words that are left, from word `i` on, for an occurrence of a pattern that is
accepted. -/
def findPattern (pattern : ByteArray) (accept : Nat → Option Bool) :
    (left : List ByteArray) → (i : Nat) → Option (Option Nat)
  | [], _ => return none
  | word :: left, i => do
    let next ← add i 1
    if word = pattern then
      let offset ← mul i 4
      if ← accept offset then return some offset
      else findPattern pattern accept left next
    else findPattern pattern accept left next

/-! ## Headers -/

/-- Field `i` of the header at the start of `b`. -/
def headerField (b : ByteArray) (i : Nat) : Guarded Truncated UInt32 := do
  readU32 b (← mul i 4) .big

/-- The header at the start of `b`. -/
def readHeader (b : ByteArray) : Guarded Truncated DeviceTree.Header :=
  return ⟨← headerField b 0, ← headerField b 1, ← headerField b 2, ← headerField b 3,
    ← headerField b 4, ← headerField b 5, ← headerField b 6, ← headerField b 7,
    ← headerField b 8, ← headerField b 9⟩

/-- Whether a block of `size` bytes at `offset` ends inside the blob. -/
def holds (h : DeviceTree.Header) (offset size : UInt32) : Option Bool := do
  return decide ((← add offset.toNat size.toNat) ≤ h.totalSize.toNat)

/-- Whether the header can be that of a blob of which `available` bytes are there. -/
def isPlausible (h : DeviceTree.Header) (available : Nat) : Option Bool := do
  if h.magic ≠ DeviceTree.magic then return false
  if h.totalSize.toNat < 40 ∨ available < h.totalSize.toNat then return false
  if ¬(1 ≤ h.lastCompatibleVersion ∧ h.lastCompatibleVersion ≤ DeviceTree.newestCompatible) ∨
      h.version < h.lastCompatibleVersion ∨ DeviceTree.newestVersion < h.version then return false
  if h.reserveMapOffset.toNat < 40 then return false
  if !(← holds h h.reserveMapOffset 0) then return false
  if !(← holds h h.structOffset 0) then return false
  if !(← holds h h.stringsOffset 0) then return false
  if 17 ≤ h.version then
    if !(← holds h h.structOffset h.structSize) then return false
  if 3 ≤ h.version then
    if !(← holds h h.stringsOffset h.stringsSize) then return false
  return true

/-- Whether `b` starts with a plausible device tree. -/
def looksLikeDeviceTree (b : ByteArray) : Option Bool := do
  match ← (readHeader b).run with
  | .error _ => return false
  | .ok h => isPlausible h b.size

/-- The offset of the first plausible device tree. -/
def findDeviceTree (haystack : ByteArray) : Option (Option Nat) :=
  findPattern (Word.encode DeviceTree.magic .big).toBytes
    (fun offset => do looksLikeDeviceTree (← slice haystack offset haystack.size))
    (words haystack) 0

end ConfigArea.Guarded
