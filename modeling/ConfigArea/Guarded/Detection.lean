import ConfigArea.Detection
import ConfigArea.Guarded.Bytes

/-!
# Guarded detection

Detection step by step, as it goes over the words of a region with guarded operations: the scan for
the landmarks, the guess of the order, the walk over the entries, and the checks of their pointers.
-/

namespace ConfigArea.Guarded

/-- The bits of an address that name its page of 4 KiB. -/
def pageMask : UInt32 := 0xfffff000

/-- What the scan of a region found. Indices count words. -/
structure Scan where
  words : List ByteArray
  /-- the tag of the first entry -/
  arrayStart : Nat
  /-- one past the terminator -/
  arrayEnd : Nat

/-- The word at an index. -/
def Scan.word (s : Scan) (i : Nat) : Option ByteArray :=
  s.words[i]?

/-- Look for the landmarks in the words that are left, from word `i` on; `start` is the start of the
array once it is known. -/
def scanFrom (horizon : Nat) (all : List ByteArray) :
    (left : List ByteArray) → (i : Nat) → (start : Option Nat) → Guarded DetectionFailure Scan
  | [], _, none => throw (.missingArrayStart horizon)
  | [], _, some _ => throw (.missingArrayEnd horizon)
  | word :: left, i, none => do
    if wordKind word = .tag then scanFrom horizon all left (← add i 1) (some i)
    else scanFrom horizon all left (← add i 1) none
  | word :: left, i, some start => do
    if wordKind word = .zero then return ⟨all, start, ← add i 1⟩
    else scanFrom horizon all left (← add i 1) (some start)

/-- Scan the words in the first `horizon` bytes of a region. -/
def scan (horizon : Nat) (region : ByteArray) : Guarded DetectionFailure Scan := do
  let horizon := min horizon region.size
  match words (← slice region 0 horizon) with
  | [] => throw (.missingTablePointer horizon)
  | word :: left =>
    if wordKind word = .pointer then scanFrom horizon (word :: left) left 1 none
    else throw (.missingTablePointer horizon)

/-- The order in which the terminator's tag is an ordinal. -/
def guess (s : Scan) : Guarded DetectionFailure ByteOrder := do
  let terminator ← sub s.arrayEnd 2
  let distance ← sub terminator s.arrayStart
  if distance % 2 ≠ 0 then throw (.misalignedTerminator (← mul terminator 4))
  else
    let word ← s.word terminator
    let tag ← wordValue word .host
    if tag = 0 then throw (.zeroTerminatorTag (← mul terminator 4))
    else if Tag.lastRaw < tag then return ByteOrder.host.swapped
    else return .host

/-- Walk over the entries from word `i` on, and collect the offsets and values of their payload
pointers. -/
def walk (s : Scan) (order : ByteOrder) (i : Nat) (payloads : List (Nat × UInt32)) :
    Guarded DetectionFailure (List (Nat × UInt32)) := do
  let next ← add i 1
  if next < s.arrayEnd then
    let payload ← s.word next
    if wordKind payload = .zero then return payloads
    else
      let tag ← wordValue (← s.word i) order
      if Tag.lastRaw < tag then throw (.invalidTag (← mul i 4) tag order)
      else
        let offset ← mul next 4
        let pointer ← wordValue payload order
        if tag = Tag.lastRaw then return payloads ++ [(offset, pointer)]
        else
          let ⟨after, _⟩ ← advance i 2
          walk s order after (payloads ++ [(offset, pointer)])
  else return payloads
termination_by limit - i
decreasing_by omega

/-- The link-time address of the area, if the table pointer addresses the entry array. -/
def checkTablePointer (s : Scan) (order : ByteOrder) : Guarded DetectionFailure UInt32 := do
  let pointer ← wordValue (← s.word 0) order
  let base := pointer &&& pageMask
  let arrayStart ← mul s.arrayStart 4
  if (← sub32 pointer base).toNat ≠ arrayStart then
    throw (.tablePointerMismatch pointer arrayStart)
  else return base

/-- Check that each payload pointer addresses a byte of the region behind its first, or its end. -/
def checkPayloads (base : UInt32) (size : Nat) : List (Nat × UInt32) → Guarded DetectionFailure Unit
  | [] => return
  | (offset, pointer) :: payloads => do
    if pointer ≤ base then throw (.pointerOutOfRange offset pointer base size)
    else if size < (← sub32 pointer base).toNat then
      throw (.pointerOutOfRange offset pointer base size)
    else checkPayloads base size payloads

/-- The byte order of the configuration area that `region` is, or why it is none. -/
def detect (horizon : Nat) (region : ByteArray) : Guarded DetectionFailure ByteOrder := do
  let s ← scan horizon region
  let order ← guess s
  let payloads ← walk s order s.arrayStart []
  let base ← checkTablePointer s order
  checkPayloads base region.size payloads
  -- the offset of the array is reported
  let _ ← mul s.arrayStart 4
  return order

end ConfigArea.Guarded
