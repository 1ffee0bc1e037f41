import ConfigArea.Bytes
import ConfigArea.DeviceTree.Header

/-!
# Occurrences of a pattern

Blobs are linked into an image as aligned data, so both searches look at word-aligned offsets only:
one for a whole blob byte for byte, one for a signature whose occurrences a test then accepts or
rejects.

* `exactOccurrence?_eq_some_iff`: the least aligned offset at which the blob stands
-/

namespace ConfigArea

/-- Whether `needle` stands at `offset` of `haystack`, byte for byte. -/
def standsAt (haystack needle : ByteArray) (offset : Nat) : Bool :=
  (firstIndex (fun i => haystack.byteAt (offset + i) != needle.byteAt i) 0 needle.size).isNone

/-- The least aligned offset at which `needle` stands in `haystack`. An empty needle stands
nowhere. -/
def exactOccurrence? (haystack needle : ByteArray) : Option Nat :=
  if needle.size = 0 ∨ haystack.size < needle.size then none
  else
    (firstIndex (fun i => standsAt haystack needle (4 * i)) 0
      ((haystack.size - needle.size) / 4 + 1)).map (4 * ·)

/-- What a search for a signature met. -/
structure SignatureSearch where
  /-- the occurrence that was accepted -/
  found : Option Nat
  /-- the occurrences that were tested, in order -/
  tested : List Nat
  deriving DecidableEq

/-- Search the words from word `i` on, `count` at most, for the signature stored in big-endian
order. Only occurrences are tested, and the first one that passes ends the search. -/
@[specialize] def searchSignature (haystack : ByteArray) (signature : UInt32)
    (accept : Nat → Bool) (i : Nat) : (count : Nat) → SignatureSearch
  | 0 => ⟨none, []⟩
  | count + 1 =>
    if (haystack.wordAt (4 * i)).value .big = signature then
      if accept (4 * i) then ⟨some (4 * i), [4 * i]⟩
      else
        let rest := searchSignature haystack signature accept (i + 1) count
        { rest with tested := 4 * i :: rest.tested }
    else searchSignature haystack signature accept (i + 1) count

/-- Search all complete words of `haystack` for an occurrence of the signature that passes. -/
def findSignature (haystack : ByteArray) (signature : UInt32) (accept : Nat → Bool) :
    SignatureSearch :=
  searchSignature haystack signature accept 0 (haystack.size / 4)

/-- The offset of the first plausible device tree. -/
def findDeviceTree (haystack : ByteArray) : Option Nat :=
  (findSignature haystack DeviceTree.magic (DeviceTree.startsAt haystack)).found

/-- The needle stands where every byte of it does. -/
theorem standsAt_iff {haystack needle : ByteArray} {offset : Nat} :
    standsAt haystack needle offset = true ↔
      ∀ i, i < needle.size → haystack.byteAt (offset + i) = needle.byteAt i := by
  simp only [standsAt, Option.isNone_iff_eq_none, firstIndex_eq_none_iff, Nat.zero_le, true_imp_iff,
    bne_eq_false_iff_eq]

/-- A blob is found at the least aligned offset at which it stands. -/
theorem exactOccurrence?_eq_some_iff {haystack needle : ByteArray} {q : Nat} :
    exactOccurrence? haystack needle = some q ↔
      0 < needle.size ∧ q % 4 = 0 ∧ q + needle.size ≤ haystack.size ∧
        standsAt haystack needle q = true ∧
        ∀ r, r % 4 = 0 → r < q → standsAt haystack needle r = false := by
  rw [exactOccurrence?]
  split
  · simp only [reduceCtorEq, false_iff]
    omega
  · simp only [Option.map_eq_some_iff, firstIndex_eq_some_iff]
    constructor
    · -- the word index found is the aligned offset divided by four
      rintro ⟨k, ⟨-, hk, hs, hmin⟩, rfl⟩
      refine ⟨by omega, by omega, by omega, hs, fun r hr hlt => ?_⟩
      have := hmin (r / 4) (Nat.zero_le _) (by omega)
      rwa [show 4 * (r / 4) = r by omega] at this
    · rintro ⟨-, hq, hle, hs, hmin⟩
      refine ⟨q / 4, ⟨Nat.zero_le _, by omega, ?_, fun j _ hj => hmin _ (by omega) (by omega)⟩,
        by omega⟩
      rwa [show 4 * (q / 4) = q by omega]

end ConfigArea
