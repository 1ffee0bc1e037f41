import ConfigArea.Location

/-!
# What the search finds

The search for an area looks for an anchor and then for a page. Both are first hits: of two
different scans for the anchor, one for a blob byte for byte and one for a magic number whose
occurrences are validated, and of a scan backwards over the pages before it. This file says what
they find by conditions on the image alone.

## Key results

- `DeviceTree.startsAt_iff_of_agree`: a plausible header is plausible wherever its blob fits
- `findDeviceTree_eq_some_iff`: the first plausible header, among all aligned offsets
- `findAnchor_eq_some_iff`: the anchor is the least aligned offset that is one
- `searchPages_eq_some_iff`: the area starts at the nearest page that detection accepts
-/

namespace ConfigArea

/-! ## Headers of device trees -/

namespace DeviceTree

/-- The header whose forty bytes stand at `offset`. -/
def headerAt (b : ByteArray) (offset : Nat) : Header :=
  let field i := (b.wordAt (offset + 4 * i)).value .big
  ⟨field 0, field 1, field 2, field 3, field 4, field 5, field 6, field 7, field 8, field 9⟩

variable {b c : ByteArray} {p q : Nat}

/-- Headers of the same forty bytes are the same. -/
theorem headerAt_congr (h : ∀ i, i < 40 → b.byteAt (p + i) = c.byteAt (q + i)) :
    headerAt b p = headerAt c q := by
  -- the ten words of the header lie in its forty bytes
  have hword (i : Nat) (hi : i < 10) : b.wordAt (p + 4 * i) = c.wordAt (q + 4 * i) := by
    apply ByteArray.wordAt_congr
    intro k hk
    rw [Nat.add_assoc, Nat.add_assoc, h _ (by omega)]
  simp only [headerAt, hword 0 (by decide), hword 1 (by decide), hword 2 (by decide),
    hword 3 (by decide), hword 4 (by decide), hword 5 (by decide), hword 6 (by decide),
    hword 7 (by decide), hword 8 (by decide), hword 9 (by decide)]

/-- A device tree starts where there is room for a header, and the header there is plausible. -/
theorem startsAt_iff :
    startsAt b p = true ↔ p + 40 ≤ b.size ∧ (headerAt b p).isPlausible (b.size - p) = true := by
  have hsize : (b.extract p (p + 40)).size = min (p + 40) b.size - p := ByteArray.size_extract
  by_cases h : p + 40 ≤ b.size
  · -- the header is read off the forty bytes that are cut out
    have hheader : headerAt (b.extract p (p + 40)) 0 = headerAt b p := by
      apply headerAt_congr
      intro i hi
      rw [Nat.zero_add, ByteArray.byteAt_extract (by omega)]
    have hread : Header.read? (b.extract p (p + 40)) = some (headerAt b p) := by
      rw [Header.read?, if_pos (by omega), ← hheader]
      rfl
    rw [startsAt, hread]
    simp only [h, true_and]
  · -- there is no header
    have hread : Header.read? (b.extract p (p + 40)) = none := by
      rw [Header.read?, if_neg (by omega)]
    rw [startsAt, hread]
    simp only [Bool.false_eq_true, h, false_and]

/-- What a device tree that starts at an offset says about the bytes there: the magic number, and
the size of a blob that holds at least its header and is all there. -/
theorem bounds_of_startsAt (h : startsAt b p = true) :
    (b.wordAt p).value .big = magic ∧ 40 ≤ ((b.wordAt (p + 4)).value .big).toNat ∧
      p + ((b.wordAt (p + 4)).value .big).toNat ≤ b.size := by
  obtain ⟨hle, h⟩ := startsAt_iff.1 h
  obtain ⟨hmagic, ⟨htotal, hthere⟩, -⟩ := Header.isPlausible_iff.1 h
  have hthere : ((b.wordAt (p + 4)).value .big).toNat ≤ b.size - p := hthere
  exact ⟨hmagic, htotal, by omega⟩

/-- Where a device tree starts, its header is that of a device tree wherever else it stands, if the
blob fits there. -/
theorem startsAt_iff_of_agree (h : startsAt b p = true)
    (hagree : ∀ i, i < 40 → b.byteAt (p + i) = c.byteAt (q + i)) :
    startsAt c q = true ↔ q + ((b.wordAt (p + 4)).value .big).toNat ≤ c.size := by
  obtain ⟨-, htotal, -⟩ := bounds_of_startsAt h
  obtain ⟨hmagic, -, hrest⟩ := Header.isPlausible_iff.1 (startsAt_iff.1 h).2
  have hsize : ((headerAt b p).totalSize).toNat = ((b.wordAt (p + 4)).value .big).toNat := rfl
  -- all checks but that for room say the same of the same header
  rw [startsAt_iff, ← headerAt_congr hagree, Header.isPlausible_iff, hsize]
  constructor
  · intro h
    obtain ⟨hle, -, ⟨-, hthere⟩, -⟩ := h
    omega
  · intro h
    exact ⟨by omega, hmagic, ⟨htotal, by omega⟩, hrest⟩

end DeviceTree

/-! ## Anchors -/

/-- What is found among the occurrences of a signature is the first one that is accepted. -/
theorem found_searchSignature {haystack : ByteArray} {signature : UInt32} {accept : Nat → Bool}
    {i count : Nat} :
    (searchSignature haystack signature accept i count).found =
      (firstIndex (fun k => (haystack.wordAt (4 * k)).value .big == signature && accept (4 * k))
        i (i + count)).map (4 * ·) := by
  rw [firstIndex, Nat.add_sub_cancel_left]
  -- Induction on the number of words that are left.
  induction count generalizing i with
  | zero => rfl
  | succ count ih =>
    rw [searchSignature, firstSome]
    by_cases hword : (haystack.wordAt (4 * i)).value .big = signature
    · by_cases haccept : accept (4 * i) = true
      · -- an occurrence that is accepted is found
        simp [hword, haccept]
      · -- an occurrence that is rejected is only noted
        simp [hword, haccept, ih]
    · simp [hword, ih]

/-- The device tree found is at the least aligned offset at which one starts: the search passes over
no header, since each begins with the magic number. -/
theorem findDeviceTree_eq_some_iff {b : ByteArray} {q : Nat} :
    findDeviceTree b = some q ↔ q % 4 = 0 ∧ DeviceTree.startsAt b q = true ∧
      ∀ r, r % 4 = 0 → r < q → DeviceTree.startsAt b r = false := by
  -- every header begins with the signature that is searched for
  have hmagic (r : Nat) (h : DeviceTree.startsAt b r = true) :
      ((b.wordAt r).value .big == DeviceTree.magic) = true :=
    beq_iff_eq.2 (DeviceTree.bounds_of_startsAt h).1
  rw [findDeviceTree, findSignature, found_searchSignature, Nat.zero_add]
  simp only [Option.map_eq_some_iff, firstIndex_eq_some_iff, Bool.and_eq_true]
  constructor
  · intro h
    obtain ⟨k, ⟨-, -, ⟨-, hk⟩, hmin⟩, rfl⟩ := h
    refine ⟨by omega, hk, fun r hr hlt => ?_⟩
    have hrest := hmin (r / 4) (Nat.zero_le _) (by omega)
    rw [show 4 * (r / 4) = r by omega] at hrest
    -- an earlier header would have been a hit
    cases hstarts : DeviceTree.startsAt b r with
    | false => rfl
    | true =>
      rw [hmagic r hstarts, hstarts] at hrest
      cases hrest
  · intro h
    obtain ⟨hq, hstarts, hmin⟩ := h
    have hle := (DeviceTree.bounds_of_startsAt hstarts).2
    -- the word at that offset is tested and accepted, and no word before it is both
    refine ⟨q / 4, ⟨Nat.zero_le _, by omega, ?_, fun j _ hj => ?_⟩, by omega⟩
    · rw [show 4 * (q / 4) = q by omega]
      exact ⟨hmagic q hstarts, hstarts⟩
    · rw [hmin (4 * j) (by omega) (by omega), Bool.and_false]

/-- The needle stands where a part of the haystack is the needle. -/
theorem standsAt_iff_extract {haystack needle : ByteArray} {q : Nat}
    (h : q + needle.size ≤ haystack.size) :
    standsAt haystack needle q = true ↔ haystack.extract q (q + needle.size) = needle := by
  have hsize : (haystack.extract q (q + needle.size)).size = needle.size := by
    rw [ByteArray.size_extract]
    omega
  rw [standsAt_iff]
  constructor
  · -- the bytes of the part are those that were compared
    intro hbytes
    apply ByteArray.ext_byteAt hsize
    intro i hi
    rw [ByteArray.byteAt_extract (by omega), hbytes i (by omega)]
  · intro heq i hi
    conv => rhs; rw [← heq]
    rw [ByteArray.byteAt_extract (by omega)]

/-- The offset `q` is one at which an anchor stands: the supplied device tree, byte for byte, or if
there is none, any plausible one. -/
def IsAnchor (image : ByteArray) (dtb : Option ByteArray) (q : Nat) : Prop :=
  match dtb with
  | some blob => 0 < blob.size ∧ image.extract q (q + blob.size) = blob
  | none => DeviceTree.startsAt image q = true

/-- How an anchor is found. -/
def AnchorSource.ofSupplied (dtb : Option ByteArray) : AnchorSource :=
  match dtb with
  | some _ => .supplied
  | none => .signature

/-- The anchor is at the least aligned offset at which one stands. -/
theorem findAnchor_eq_some_iff {image : ByteArray} {dtb : Option ByteArray} {anchor : Anchor} :
    findAnchor image dtb = some anchor ↔ anchor.source = .ofSupplied dtb ∧
      anchor.offset % 4 = 0 ∧ IsAnchor image dtb anchor.offset ∧
        ∀ r, r % 4 = 0 → r < anchor.offset → ¬IsAnchor image dtb r := by
  obtain ⟨q, source⟩ := anchor
  cases dtb with
  | none =>
    simp only [findAnchor, Option.map_eq_some_iff, Anchor.mk.injEq, findDeviceTree_eq_some_iff,
      IsAnchor, AnchorSource.ofSupplied, Bool.not_eq_true]
    constructor
    · intro h
      obtain ⟨q', h, rfl, rfl⟩ := h
      exact ⟨rfl, h⟩
    · intro h
      obtain ⟨rfl, h⟩ := h
      exact ⟨q, h, rfl, rfl⟩
  | some blob =>
    simp only [findAnchor, Option.map_eq_some_iff, Anchor.mk.injEq, exactOccurrence?_eq_some_iff,
      IsAnchor, AnchorSource.ofSupplied]
    constructor
    · intro h
      -- what stands there is the blob, and an earlier one would have been found
      obtain ⟨q', ⟨hpos, hq, hle, hstands, hmin⟩, rfl, rfl⟩ := h
      refine ⟨rfl, hq, ⟨hpos, (standsAt_iff_extract hle).1 hstands⟩, fun r hr hlt h => ?_⟩
      have hnone := hmin r hr hlt
      rw [(standsAt_iff_extract (by omega)).2 h.2] at hnone
      cases hnone
    · intro h
      obtain ⟨rfl, hq, ⟨hpos, heq⟩, hmin⟩ := h
      -- a part that is as long as the blob is not cut short
      have hle : q + blob.size ≤ image.size := by
        have hsize := congrArg ByteArray.size heq
        rw [ByteArray.size_extract] at hsize
        omega
      refine ⟨q, ⟨hpos, hq, hle, (standsAt_iff_extract hle).2 heq, fun r hr hlt => ?_⟩, rfl, rfl⟩
      -- where the bytes agree the blob stands
      cases hstands : standsAt image blob r with
      | false => rfl
      | true =>
        exact absurd ⟨hpos, (standsAt_iff_extract (by omega)).1 hstands⟩ (hmin r hr hlt)

/-! ## Pages -/

/-- The part of an image that is examined for an area that starts at `start`. -/
def window (image : ByteArray) (settings : LocatorSettings) (start : Nat) : ByteArray :=
  image.extract start (min (start + settings.areaSize.toNat) image.size)

/-- The page that holds `offset`. -/
def pageOf (settings : LocatorSettings) (offset : Nat) : Nat :=
  alignDown offset settings.areaAlignment.toNat

/-- How far pages are apart. -/
def pageStep (settings : LocatorSettings) : Nat :=
  max settings.areaAlignment.toNat 1

/-- What is found at the page that starts at `start`, if detection accepts it. -/
def candidate (image : ByteArray) (anchor : Anchor) (settings : Settings) (start : Nat) :
    Option Location :=
  match detect settings.detection.scanHorizon.toNat (window image settings.locator start) with
  | .ok order => some ⟨anchor, start, order⟩
  | .error _ => none

variable {image : ByteArray} {anchor : Anchor} {settings : Settings} {location : Location}

/-- An area is located at a page exactly if detection accepts what there is of one. -/
theorem candidate_eq_some_iff {start : Nat} :
    candidate image anchor settings start = some location ↔
      location.anchor = anchor ∧ location.areaOffset = start ∧
        detect settings.detection.scanHorizon.toNat (window image settings.locator start) =
          .ok location.byteOrder := by
  obtain ⟨anchor', start', order⟩ := location
  unfold candidate
  -- the window is accepted or rejected
  split
  · rename_i order' hdetect
    simp only [hdetect, Option.some.injEq, Location.mk.injEq, Except.ok.injEq, eq_comm]
  · rename_i reason hdetect
    simp only [hdetect, reduceCtorEq, and_false]

/-- No area is located at a page exactly if detection rejects it. -/
theorem candidate_eq_none_iff {start : Nat} :
    candidate image anchor settings start = none ↔
      ∃ reason, detect settings.detection.scanHorizon.toNat
        (window image settings.locator start) = .error reason := by
  unfold candidate
  split
  · rename_i order hdetect
    simp only [hdetect, reduceCtorEq, exists_false]
  · rename_i reason hdetect
    simp only [hdetect, Except.error.injEq, exists_eq']

/-- The search tries one page after the other. -/
theorem searchPages_eq_firstSome :
    searchPages image anchor settings =
      firstSome (fun back => candidate image anchor settings
          (pageOf settings.locator anchor.offset - back * pageStep settings.locator)) 0
        (min settings.locator.maxPagesBack.toNat
          (pageOf settings.locator anchor.offset / pageStep settings.locator) + 1) :=
  rfl

/-- The area found starts at the nearest page, of those to be tried, at which detection accepts what
there is of an area. -/
theorem searchPages_eq_some_iff :
    searchPages image anchor settings = some location ↔
      location.anchor = anchor ∧ ∃ back, back ≤ settings.locator.maxPagesBack.toNat ∧
        location.areaOffset + back * pageStep settings.locator =
          pageOf settings.locator anchor.offset ∧
        detect settings.detection.scanHorizon.toNat
          (window image settings.locator location.areaOffset) = .ok location.byteOrder ∧
        ∀ j, j < back → ∃ reason, detect settings.detection.scanHorizon.toNat
          (window image settings.locator (pageOf settings.locator anchor.offset -
            j * pageStep settings.locator)) = .error reason := by
  have hstep : 0 < pageStep settings.locator :=
    Nat.lt_of_lt_of_le Nat.one_pos (Nat.le_max_right ..)
  -- the pages that are tried are those that do not lie before the image
  have htried (back : Nat) : back < 0 + (min settings.locator.maxPagesBack.toNat
      (pageOf settings.locator anchor.offset / pageStep settings.locator) + 1) ↔
        back ≤ settings.locator.maxPagesBack.toNat ∧
          back * pageStep settings.locator ≤ pageOf settings.locator anchor.offset := by
    rw [← Nat.le_div_iff_mul_le hstep]
    omega
  simp only [searchPages_eq_firstSome, firstSome_eq_some_iff, htried, candidate_eq_some_iff,
    candidate_eq_none_iff, Nat.zero_le, true_and, true_imp_iff]
  constructor
  · intro h
    -- a page that is tried lies in the image, so its distance can be added back
    obtain ⟨back, ⟨hback, hle⟩, ⟨hanchor, hstart, hdetect⟩, hmin⟩ := h
    rw [← hstart] at hdetect
    exact ⟨hanchor, back, hback, by omega, hdetect, hmin⟩
  · intro h
    obtain ⟨hanchor, back, hback, hstart, hdetect, hmin⟩ := h
    -- and the page is its distance away from that of the anchor
    have hstart' : location.areaOffset =
        pageOf settings.locator anchor.offset - back * pageStep settings.locator := by
      omega
    rw [hstart'] at hdetect
    exact ⟨back, ⟨hback, by omega⟩, ⟨hanchor, hstart', hdetect⟩, hmin⟩

end ConfigArea
