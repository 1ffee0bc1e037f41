import ConfigArea.Proofs.Analysis.Agreement
import ConfigArea.Proofs.Location.Search
import Mathlib.Order.Bounds.Basic
import Mathlib.Order.Nat

/-!
# The nearest page

The search goes backwards from the page of the anchor, one page after the other, and stops at the
first one that detection accepts. This file describes it by the set of all numbers of pages back at
which there is something to be found: the area found lies the least of them back, and where the set
is empty nothing is found. Neither the end of the search nor a page that is rejected hides a page
that would be accepted.

## Key results

- `searchPages_eq_some_iff_isLeast`, `searchPages_eq_none_iff`: hits and misses of the search
- `aligned_of_searchPages`: with pages of a power of two, where the area can lie
- `findArea_nearest`: the search for an area as a whole
-/

namespace ConfigArea

/-- How many pages before that of `offset` there may be an area: as many as are to be tried and do
not lead out of the image, to a page at which detection accepts what there is of an area. -/
def pagesBack (image : ByteArray) (settings : Settings) (offset : Nat) : Set Nat :=
  {k | k ≤ settings.locator.maxPagesBack.toNat ∧
    k * pageStep settings.locator ≤ pageOf settings.locator offset ∧
    ∃ order, detect settings.detection.scanHorizon.toNat (window image settings.locator
      (pageOf settings.locator offset - k * pageStep settings.locator)) = .ok order}

variable {image : ByteArray} {dtb : Option ByteArray} {anchor : Anchor} {settings : Settings}
  {location : Location}

/-- There is nothing to be found at a page that is rejected. -/
theorem not_mem_pagesBack {offset k : Nat} {reason : DetectionFailure}
    (h : detect settings.detection.scanHorizon.toNat (window image settings.locator
      (pageOf settings.locator offset - k * pageStep settings.locator)) = .error reason) :
    k ∉ pagesBack image settings offset := by
  intro hmem
  obtain ⟨order, horder⟩ := hmem.2.2
  rw [h] at horder
  cases horder

/-- The area found lies the least number of pages back. -/
theorem searchPages_eq_some_iff_isLeast :
    searchPages image anchor settings = some location ↔
      location.anchor = anchor ∧ ∃ k, IsLeast (pagesBack image settings anchor.offset) k ∧
        location.areaOffset = pageOf settings.locator anchor.offset -
          k * pageStep settings.locator ∧
        detect settings.detection.scanHorizon.toNat
          (window image settings.locator location.areaOffset) = .ok location.byteOrder := by
  rw [searchPages_eq_some_iff]
  constructor
  · intro h
    obtain ⟨hanchor, k, hk, hstart, hdetect, hmin⟩ := h
    have hstart' : location.areaOffset =
        pageOf settings.locator anchor.offset - k * pageStep settings.locator := by omega
    refine ⟨hanchor, k, ⟨⟨hk, by omega, location.byteOrder, hstart' ▸ hdetect⟩, ?_⟩, hstart',
      hdetect⟩
    -- what is fewer pages back has been rejected
    intro j hj
    by_contra hlt
    obtain ⟨reason, hreason⟩ := hmin j (Nat.not_le.1 hlt)
    exact not_mem_pagesBack hreason hj
  · intro h
    obtain ⟨hanchor, k, ⟨⟨hk, hle, -⟩, hleast⟩, hstart, hdetect⟩ := h
    refine ⟨hanchor, k, hk, by omega, hdetect, fun j hj => ?_⟩
    -- what is fewer pages back is to be tried, and would be less than the least
    cases houtcome : detect settings.detection.scanHorizon.toNat (window image settings.locator
      (pageOf settings.locator anchor.offset - j * pageStep settings.locator)) with
    | error reason => exact ⟨reason, rfl⟩
    | ok order =>
      have hle' := Nat.mul_le_mul_right (pageStep settings.locator) (Nat.le_of_lt hj)
      have hmem : j ∈ pagesBack image settings anchor.offset :=
        ⟨by omega, by omega, order, houtcome⟩
      exact absurd (hleast hmem) (Nat.not_le.2 hj)

/-- Nothing is found only where there is nothing to be found. -/
theorem searchPages_eq_none_iff :
    searchPages image anchor settings = none ↔ pagesBack image settings anchor.offset = ∅ := by
  constructor
  · intro h
    by_contra hne
    -- a set of numbers that is not empty has a least one, at which an area is found
    obtain ⟨k, hk⟩ : ∃ k, IsLeast (pagesBack image settings anchor.offset) k := by
      classical
      exact ⟨_, (Set.nonempty_iff_ne_empty.2 hne).isLeast_natFind⟩
    obtain ⟨order, horder⟩ := hk.1.2.2
    have hsome : searchPages image anchor settings = some ⟨anchor, _, order⟩ :=
      searchPages_eq_some_iff_isLeast.2 ⟨rfl, k, hk, rfl, horder⟩
    rw [h] at hsome
    cases hsome
  · intro h
    cases hsearch : searchPages image anchor settings with
    | none => rfl
    | some location =>
      -- a location would lie at one of the pages
      obtain ⟨-, k, hk, -⟩ := searchPages_eq_some_iff_isLeast.1 hsearch
      rw [h] at hk
      exact absurd hk.1 (Set.notMem_empty k)

/-- No area is found exactly where there is no anchor, or nothing at any page to be tried. -/
theorem findArea_eq_none_iff :
    findArea image dtb settings = none ↔ findAnchor image dtb = none ∨
      ∃ anchor, findAnchor image dtb = some anchor ∧
        pagesBack image settings anchor.offset = ∅ := by
  rw [findArea]
  cases findAnchor image dtb with
  | none => simp
  | some anchor => simp [searchPages_eq_none_iff]

/-- Pages of a power of two start at its multiples, and the area starts before its anchor, at most
as far as there are pages to be tried. -/
theorem aligned_of_searchPages (hpages : settings.locator.areaAlignment.toNat.isPowerOfTwo)
    (h : searchPages image anchor settings = some location) :
    location.areaOffset % settings.locator.areaAlignment.toNat = 0 ∧
      location.areaOffset ≤ anchor.offset ∧
      anchor.offset < location.areaOffset +
        (settings.locator.maxPagesBack.toNat + 1) * settings.locator.areaAlignment.toNat := by
  obtain ⟨-, k, hk, hstart, -⟩ := searchPages_eq_some_iff.1 h
  have hpos : 0 < settings.locator.areaAlignment.toNat := Nat.pos_of_isPowerOfTwo hpages
  have hstep : pageStep settings.locator = settings.locator.areaAlignment.toNat :=
    Nat.max_eq_left hpos
  have hpage : pageOf settings.locator anchor.offset =
      anchor.offset - anchor.offset % settings.locator.areaAlignment.toNat :=
    alignDown_eq_sub_mod hpages
  have hmod := Nat.mod_lt anchor.offset hpos
  have hdiv := Nat.div_add_mod anchor.offset settings.locator.areaAlignment.toNat
  have hback := Nat.mul_le_mul_right settings.locator.areaAlignment.toNat hk
  -- from here on it is arithmetic of the alignment
  rw [hstep, hpage] at hstart
  generalize settings.locator.areaAlignment.toNat = a at *
  refine ⟨?_, by omega, ?_⟩
  · -- both the page and the pages back are multiples
    have hsum : location.areaOffset + k * a = a * (anchor.offset / a) := by omega
    have : (location.areaOffset + k * a) % a = 0 := by rw [hsum, Nat.mul_mod_right]
    rwa [Nat.add_mul_mod_self_right] at this
  · -- the anchor lies in the page from which the search goes back
    rw [Nat.add_mul, Nat.one_mul]
    omega

/-- The search finds the area the least number of pages back at which detection accepts what there
is of one, in the order detected there and with the anchor from which it started; and it finds
nothing exactly where there is no anchor or no such page. Where pages are of a power of two the area
starts at a multiple of it, and holds the anchor in the pages that are tried. -/
theorem findArea_nearest (image : ByteArray) (dtb : Option ByteArray) (settings : Settings) :
    (∀ location, findArea image dtb settings = some location ↔
      ∃ anchor, findAnchor image dtb = some anchor ∧ location.anchor = anchor ∧
        ∃ k, IsLeast (pagesBack image settings anchor.offset) k ∧
          location.areaOffset = pageOf settings.locator anchor.offset -
            k * pageStep settings.locator ∧
          detect settings.detection.scanHorizon.toNat
            (window image settings.locator location.areaOffset) = .ok location.byteOrder) ∧
      (findArea image dtb settings = none ↔ findAnchor image dtb = none ∨
        ∃ anchor, findAnchor image dtb = some anchor ∧
          pagesBack image settings anchor.offset = ∅) ∧
      ∀ location, findArea image dtb settings = some location →
        settings.locator.areaAlignment.toNat.isPowerOfTwo →
          location.areaOffset % settings.locator.areaAlignment.toNat = 0 ∧
            location.areaOffset ≤ location.anchor.offset ∧
            location.anchor.offset < location.areaOffset +
              (settings.locator.maxPagesBack.toNat + 1) *
                settings.locator.areaAlignment.toNat := by
  refine ⟨fun location => ?_, findArea_eq_none_iff, fun location hfind hpages => ?_⟩
  · -- the anchor is found first, then the page
    simp only [findArea_eq_some_iff, searchPages_eq_some_iff_isLeast]
  · -- the bounds are those of the search over pages
    obtain ⟨anchor, -, hsearch⟩ := findArea_eq_some_iff.1 hfind
    have hanchor : location.anchor = anchor := (searchPages_eq_some_iff.1 hsearch).1
    rw [hanchor]
    exact aligned_of_searchPages hpages hsearch

/-- The area of this image lies five pages before that of its anchor, as far back as is tried. -/
theorem findArea_nearest_imageWithBlob :
    findArea imageWithBlob (some ⟨#[0, 0, 0, 0, 0, 0, 0, 8]⟩) settingsForWords =
        some ⟨⟨24, .supplied⟩, 4, .little⟩ ∧
      IsLeast (pagesBack imageWithBlob settingsForWords 24) 5 ∧ 4 % 4 = 0 ∧ 4 ≤ 24 ∧
        24 < 4 + (5 + 1) * 4 := by
  have hfind : findArea imageWithBlob (some ⟨#[0, 0, 0, 0, 0, 0, 0, 8]⟩) settingsForWords =
      some ⟨⟨24, .supplied⟩, 4, .little⟩ := rfl
  obtain ⟨hsome, -, haligned⟩ := findArea_nearest imageWithBlob
    (some ⟨#[0, 0, 0, 0, 0, 0, 0, 8]⟩) settingsForWords
  obtain ⟨anchor, -, rfl, k, hleast, hstart, -⟩ := (hsome _).1 hfind
  -- the offset found tells how many pages back it is
  have hk : 4 = 24 - k * 4 := hstart
  obtain rfl : k = 5 := by omega
  exact ⟨hfind, hleast, haligned _ hfind ⟨2, rfl⟩⟩

end ConfigArea
