import ConfigArea.Proofs.Analysis.Agreement
import ConfigArea.Proofs.Location.Search

/-!
# Data before an image

A kernel image can be part of a larger file. This file shows that what is put before an image only
moves what is found in it: if the data are whole words and whole pages and no anchor starts among
them, then the search finds the same area further on, and the analysis gives the same table, or
fails for the same reason, with every offset larger by the size of the data. The longer image has
more pages before the one of the anchor, but those are tried last.

## Key results

- `isAnchor_prepend`, `window_prepend`: what the search looks at moves
- `findAnchor_prepend`, `searchPages_prepend`: so does what it finds
- `relocate_prepend`: a region of the image is relocated as before
- `analyze_prepend`: search and analysis in the longer image
-/

namespace ConfigArea

/-- The anchor in an image in which it stands `n` bytes further on. -/
def Anchor.shift (n : Nat) (anchor : Anchor) : Anchor :=
  { anchor with offset := anchor.offset + n }

/-- The location in an image in which its area lies `n` bytes further on. -/
def Location.shift (n : Nat) (location : Location) : Location :=
  { location with
    anchor := location.anchor.shift n
    areaOffset := location.areaOffset + n }

variable {pre image : ByteArray} {dtb : Option ByteArray} {settings : Settings}

/-- A part of the image is the part of the longer image that lies further on. -/
theorem extract_prepend {start stop : Nat} :
    (pre ++ image).extract (start + pre.size) (stop + pre.size) = image.extract start stop := by
  rw [Nat.add_comm start, Nat.add_comm stop, ByteArray.extract_append_size_add]

/-! ## Anchors -/

/-- A device tree starts in the image where one starts further on in the longer image. -/
theorem DeviceTree.startsAt_prepend {q : Nat} :
    startsAt (pre ++ image) (q + pre.size) = startsAt image q := by
  rw [startsAt_eq, startsAt_eq, ByteArray.size_append, Nat.add_comm pre.size, extract_prepend]

/-- Where an anchor of the image stands, one stands in the longer image, and nowhere else behind
the data. -/
theorem isAnchor_prepend {q : Nat} :
    IsAnchor (pre ++ image) dtb (q + pre.size) ↔ IsAnchor image dtb q := by
  cases dtb with
  | none => rw [IsAnchor, IsAnchor, DeviceTree.startsAt_prepend]
  | some blob => rw [IsAnchor, IsAnchor, Nat.add_right_comm, extract_prepend]

/-- The first anchor of the image is the first one of the longer image, unless there is one among
the data. -/
theorem findAnchor_prepend {anchor : Anchor} (hwords : pre.size % 4 = 0)
    (hnone : ∀ q, q % 4 = 0 → q < pre.size → ¬IsAnchor (pre ++ image) dtb q)
    (h : findAnchor image dtb = some anchor) :
    findAnchor (pre ++ image) dtb = some (anchor.shift pre.size) := by
  obtain ⟨hsource, hq, hanchor, hmin⟩ := findAnchor_eq_some_iff.1 h
  refine findAnchor_eq_some_iff.2 ⟨hsource, ?_, isAnchor_prepend.2 hanchor, fun r hr hlt => ?_⟩
  · -- the anchor is as aligned as before, since the data are whole words
    show (anchor.offset + pre.size) % 4 = 0
    omega
  · -- no anchor comes before it, neither among the data nor behind them
    by_cases hpre : r < pre.size
    · exact hnone r hr hpre
    · -- behind the data the offset is one of the image
      have hlt : r < anchor.offset + pre.size := hlt
      have hback : r = r - pre.size + pre.size := by omega
      rw [hback, isAnchor_prepend]
      exact hmin (r - pre.size) (by omega) (by omega)

/-! ## Pages -/

/-- What is examined at a page of the image is what is examined further on in the longer image. -/
theorem window_prepend {settings : LocatorSettings} {start : Nat} :
    window (pre ++ image) settings (start + pre.size) = window image settings start := by
  have hstop : min (start + pre.size + settings.areaSize.toNat) (pre ++ image).size =
      min (start + settings.areaSize.toNat) image.size + pre.size := by
    rw [ByteArray.size_append]
    omega
  rw [window, window, hstop, extract_prepend]

/-- The area found in the image is the one found in the longer image: the pages tried before it are
pages of the image too. -/
theorem searchPages_prepend {anchor : Anchor} {location : Location}
    (hpages : settings.locator.areaAlignment.toNat.isPowerOfTwo)
    (haligned : pre.size % settings.locator.areaAlignment.toNat = 0)
    (h : searchPages image anchor settings = some location) :
    searchPages (pre ++ image) (anchor.shift pre.size) settings =
      some (location.shift pre.size) := by
  obtain ⟨hanchor, back, hback, hstart, hdetect, hmin⟩ := searchPages_eq_some_iff.1 h
  -- the data are whole pages, so the page of the anchor moves by their size
  have hpage : pageOf settings.locator (anchor.shift pre.size).offset =
      pageOf settings.locator anchor.offset + pre.size :=
    alignDown_add hpages haligned
  refine searchPages_eq_some_iff.2
    ⟨congrArg (Anchor.shift pre.size) hanchor, back, hback, ?_, ?_, fun j hj => ?_⟩
  · -- the area lies as many pages back as before
    show location.areaOffset + pre.size + back * pageStep settings.locator = _
    rw [hpage]
    omega
  · -- it is accepted there
    show detect _ (window (pre ++ image) _ (location.areaOffset + pre.size)) = _
    rw [window_prepend]
    exact hdetect
  · -- and what was rejected before it is rejected again
    have hle : j * pageStep settings.locator ≤ back * pageStep settings.locator :=
      Nat.mul_le_mul_right _ (Nat.le_of_lt hj)
    have htried : pageOf settings.locator (anchor.shift pre.size).offset -
        j * pageStep settings.locator =
          pageOf settings.locator anchor.offset - j * pageStep settings.locator + pre.size := by
      rw [hpage]
      omega
    rw [htried, window_prepend]
    exact hmin j hj

/-! ## Regions -/

/-- A region of the image is relocated in the longer image as it is in the image, but for the
offsets. -/
theorem relocate_prepend {horizon offset size : Nat} (hfit : offset + size ≤ image.size)
    (hsize : (pre ++ image).size < 0x8000000000000000) :
    relocate horizon (pre ++ image) (offset + pre.size) size =
      carry (RelocationFailure.shift pre.size) (Table.shift pre.size)
        (relocate horizon image offset size) := by
  have hsum : (pre ++ image).size = pre.size + image.size := ByteArray.size_append
  have hfit' : offset + pre.size + size ≤ (pre ++ image).size := by omega
  have hsize' : image.size < 0x8000000000000000 := by omega
  -- in both images the region is relocated as it is by itself
  rw [relocate_eq_carry_extract hfit' hsize, relocate_eq_carry_extract hfit hsize',
    Nat.add_right_comm, extract_prepend]
  cases relocate horizon (image.extract offset (offset + size)) 0 size with
  | error reason => exact congrArg Except.error (RelocationFailure.shift_shift ..).symm
  | ok t => exact congrArg Except.ok (Table.shift_shift ..).symm

/-! ## Images -/

/-- What is put before an image moves the area found and does nothing else, if it is of whole words
and whole pages and there is no anchor at its aligned offsets: the search finds the anchor and the
area further on, in the same order, and analysis gives the same table or failure but for the
offsets. -/
theorem analyze_prepend {location : Location} (hsize : (pre ++ image).size < 0x8000000000000000)
    (hpages : settings.locator.areaAlignment.toNat.isPowerOfTwo)
    (hwords : pre.size % 4 = 0) (haligned : pre.size % settings.locator.areaAlignment.toNat = 0)
    (hnone : ∀ q, q % 4 = 0 → q < pre.size → ¬IsAnchor (pre ++ image) dtb q)
    (hfind : findArea image dtb settings = some location) :
    findArea (pre ++ image) dtb settings = some (location.shift pre.size) ∧
      analyze (pre ++ image) dtb settings =
        ((analyze image dtb settings).map (Table.shift pre.size)).mapError
          (AnalysisFailure.shift pre.size) := by
  obtain ⟨anchor, hanchor, hsearch⟩ := findArea_eq_some_iff.1 hfind
  -- the anchor and the page are found further on
  have hmoved : findArea (pre ++ image) dtb settings = some (location.shift pre.size) :=
    findArea_eq_some_iff.2 ⟨_, findAnchor_prepend hwords hnone hanchor,
      searchPages_prepend hpages haligned hsearch⟩
  have hle := Nat.le_of_lt (detect_dump_of_findArea hfind).1
  -- what is left of the longer image behind the area is as much as before
  have hregion : (location.shift pre.size).size (pre ++ image) settings.locator =
      location.size image settings.locator := by
    show min _ ((pre ++ image).size - (location.areaOffset + pre.size)) = min _ _
    rw [ByteArray.size_append]
    omega
  refine ⟨hmoved, ?_⟩
  rw [analyze_eq_of_findArea hmoved, analyze_eq_of_findArea hfind, hregion]
  show (relocate _ (pre ++ image) (location.areaOffset + pre.size) _).mapError _ = _
  rw [relocate_prepend (Location.areaOffset_add_size_le hle) hsize]
  have hname (reason : RelocationFailure) : AnalysisFailure.relocation (reason.shift pre.size) =
      (AnalysisFailure.relocation reason).shift pre.size := rfl
  exact mapError_carry hname _

/-- Behind two words of zeros the area of the image is found at offset 12, with its table moved. -/
theorem analyze_prepend_imageWithBlob :
    ((⟨#[0, 0, 0, 0, 0, 0, 0, 0]⟩ : ByteArray) ++ imageWithBlob).size < 0x8000000000000000 ∧
      findArea (⟨#[0, 0, 0, 0, 0, 0, 0, 0]⟩ ++ imageWithBlob)
          (some ⟨#[0, 0, 0, 0, 0, 0, 0, 8]⟩) settingsForWords =
        some ⟨⟨32, .supplied⟩, 12, .little⟩ ∧
      analyze (⟨#[0, 0, 0, 0, 0, 0, 0, 0]⟩ ++ imageWithBlob)
          (some ⟨#[0, 0, 0, 0, 0, 0, 0, 8]⟩) settingsForWords =
        .ok ⟨.little, 0x80432000, 12, 28, 16,
          [.deviceTree ⟨0, 32, ⟨#[0, 0, 0, 0, 0, 0, 0, 8]⟩⟩]⟩ := by
  have hsize : ((⟨#[0, 0, 0, 0, 0, 0, 0, 0]⟩ : ByteArray) ++ imageWithBlob).size <
      0x8000000000000000 := by decide
  -- neither of the two words is the anchor
  have hnone (q : Nat) (hq : q % 4 = 0) (hlt : q < 8) :
      ¬IsAnchor (⟨#[0, 0, 0, 0, 0, 0, 0, 0]⟩ ++ imageWithBlob)
        (some ⟨#[0, 0, 0, 0, 0, 0, 0, 8]⟩) q := by
    intro h
    obtain rfl | rfl : q = 0 ∨ q = 4 := by omega
    · exact absurd h.2 (by decide)
    · exact absurd h.2 (by decide)
  have hfind : findArea imageWithBlob (some ⟨#[0, 0, 0, 0, 0, 0, 0, 8]⟩) settingsForWords =
      some ⟨⟨24, .supplied⟩, 4, .little⟩ := rfl
  -- the region of the image is the one that is relocated by itself
  have hregion := @relocate_append_eq_carry 16384 ⟨#[0x5a, 0x5a, 0x5a, 0x5a]⟩ regionWithBlob
    ⟨#[0x5a]⟩ (by decide)
  rw [show regionWithBlob.size = 28 from rfl, relocate_regionWithBlob] at hregion
  obtain ⟨harea, hanalyze⟩ := analyze_prepend hsize ⟨2, rfl⟩ rfl rfl hnone hfind
  refine ⟨hsize, harea, ?_⟩
  rw [hanalyze, analyze_eq_of_findArea hfind]
  exact congrArg (fun outcome => ((outcome.mapError AnalysisFailure.relocation).map
    (Table.shift 8)).mapError (AnalysisFailure.shift 8)) hregion

end ConfigArea
