import ConfigArea.Guarded.Location
import ConfigArea.Proofs.Guarded.Detection
import ConfigArea.Proofs.Guarded.Occurrence

/-!
# The search for the area goes through

No image and no settings stop the search, whatever the alignment, the size of an area and the number
of pages to be tried: what lies before the image is given up before it is examined. So the pages
that are examined are as many as there are in front of the anchor, at most, and not as many as are
asked for.

## Key results

- `searchPages_eq`: the search over pages goes through, and how many pages it examines
- `findAnchor_eq`, `findArea_eq`, `dump_eq`: the search for the area goes through
-/

namespace ConfigArea.Guarded

variable {image : ByteArray} {anchor : Anchor} {settings : Settings}

/-- The bits that a mask of 64 bits names are cleared, and those of 0 and 1 are none. -/
theorem alignDown_eq {value alignment : Nat} (hvalue : value < 0x10000000000000000)
    (h : alignment < 0x10000000000000000) :
    alignDown value alignment = some (ConfigArea.alignDown value alignment) := by
  rw [alignDown, ConfigArea.alignDown]
  split
  · -- for 0 and 1 the mask is empty
    rename_i hle
    rw [Nat.sub_eq_zero_of_le hle, Nat.and_zero, Nat.sub_zero]
  · rw [sub_of_le (by omega), Option.map_some, clear_eq_sub hvalue (by omega)]

/-- The search for the anchor goes through. -/
theorem findAnchor_eq (h : image.size < 0x8000000000000000) (dtb : Option ByteArray) :
    findAnchor image dtb = some (ConfigArea.findAnchor image dtb) := by
  cases dtb with
  | some blob =>
    rw [findAnchor, exactOccurrence_eq h]
    rfl
  | none =>
    rw [findAnchor, findDeviceTree_eq h]
    rfl

/-- An anchor stands inside the image. -/
theorem offset_lt_of_findAnchor {dtb : Option ByteArray}
    (h : ConfigArea.findAnchor image dtb = some anchor) : anchor.offset < image.size := by
  obtain ⟨-, -, hanchor, -⟩ := findAnchor_eq_some_iff.1 h
  cases dtb with
  | some blob =>
    -- the blob is a part of the image, and not empty
    have hsize := congrArg ByteArray.size hanchor.2
    rw [ByteArray.size_extract] at hsize
    have hpos := hanchor.1
    omega
  | none =>
    have hle := (DeviceTree.startsAt_iff.1 hanchor).1
    omega

/-! ## Pages -/

/-- A page that would lie before the image is given up, even one that is too far away for its
distance to be a number of 64 bits. -/
theorem mul_bind_sub {page step back : Nat} (h : page < 0x10000000000000000) :
    (mul back step).bind (sub page) =
      if back * step ≤ page then some (page - back * step) else none := by
  rw [mul, limit]
  split
  · rfl
  · rw [if_neg (by omega), Option.bind_none]

/-- The end of an area that starts in the image is not affected by the end of the numbers. -/
theorem min_saturatingAdd (h : image.size < 0x8000000000000000) (start size : Nat) :
    min (saturatingAdd start size) image.size = min (start + size) image.size := by
  unfold saturatingAdd limit
  omega

/-- From each page on, the search goes through, and it examines no more pages than there are. -/
theorem searchFrom_eq (h : image.size < 0x8000000000000000) (anchor : Anchor)
    {page step back count : Nat} (hpage : page ≤ image.size) (hstep : 0 < step)
    (hback : back ≤ settings.locator.maxPagesBack.toNat)
    (hcount : back + count = min settings.locator.maxPagesBack.toNat (page / step) + 1) :
    ∃ search, searchFrom image anchor settings page step back = some search ∧
      search.found =
        firstSome (fun back => candidate image anchor settings (page - back * step)) back count ∧
      search.examined.length ≤ count := by
  -- a page lies in the image if it is no further back than there are pages
  have hinside : back * step ≤ page ↔ back ≤ page / step := (Nat.le_div_iff_mul_le hstep).symm
  have hmax := settings.locator.maxPagesBack.toNat_lt
  induction count generalizing back with
  | zero =>
    -- there is no page any more
    rw [searchFrom, mul_bind_sub (by omega), if_neg (by omega)]
    exact ⟨_, rfl, rfl, Nat.le_refl _⟩
  | succ count ih =>
    -- the page is inside, so what there is of an area can be cut out and examined
    have hwindow :
        (window image settings.locator (page - back * step)).size < 0x8000000000000000 := by
      rw [window, ByteArray.size_extract]
      omega
    have hslice : slice image (page - back * step)
        (min (page - back * step + settings.locator.areaSize.toNat) image.size) =
          some (window image settings.locator (page - back * step)) :=
      slice_of_le (by omega) (Nat.min_le_right _ _)
    have hdetect : (detect settings.detection.scanHorizon.toNat
        (window image settings.locator (page - back * step))).run = some _ :=
      detect_gives _ hwindow
    rw [searchFrom, mul_bind_sub (by omega), if_pos (by omega)]
    simp only [min_saturatingAdd h, hslice, hdetect, Option.bind_eq_bind, Option.bind_some]
    rw [firstSome, candidate]
    cases ConfigArea.detect settings.detection.scanHorizon.toNat
        (window image settings.locator (page - back * step)) with
    -- the area is found, with one page examined
    | ok order => exact ⟨_, rfl, rfl, by simp⟩
    | error reason =>
      dsimp only
      by_cases hlast : back < settings.locator.maxPagesBack.toNat
      · -- rejected, and the search goes on one page further back
        obtain ⟨search, hsearch, hfound, hlength⟩ := ih hlast (by omega)
          (Nat.le_div_iff_mul_le hstep).symm
        rw [if_pos hlast, advance_of_lt (by omega), Option.bind_some]
        dsimp only
        rw [hsearch]
        exact ⟨_, rfl, hfound, Nat.succ_le_succ hlength⟩
      · -- the last page that is to be tried
        obtain rfl : count = 0 := by omega
        rw [if_neg hlast]
        exact ⟨_, rfl, rfl, Nat.le_refl _⟩

/-- The search over pages goes through, and the pages examined are no more than there are from the
start of the image to the anchor. -/
theorem searchPages_eq (h : image.size < 0x8000000000000000) (settings : Settings)
    (hanchor : anchor.offset ≤ image.size) :
    ∃ search, searchPages image anchor settings = some search ∧
      search.found = ConfigArea.searchPages image anchor settings ∧
      search.examined.length ≤
        pageOf settings.locator anchor.offset / pageStep settings.locator + 1 := by
  -- the page of the anchor lies in the image, and pages are at least a byte apart
  have halign : alignDown anchor.offset settings.locator.areaAlignment.toNat =
      some (pageOf settings.locator anchor.offset) :=
    alignDown_eq (by omega) settings.locator.areaAlignment.toNat_lt
  have hpage : pageOf settings.locator anchor.offset ≤ anchor.offset := alignDown_le _ _
  have hstep : 0 < pageStep settings.locator :=
    Nat.lt_of_lt_of_le Nat.one_pos (Nat.le_max_right ..)
  obtain ⟨search, hsearch, hfound, hlength⟩ := searchFrom_eq h anchor
    (Nat.le_trans hpage hanchor) hstep (Nat.zero_le settings.locator.maxPagesBack.toNat)
    (Nat.zero_add _)
  rw [searchPages, halign, Option.bind_eq_bind, Option.bind_some]
  exact ⟨search, hsearch, hfound.trans searchPages_eq_firstSome.symm, by omega⟩

/-- The search for an area goes through. -/
theorem findArea_eq (h : image.size < 0x8000000000000000) (dtb : Option ByteArray)
    (settings : Settings) :
    findArea image dtb settings = some (ConfigArea.findArea image dtb settings) := by
  rw [findArea, findAnchor_eq h, ConfigArea.findArea, Option.bind_eq_bind, Option.bind_some]
  cases hfind : ConfigArea.findAnchor image dtb with
  | none => rfl
  | some anchor =>
    -- an anchor lies inside the image, so its search does not stop
    have hanchor := offset_lt_of_findAnchor hfind
    obtain ⟨search, hsearch, hfound, -⟩ :=
      searchPages_eq h settings (Nat.le_of_lt hanchor)
    dsimp only
    rw [hsearch, Option.bind_eq_bind, Option.bind_some, hfound]
    rfl

/-- The dump of any location goes through. -/
theorem dump_eq (h : image.size < 0x8000000000000000) (location : Location)
    (settings : LocatorSettings) :
    dump image location settings = some (location.dump image settings) := by
  rw [dump, min_saturatingAdd h, Location.dump]
  exact slice_of_le (by omega) (Nat.min_le_right _ _)

end ConfigArea.Guarded
