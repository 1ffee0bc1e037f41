import ConfigArea.Analysis
import ConfigArea.Proofs.Detection.Stages

/-!
# The bytes of a found area

A search for the area examines one part of the image after the other, and the area that it finds is
cut out of the image again: as a dump, and as the region that is relocated. This file shows that
these are the same bytes.

## Key results

- `detect_dump_of_findArea`: detection accepts the dump of a found area, in the order found
- `Location.dump_eq_extract`, `Location.size_dump`: the dump is the region that is relocated
- `Location.toList_dump`, `Image.readAt_eq_dump`: the dump of any location is what there is of it
-/

namespace ConfigArea

/-- There are bytes in an accepted region. -/
theorem size_pos_of_detect {horizon : Nat} {region : ByteArray} {o : ByteOrder}
    (h : detect horizon region = .ok o) : 0 < region.size := by
  obtain ⟨v, hv, -⟩ := detect_eq_ok_iff.1 h
  have hnull := (Detection.marks_of_landmarks (Detection.examine_eq_ok_iff.1 hv).1).null_lt
  have := Nat.min_le_right horizon region.size
  omega

/-- The page found is one at which detection accepts what there is of an area. -/
theorem detect_of_searchPages {image : ByteArray} {anchor : Anchor} {settings : Settings}
    {location : Location} (h : searchPages image anchor settings = some location) :
    detect settings.detection.scanHorizon.toNat (image.extract location.areaOffset
      (min (location.areaOffset + settings.locator.areaSize.toNat) image.size)) =
        .ok location.byteOrder := by
  obtain ⟨back, -, -, hback, -⟩ := firstSome_eq_some_iff.1 h
  dsimp only at hback
  -- only a page that is accepted gives a location
  split at hback
  · rename_i order hdetect
    cases hback
    exact hdetect
  · cases hback

/-- Cutting a list at its length does not change what is taken of it. -/
theorem take_drop_min_length {α : Type} (l : List α) (i n : Nat) :
    (l.drop (min i l.length)).take (min (min i l.length + n) l.length - min i l.length) =
      (l.drop i).take n := by
  rcases Nat.le_total i l.length with hle | hle
  · -- as much is taken as there is
    rw [Nat.min_eq_left hle, List.take_eq_take_iff, List.length_drop]
    omega
  · -- there is nothing to be taken
    rw [Nat.min_eq_right hle, List.drop_length, List.drop_eq_nil_of_le hle, List.take_nil,
      List.take_nil]

/-- An area is found by looking for an anchor, and then for a page. -/
theorem findArea_eq_some_iff {image : ByteArray} {dtb : Option ByteArray} {settings : Settings}
    {location : Location} :
    findArea image dtb settings = some location ↔
      ∃ anchor, findAnchor image dtb = some anchor ∧
        searchPages image anchor settings = some location :=
  Option.bind_eq_some_iff

namespace Location

variable {image : ByteArray} {location : Location} {settings : LocatorSettings}

/-- The dump of an area that starts in the image is the part that is relocated. -/
theorem dump_eq_extract (h : location.areaOffset ≤ image.size) :
    location.dump image settings = image.extract location.areaOffset
      (location.areaOffset + location.size image settings) := by
  rw [dump, size, Nat.min_eq_left h]
  congr 1
  omega

/-- The area ends in the image. -/
theorem areaOffset_add_size_le (h : location.areaOffset ≤ image.size) :
    location.areaOffset + location.size image settings ≤ image.size := by
  rw [size]
  omega

/-- The dump has the size of the region that is relocated. -/
theorem size_dump (h : location.areaOffset ≤ image.size) :
    (location.dump image settings).size = location.size image settings := by
  have hle := @areaOffset_add_size_le image location settings h
  rw [dump_eq_extract h, ByteArray.size_extract, Nat.min_eq_left hle]
  omega

/-- The dump of any location, also of one that is not in the image, is what there is of the area. -/
theorem toList_dump :
    (location.dump image settings).data.toList =
      (image.data.toList.drop location.areaOffset).take settings.areaSize.toNat := by
  rw [dump, ByteArray.toList_data_extract, ← ByteArray.length_data_toList]
  exact take_drop_min_length _ _ _

end Location

/-- A part of an image file is what there is of it. -/
theorem Image.toList_readAt {image : Image} {offset len : Nat} :
    (image.readAt offset len).data.toList = (image.content.data.toList.drop offset).take len := by
  rw [readAt]
  split
  · -- the part starts behind the image
    rename_i hle
    rw [List.drop_eq_nil_of_le (by rwa [ByteArray.length_data_toList]), List.take_nil]
    rfl
  · rename_i hlt
    have hcut := take_drop_min_length image.content.data.toList offset len
    rwa [ByteArray.length_data_toList, Nat.min_eq_left (Nat.le_of_not_le hlt),
      ← ByteArray.toList_data_extract] at hcut

/-- The dump of a location is a part of the image file. -/
theorem Image.readAt_eq_dump (image : Image) (location : Location) (settings : LocatorSettings) :
    image.readAt location.areaOffset settings.areaSize.toNat =
      location.dump image.content settings := by
  apply ByteArray.ext
  apply Array.toList_inj.1
  rw [toList_readAt, Location.toList_dump]

/-- A found area starts in the image, and detection accepts its dump in the order found. -/
theorem detect_dump_of_findArea {image : ByteArray} {dtb : Option ByteArray} {settings : Settings}
    {location : Location} (h : findArea image dtb settings = some location) :
    location.areaOffset < image.size ∧
      detect settings.detection.scanHorizon.toNat (location.dump image settings.locator) =
        .ok location.byteOrder := by
  obtain ⟨anchor, -, hsearch⟩ := findArea_eq_some_iff.1 h
  have hdetect := detect_of_searchPages hsearch
  -- a region without bytes would not have been accepted
  have hpos := size_pos_of_detect hdetect
  rw [ByteArray.size_extract] at hpos
  have hlt : location.areaOffset < image.size := by omega
  refine ⟨hlt, ?_⟩
  rwa [Location.dump, Nat.min_eq_left (Nat.le_of_lt hlt)]

end ConfigArea
