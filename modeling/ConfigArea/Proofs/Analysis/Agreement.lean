import ConfigArea.Proofs.Location.Window
import ConfigArea.Proofs.Relocation.Contents
import ConfigArea.Proofs.Relocation.Translation

/-!
# Search, dump and analysis agree

Analysis looks for the device tree, then for the area around it, and relocates the area in the
image. A caller can take the same steps one by one: look for the area, cut it out, and relocate the
dump. This file shows that both ways lead to the same outcome.

## Key results

- `relocate_of_detect_cases`: what becomes of a region that detection accepts
- `analyze_eq_of_findArea`: analysis of an image is relocation of the dump of the area found in it
- `analyze_agrees`: where analysis fails, and what it gives else
-/

namespace ConfigArea

/-- A region that detection accepts has a table of its own, in the order told, or contents that
cannot be decoded. -/
theorem relocate_of_detect_cases {horizon : Nat} {buffer : ByteArray} {offset size : Nat}
    {order : ByteOrder} (hsize : buffer.size < 0x8000000000000000)
    (hfit : offset + size ≤ buffer.size)
    (h : detect horizon (buffer.extract offset (offset + size)) = .ok order) :
    (∃ t, relocate horizon buffer offset size = .ok t ∧ t.byteOrder = order ∧
        t.localBase = offset ∧ t.regionSize = size) ∨
      ∃ reason, relocate horizon buffer offset size = .error (.undecodable reason) := by
  cases hrelocate : relocate horizon buffer offset size with
  | ok t =>
    -- the table says where it is from, and in which order
    obtain ⟨-, order', horder, htable⟩ :=
      (Region.relocate_eq_ok_iff (le_lastOffset hsize)).1 hrelocate
    obtain rfl : order = order' := Except.ok.inj (h.symm.trans horder)
    exact .inl ⟨t, rfl, htable.byteOrder, htable.localBase, htable.regionSize⟩
  | error e =>
    -- what fails behind detection is decoding
    rw [relocate_of_detect hfit h] at hrelocate
    obtain ⟨reason, -, rfl⟩ := mapError_eq_error.1 hrelocate
    exact .inr ⟨reason, rfl⟩

variable {image : ByteArray} {dtb : Option ByteArray} {settings : Settings}

/-- Where an area is found, its part of the image is relocated. -/
theorem analyze_eq_of_findArea {location : Location}
    (h : findArea image dtb settings = some location) :
    analyze image dtb settings =
      (relocate settings.detection.scanHorizon.toNat image location.areaOffset
        (location.size image settings.locator)).mapError .relocation := by
  obtain ⟨anchor, hanchor, hsearch⟩ := findArea_eq_some_iff.1 h
  rw [analyze, hanchor]
  dsimp only
  rw [hsearch]

/-- Where no area is found, analysis says whether there is an anchor. -/
theorem analyze_eq_of_findArea_eq_none (h : findArea image dtb settings = none) :
    analyze image dtb settings = .error (.areaNotFound (findAnchor image dtb).isSome) := by
  rw [analyze]
  cases hanchor : findAnchor image dtb with
  | none => rfl
  | some anchor =>
    -- the anchor is there, so it is the pages that have no area
    have hsearch : searchPages image anchor settings = none := by
      rwa [findArea, hanchor] at h
    dsimp only
    rw [hsearch]
    rfl

/-- Analysis finds no area exactly where the search finds none. -/
theorem analyze_eq_areaNotFound_iff {dtbFound : Bool} :
    analyze image dtb settings = .error (.areaNotFound dtbFound) ↔
      findArea image dtb settings = none ∧ (findAnchor image dtb).isSome = dtbFound := by
  cases hfind : findArea image dtb settings with
  | none =>
    rw [analyze_eq_of_findArea_eq_none hfind]
    simp only [Except.error.injEq, AnalysisFailure.areaNotFound.injEq, true_and]
  | some location =>
    rw [analyze_eq_of_findArea hfind, mapError_eq_error]
    simp only [reduceCtorEq, and_false, exists_false, false_and]

/-- Analysis has the outcome of relocating the dump of the area found, carried to the place of the
area. -/
theorem analyze_eq_carry_dump (h : image.size < 0x8000000000000000) {location : Location}
    (hfind : findArea image dtb settings = some location) :
    analyze image dtb settings =
      carry (fun e => .relocation (e.shift location.areaOffset)) (Table.shift location.areaOffset)
        (relocate settings.detection.scanHorizon.toNat (location.dump image settings.locator) 0
          (location.dump image settings.locator).size) := by
  have hle := Nat.le_of_lt (detect_dump_of_findArea hfind).1
  -- the region in the image is relocated as it is by itself, and by itself it is the dump
  rw [analyze_eq_of_findArea hfind,
    relocate_eq_carry_extract (Location.areaOffset_add_size_le hle) h,
    ← Location.dump_eq_extract hle, Location.size_dump hle]
  cases relocate settings.detection.scanHorizon.toNat
    (location.dump image settings.locator) 0 (location.size image settings.locator) <;> rfl

/-- Where an area is found, detection has accepted it, so the analysis of its contents either
succeeds or names what cannot be decoded. -/
theorem analyze_of_findArea_cases (h : image.size < 0x8000000000000000) {location : Location}
    (hfind : findArea image dtb settings = some location) :
    (∃ t, analyze image dtb settings = .ok t ∧ t.byteOrder = location.byteOrder ∧
        t.localBase = location.areaOffset ∧
        t.regionSize = (location.dump image settings.locator).size) ∨
      ∃ reason, analyze image dtb settings = .error (.relocation (.undecodable reason)) := by
  obtain ⟨hlt, hdetect⟩ := detect_dump_of_findArea hfind
  have hle := Nat.le_of_lt hlt
  -- the dump is the region that detection accepted
  rw [Location.dump_eq_extract hle] at hdetect
  rw [analyze_eq_of_findArea hfind, Location.size_dump hle]
  rcases relocate_of_detect_cases h (Location.areaOffset_add_size_le hle) hdetect with
    ⟨t, ht, hfields⟩ | ⟨reason, hreason⟩
  · rw [ht]
    exact .inl ⟨t, rfl, hfields⟩
  · rw [hreason]
    exact .inr ⟨reason, rfl⟩

/-- Analysis finds no device tree exactly where there is no anchor, and no area exactly where there
is an anchor but no area is found. Where an area is found, the outcome of analysis is that of
relocating the dump by itself, with every offset larger by the place of the area: a table in the
order found, of the place and the size of the dump, or contents that cannot be decoded. -/
theorem analyze_agrees (h : image.size < 0x8000000000000000) :
    (analyze image dtb settings = .error (.areaNotFound false) ↔ findAnchor image dtb = none) ∧
      (analyze image dtb settings = .error (.areaNotFound true) ↔
        (∃ anchor, findAnchor image dtb = some anchor) ∧ findArea image dtb settings = none) ∧
      ∀ location, findArea image dtb settings = some location →
        ∃ dump, dump = location.dump image settings.locator ∧
          analyze image dtb settings =
            ((relocate settings.detection.scanHorizon.toNat dump 0 dump.size).map
              (Table.shift location.areaOffset)).mapError
                (fun e => .relocation (e.shift location.areaOffset)) ∧
          ((∃ t, analyze image dtb settings = .ok t ∧ t.byteOrder = location.byteOrder ∧
              t.localBase = location.areaOffset ∧ t.regionSize = dump.size) ∨
            (∃ offset pointer, analyze image dtb settings =
              .error (.relocation (.undecodable (.danglingPointer offset pointer)))) ∨
            ∃ offset needed, analyze image dtb settings =
              .error (.relocation (.undecodable (.truncatedRecord offset needed)))) := by
  refine ⟨?_, ?_, ?_⟩
  · -- without an anchor there is no area, so the first half of the condition is no condition
    rw [analyze_eq_areaNotFound_iff, Option.isSome_eq_false_iff, Option.isNone_iff_eq_none]
    constructor
    · intro h
      exact h.2
    · intro hanchor
      exact ⟨by rw [findArea, hanchor]; rfl, hanchor⟩
  · -- with an anchor it is the area that is missing
    rw [analyze_eq_areaNotFound_iff, Option.isSome_iff_exists]
    exact and_comm
  · -- with an area, the outcome of its dump
    intro location hfind
    refine ⟨_, rfl, analyze_eq_carry_dump h hfind, ?_⟩
    rcases analyze_of_findArea_cases h hfind with htable | ⟨reason, hreason⟩
    · exact .inl htable
    · cases reason with
      | danglingPointer offset pointer => exact .inr (.inl ⟨offset, pointer, hreason⟩)
      | truncatedRecord offset needed => exact .inr (.inr ⟨offset, needed, hreason⟩)

/-- An image with an area from offset 4 on. -/
def imageWithBlob : ByteArray :=
  ⟨#[0x5a, 0x5a, 0x5a, 0x5a]⟩ ++ regionWithBlob ++ ⟨#[0x5a]⟩

/-- Settings for areas of 28 bytes at every word. -/
def settingsForWords : Settings :=
  { locator := ⟨4, 28, 5⟩ }

/-- The analysis of the image gives the table of its region, four bytes further on. -/
theorem analyze_imageWithBlob :
    imageWithBlob.size < 0x8000000000000000 ∧
      findArea imageWithBlob (some ⟨#[0, 0, 0, 0, 0, 0, 0, 8]⟩) settingsForWords =
        some ⟨⟨24, .supplied⟩, 4, .little⟩ ∧
      analyze imageWithBlob (some ⟨#[0, 0, 0, 0, 0, 0, 0, 8]⟩) settingsForWords =
        .ok ⟨.little, 0x80432000, 4, 28, 8,
          [.deviceTree ⟨0, 24, ⟨#[0, 0, 0, 0, 0, 0, 0, 8]⟩⟩]⟩ := by
  have hsize : imageWithBlob.size < 0x8000000000000000 := by decide
  have hfind : findArea imageWithBlob (some ⟨#[0, 0, 0, 0, 0, 0, 0, 8]⟩) settingsForWords =
      some ⟨⟨24, .supplied⟩, 4, .little⟩ := rfl
  obtain ⟨dump, hdump, hanalyze, -⟩ := (analyze_agrees hsize).2.2 _ hfind
  -- the dump of that location is the region, which is relocated as before
  have hregion : dump = regionWithBlob := hdump
  subst hregion
  refine ⟨hsize, hfind, ?_⟩
  rw [hanalyze]
  show ((relocate 16384 regionWithBlob 0 28).map _).mapError _ = _
  rw [relocate_regionWithBlob]
  rfl

end ConfigArea
