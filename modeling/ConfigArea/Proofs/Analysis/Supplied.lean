import ConfigArea.Analysis
import ConfigArea.Proofs.Location.Search

/-!
# Supplying the device tree

An image is searched for a device tree that is supplied, or else for the first plausible one. This
file shows that both ways lead to the same area if what is supplied is the very blob that the second
one finds. The blob may stand earlier in the image too, but then its header is plausible there as
well, so the first plausible one would be the earlier.

## Key results

- `isAnchor_none_of_blob`: where the bytes of a plausible device tree stand, one starts
- `findAnchor_blobAt`: the blob of the first plausible device tree is first found where that is
- `analyze_blobAt`: search and analysis do not change if that blob is supplied
-/

namespace ConfigArea

/-- The device tree at `offset`, as long as its header says. -/
def DeviceTree.blobAt (b : ByteArray) (offset : Nat) : ByteArray :=
  b.extract offset (offset + ((b.wordAt (offset + 4)).value .big).toNat)

variable {image : ByteArray} {settings : Settings} {p : Nat}

/-! ## Anchors -/

/-- All of a plausible device tree is there. -/
theorem DeviceTree.size_blobAt (h : DeviceTree.startsAt image p = true) :
    (DeviceTree.blobAt image p).size = ((image.wordAt (p + 4)).value .big).toNat := by
  have hle := (DeviceTree.bounds_of_startsAt h).2.2
  rw [DeviceTree.blobAt, ByteArray.size_extract]
  omega

/-- Wherever the bytes of a plausible device tree stand, one starts. -/
theorem isAnchor_none_of_blob (h : DeviceTree.startsAt image p = true) {r : Nat}
    (hr : IsAnchor image (some (DeviceTree.blobAt image p)) r) : IsAnchor image none r := by
  obtain ⟨-, htotal, -⟩ := DeviceTree.bounds_of_startsAt h
  obtain ⟨-, heq⟩ := hr
  have hsize := DeviceTree.size_blobAt h
  -- the copy is not cut short
  have hle : r + ((image.wordAt (p + 4)).value .big).toNat ≤ image.size := by
    have hcopy := congrArg ByteArray.size heq
    rw [ByteArray.size_extract] at hcopy
    omega
  refine (DeviceTree.startsAt_iff_of_agree h fun i hi => ?_).2 hle
  -- the copy has the bytes of the header
  calc image.byteAt (p + i) = (DeviceTree.blobAt image p).byteAt i :=
        (ByteArray.byteAt_extract (by omega)).symm
    _ = (image.extract r (r + (DeviceTree.blobAt image p).size)).byteAt i := by rw [heq]
    _ = image.byteAt (r + i) := ByteArray.byteAt_extract (by omega)

/-- The blob of the first plausible device tree stands nowhere before it. -/
theorem findAnchor_blobAt (h : findDeviceTree image = some p) :
    findAnchor image (some (DeviceTree.blobAt image p)) = some ⟨p, .supplied⟩ := by
  obtain ⟨hp, hstarts, hmin⟩ := findDeviceTree_eq_some_iff.1 h
  obtain ⟨-, htotal, -⟩ := DeviceTree.bounds_of_startsAt hstarts
  have hsize := DeviceTree.size_blobAt hstarts
  refine findAnchor_eq_some_iff.2 ⟨rfl, hp, ⟨by omega, ?_⟩, fun r hr hlt hanchor => ?_⟩
  · -- the blob stands there
    rw [hsize]
    rfl
  · -- where it stands earlier a device tree would start, and there is none
    have hearlier := isAnchor_none_of_blob hstarts hanchor
    rw [IsAnchor, hmin r hr hlt] at hearlier
    cases hearlier

/-! ## Areas -/

/-- Which pages are tried is told by the place of the anchor, and not by how it was found. -/
theorem searchPages_eq_map (source source' : AnchorSource) :
    searchPages image ⟨p, source⟩ settings =
      (searchPages image ⟨p, source'⟩ settings).map fun l => { l with anchor := ⟨p, source⟩ } := by
  -- at each page the anchor is only noted
  have hcandidate (start : Nat) : candidate image ⟨p, source⟩ settings start =
      (candidate image ⟨p, source'⟩ settings start).map
        fun l => { l with anchor := ⟨p, source⟩ } := by
    unfold candidate
    split <;> rfl
  rw [searchPages_eq_firstSome, searchPages_eq_firstSome, ← firstSome_map]
  simp only [hcandidate]

/-- The blob of the first plausible device tree is all in the image, and it is found there where
that device tree is. If it is supplied, the search finds the same area with the same anchor in the
same order, or none, and only says that the anchor was supplied; and analysis gives the same table,
or fails for the same reason. -/
theorem analyze_blobAt (h : findDeviceTree image = some p) :
    p + ((image.wordAt (p + 4)).value .big).toNat ≤ image.size ∧
      exactOccurrence? image (DeviceTree.blobAt image p) = some p ∧
      ∀ settings : Settings,
        findArea image (some (DeviceTree.blobAt image p)) settings =
            (findArea image none settings).map
              (fun l => { l with anchor := ⟨l.anchor.offset, .supplied⟩ }) ∧
          analyze image (some (DeviceTree.blobAt image p)) settings =
            analyze image none settings := by
  have hsupplied := findAnchor_blobAt h
  have hsignature : findAnchor image none = some ⟨p, .signature⟩ := by
    rw [findAnchor, h, Option.map_some]
  refine ⟨?_, ?_, fun settings => ⟨?_, ?_⟩⟩
  · -- the blob is all in the image
    exact (DeviceTree.bounds_of_startsAt (findDeviceTree_eq_some_iff.1 h).2.1).2.2
  · -- it is found where the device tree is
    obtain ⟨q, hq, hanchor⟩ := Option.map_eq_some_iff.1 hsupplied
    cases hanchor
    exact hq
  · -- the same pages are tried for the area
    rw [findArea, findArea, hsupplied, hsignature]
    show searchPages image ⟨p, .supplied⟩ settings =
      (searchPages image ⟨p, .signature⟩ settings).map _
    rw [searchPages_eq_map .supplied .signature]
    cases hsearch : searchPages image ⟨p, .signature⟩ settings with
    | none => rfl
    | some location =>
      rw [Option.map_some, Option.map_some, (searchPages_eq_some_iff.1 hsearch).1]
  · -- and the same region is relocated
    rw [analyze, analyze, hsupplied, hsignature]
    dsimp only
    rw [searchPages_eq_map .supplied .signature]
    cases searchPages image ⟨p, .signature⟩ settings <;> rfl

/-- An image that is an area with one entry, a device tree of which there is only the header. The
word before it is the magic number by chance. -/
def imageWithHeader : ByteArray :=
  ⟨#[0x04, 0x20, 0x43, 0x80, 5, 0, 0, 0, 0x18, 0x20, 0x43, 0x80, 16, 0, 0, 0, 0, 0, 0, 0,
    0xd0, 0x0d, 0xfe, 0xed, 0xd0, 0x0d, 0xfe, 0xed, 0, 0, 0, 40, 0, 0, 0, 40, 0, 0, 0, 40,
    0, 0, 0, 40, 0, 0, 0, 2, 0, 0, 0, 1, 0, 0, 0, 0, 0, 0, 0, 0, 0, 0, 0, 0]⟩

/-- Supplying the blob that is found leads to the same area and the same outcome. -/
theorem analyze_blobAt_imageWithHeader :
    findDeviceTree imageWithHeader = some 24 ∧
      findArea imageWithHeader (some (DeviceTree.blobAt imageWithHeader 24)) {} =
        some ⟨⟨24, .supplied⟩, 0, .little⟩ ∧
      analyze imageWithHeader (some (DeviceTree.blobAt imageWithHeader 24)) {} =
        analyze imageWithHeader none {} := by
  have hfind : findDeviceTree imageWithHeader = some 24 := by decide
  obtain ⟨-, -, hsettings⟩ := analyze_blobAt hfind
  obtain ⟨harea, hanalyze⟩ := hsettings {}
  -- the header itself is the anchor when no blob is supplied
  have hsignature : findArea imageWithHeader none {} = some ⟨⟨24, .signature⟩, 0, .little⟩ := rfl
  rw [harea, hsignature]
  exact ⟨hfind, rfl, hanalyze⟩

end ConfigArea
