import ConfigArea.Detection
import ConfigArea.Occurrence
import ConfigArea.Settings

/-!
# Where the area lies in an image

An area carries a device tree, and that is what is searched for in a kernel image. The page that
holds it is the first candidate for the start of the area, and a few pages before it are tried
next; each candidate is examined on its own, and the nearest one that is accepted is taken.

* `alignDown_le`: a page starts at or before what it holds
* `alignDown_add`: whole pages before it move what it holds and the page alike
-/

namespace ConfigArea

/-- How the device tree that anchors the search was found. -/
inductive AnchorSource where
  /-- it was supplied, and stands in the image byte for byte -/
  | supplied
  /-- it is the first plausible one in the image -/
  | signature
  deriving DecidableEq

/-- The word that names the source. -/
def AnchorSource.name : AnchorSource → String
  | supplied => "supplied"
  | signature => "signature"

/-- The device tree that anchors the search. -/
structure Anchor where
  offset : Nat
  source : AnchorSource
  deriving DecidableEq

/-- An area found in an image. -/
structure Location where
  anchor : Anchor
  /-- of the area in the image -/
  areaOffset : Nat
  byteOrder : ByteOrder
  deriving DecidableEq

/-- The value without the bits that `alignment - 1` has: for a power of two the largest multiple
that is not above the value, for 0 the value itself. -/
def alignDown (value alignment : Nat) : Nat :=
  value - (value &&& (alignment - 1))

/-- The anchor of the search: the supplied device tree, or the first plausible one. -/
def findAnchor (image : ByteArray) (dtb : Option ByteArray) : Option Anchor :=
  match dtb with
  | some blob => (exactOccurrence? image blob).map (⟨·, .supplied⟩)
  | none => (findDeviceTree image).map (⟨·, .signature⟩)

/-- The nearest page at or before the one that holds the anchor at which an area is accepted. -/
def searchPages (image : ByteArray) (anchor : Anchor) (settings : Settings) : Option Location :=
  let page := alignDown anchor.offset settings.locator.areaAlignment.toNat
  -- pages that are not aligned are one byte apart
  let step := max settings.locator.areaAlignment.toNat 1
  firstSome
    (fun back =>
      let start := page - back * step
      -- the last area of an image may be cut short
      let stop := min (start + settings.locator.areaSize.toNat) image.size
      match detect settings.detection.scanHorizon.toNat (image.extract start stop) with
      | .ok order => some ⟨anchor, start, order⟩
      | .error _ => none)
    0 (min settings.locator.maxPagesBack.toNat (page / step) + 1)

/-- The configuration area of an image. -/
def findArea (image : ByteArray) (dtb : Option ByteArray) (settings : Settings) :
    Option Location := do
  let anchor ← findAnchor image dtb
  searchPages image anchor settings

/-- The bytes of an area, cut at the end of the image. -/
def Location.dump (image : ByteArray) (location : Location) (settings : LocatorSettings) :
    ByteArray :=
  let start := min location.areaOffset image.size
  image.extract start (min (start + settings.areaSize.toNat) image.size)

/-- A page starts at or before what it holds. -/
theorem alignDown_le (value alignment : Nat) : alignDown value alignment ≤ value :=
  Nat.sub_le _ _

/-- A power of two leaves no bits but those of the remainder. -/
theorem alignDown_eq_sub_mod {value alignment : Nat} (h : alignment.isPowerOfTwo) :
    alignDown value alignment = value - value % alignment := by
  obtain ⟨k, rfl⟩ := h
  rw [alignDown, Nat.and_two_pow_sub_one_eq_mod]

/-- Behind whole pages, pages start where they would without them. -/
theorem alignDown_add {value alignment n : Nat} (h : alignment.isPowerOfTwo)
    (hn : n % alignment = 0) : alignDown (value + n) alignment = alignDown value alignment + n := by
  have hmod : (value + n) % alignment = value % alignment := by
    rw [Nat.add_mod, hn, Nat.add_zero, Nat.mod_mod]
  have hle := Nat.mod_le value alignment
  rw [alignDown_eq_sub_mod h, alignDown_eq_sub_mod h, hmod]
  omega

end ConfigArea
