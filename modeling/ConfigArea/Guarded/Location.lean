import ConfigArea.Guarded.Detection
import ConfigArea.Guarded.Occurrence
import ConfigArea.Image
import ConfigArea.Location

/-!
# Guarded search for the area

The search for the area step by step: the page of the anchor, and the pages before it one by one,
with a record of those that were examined.

What the search hands to detection is kept apart from the search (`examinations`), since nothing of
it is left in the location that is found.
-/

namespace ConfigArea.Guarded

/-- The value without the bits that `alignment - 1` has. -/
def alignDown (value alignment : Nat) : Option Nat :=
  if alignment ≤ 1 then some value
  else (sub alignment 1).map (clear value)

/-- The anchor of the search: the supplied device tree, or the first plausible one. -/
def findAnchor (image : ByteArray) (dtb : Option ByteArray) : Option (Option Anchor) := do
  match dtb with
  | some blob => return (← exactOccurrence image blob).map (⟨·, .supplied⟩)
  | none => return (← findDeviceTree image).map (⟨·, .signature⟩)

/-- What a search over pages met. -/
structure PageSearch where
  /-- the area at the page that was accepted -/
  found : Option Location
  /-- the starts of the pages that were examined, in order -/
  examined : List Nat

/-- Examine the page `back` steps before `page`, and go on to the pages before it until one is
accepted, as many are examined as are to be, or there are no more. -/
def searchFrom (image : ByteArray) (anchor : Anchor) (settings : Settings) (page step back : Nat) :
    Option PageSearch := do
  match (mul back step).bind (sub page) with
  | none => return ⟨none, []⟩
  | some start =>
    let stop := min (saturatingAdd start settings.locator.areaSize.toNat) image.size
    let region ← slice image start stop
    match ← (detect settings.detection.scanHorizon.toNat region).run with
    | .ok order => return ⟨some ⟨anchor, start, order⟩, [start]⟩
    | .error _ =>
      -- the number of the last page is not added to
      if back < settings.locator.maxPagesBack.toNat then
        let ⟨after, _⟩ ← advance back 1
        let rest ← searchFrom image anchor settings page step after
        return ⟨rest.found, start :: rest.examined⟩
      else return ⟨none, [start]⟩
termination_by limit - back
decreasing_by omega

/-- Search the page that holds the anchor and the pages before it. -/
def searchPages (image : ByteArray) (anchor : Anchor) (settings : Settings) :
    Option PageSearch := do
  let page ← alignDown anchor.offset settings.locator.areaAlignment.toNat
  let step := max settings.locator.areaAlignment.toNat 1
  searchFrom image anchor settings page step 0

/-- The configuration area of an image. -/
def findArea (image : ByteArray) (dtb : Option ByteArray) (settings : Settings) :
    Option (Option Location) := do
  match ← findAnchor image dtb with
  | none => return none
  | some anchor => return (← searchPages image anchor settings).found

/-! ## What is examined -/

/-- A page that was examined for an area. -/
structure Examination where
  /-- of the page in the image -/
  start : Nat
  /-- what there is of an area at the page, as it was handed to detection -/
  region : ByteArray
  /-- what detection said of it -/
  verdict : Except DetectionFailure ByteOrder

namespace Examination

/-- The area that the examination found. -/
def location? (anchor : Anchor) (e : Examination) : Option Location :=
  match e.verdict with
  | .ok order => some ⟨anchor, e.start, order⟩
  | .error _ => none

/-- Detection rejected the region. -/
def Rejects (e : Examination) : Prop :=
  ∃ reason, e.verdict = .error reason

end Examination

/-- Examine the page that starts at `start`. -/
def examine (image : ByteArray) (settings : Settings) (start : Nat) : Option Examination := do
  let stop := min (saturatingAdd start settings.locator.areaSize.toNat) image.size
  let region ← slice image start stop
  let verdict ← (detect settings.detection.scanHorizon.toNat region).run
  return ⟨start, region, verdict⟩

/-- The examinations of a search that has come to the page `back` steps before `page`, in order. -/
def examinationsFrom (image : ByteArray) (settings : Settings) (page step back : Nat) :
    Option (List Examination) := do
  match (mul back step).bind (sub page) with
  | none => return []
  | some start =>
    let e ← examine image settings start
    match e.verdict with
    | .ok _ => return [e]
    | .error _ =>
      if back < settings.locator.maxPagesBack.toNat then
        let ⟨after, _⟩ ← advance back 1
        let es ← examinationsFrom image settings page step after
        return e :: es
      else return [e]
termination_by limit - back
decreasing_by omega

/-- The examinations of a search for the area around an anchor, in order. -/
def examinations (image : ByteArray) (anchor : Anchor) (settings : Settings) :
    Option (List Examination) := do
  let page ← alignDown anchor.offset settings.locator.areaAlignment.toNat
  let step := max settings.locator.areaAlignment.toNat 1
  examinationsFrom image settings page step 0

/-- What a search met that made these examinations. -/
def PageSearch.ofExaminations (anchor : Anchor) (es : List Examination) : PageSearch :=
  ⟨es.findSome? (·.location? anchor), es.map (·.start)⟩

/-! ## Parts of an image -/

/-- The bytes of an area, cut at the end of the image. -/
def dump (image : ByteArray) (location : Location) (settings : LocatorSettings) :
    Option ByteArray :=
  let start := min location.areaOffset image.size
  slice image start (min (saturatingAdd start settings.areaSize.toNat) image.size)

/-- The `len` bytes at `offset` of an image file: fewer where the file ends before, none past its
end. -/
def readAt (image : Image) (offset len : Nat) : Option ByteArray :=
  if image.content.size ≤ offset then some .empty
  else slice image.content offset (min (saturatingAdd offset len) image.content.size)

end ConfigArea.Guarded
