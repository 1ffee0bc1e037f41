import ConfigArea.Analysis
import ConfigArea.Guarded.Location
import ConfigArea.Guarded.Relocation
import ConfigArea.Summary

/-!
# Guarded analysis

The way from an image to the table of its area, and from a table to its summary, step by step.
-/

namespace ConfigArea.Guarded

/-- Find the configuration area of an image and relocate it. -/
def analyze (image : ByteArray) (dtb : Option ByteArray) (settings : Settings) :
    Guarded AnalysisFailure Table := do
  match ← findAnchor image dtb with
  | none => throw (.areaNotFound false)
  | some anchor =>
    let search ← searchPages image anchor settings
    match search.found with
    | none => throw (.areaNotFound true)
    | some location =>
      let size := min settings.locator.areaSize.toNat (← sub image.size location.areaOffset)
      ExceptT.adapt .relocation
        (relocate settings.detection.scanHorizon.toNat image location.areaOffset size)

/-! ## Summaries -/

/-- The text of a zero padded field, cut at the first zero. -/
def paddedText (field : ByteArray) : Option String :=
  (slice field 0 ((firstZero field).getD field.size)).map (·.text)

/-- The ordinal of a tag. -/
def rawOf (tag : Tag) : Option UInt32 :=
  match tag with
  | .deviceTree subrev => add32 5 subrev.toUInt32
  | tag => some tag.raw

/-- The texts of a version record. -/
def versionSummary (v : Version) : Option VersionSummary :=
  return ⟨← paddedText v.buildNumber, ← paddedText v.sourceRevision, ← paddedText v.firmware⟩

/-- Go over the entries, and add to the device trees and to the tags of the entries whose payload
has no known layout. -/
def collect : List Entry → List DeviceTreeSummary → List UInt32 →
    Option (List DeviceTreeSummary × List UInt32)
  | [], trees, tags => return (trees, tags)
  | .deviceTree tree :: entries, trees, tags => collect entries (trees ++ [tree.summary]) tags
  | .uninterpreted tag _ :: entries, trees, tags => do
    collect entries trees (tags ++ [← rawOf tag])
  | _ :: entries, trees, tags => collect entries trees tags

/-- The summary of a table. -/
def summary (t : Table) : Option Summary := do
  let version ← t.version?.mapM versionSummary
  let (trees, tags) ← collect t.entries [] []
  return {
    byteOrder := t.byteOrder
    linkBase := t.linkBase
    localBase := .ofNat t.localBase
    entriesOffset := .ofNat t.entriesOffset
    reservations := (t.reservations?.getD []).map (·.summary)
    version
    deviceTrees := trees
    uninterpretedTags := tags }

end ConfigArea.Guarded
