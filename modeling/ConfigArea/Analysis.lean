import ConfigArea.Image
import ConfigArea.Location
import ConfigArea.Relocation

/-!
# Analysis

The whole way from an image to the table of the configuration area in it: find the area, then
relocate it.
-/

namespace ConfigArea

/-- The reason an image has no table. -/
inductive AnalysisFailure where
  /-- a file was not read -/
  | file (reason : FileFailure)
  /-- no device tree, or no page around it at which an area starts -/
  | areaNotFound (dtbFound : Bool)
  /-- an area was found but cannot be relocated -/
  | relocation (reason : RelocationFailure)
  deriving DecidableEq

namespace AnalysisFailure

/-- The text that reports the reason. -/
def message : AnalysisFailure → String
  | file reason => s!"I/O error: {reason.message}"
  | areaNotFound dtbFound => s!"no config area found (device tree found: {dtbFound})"
  | relocation reason => s!"relocation failed: {reason.message}"

/-- The reason in an image in which the area lies `n` bytes further on. -/
def shift (n : Nat) : AnalysisFailure → AnalysisFailure
  | relocation reason => .relocation (reason.shift n)
  | reason => reason

end AnalysisFailure

/-- The size of a found area: what the settings ask for, unless the image ends before. -/
def Location.size (image : ByteArray) (location : Location) (settings : LocatorSettings) : Nat :=
  min settings.areaSize.toNat (image.size - location.areaOffset)

/-- Find the configuration area of an image and relocate it. -/
def analyze (image : ByteArray) (dtb : Option ByteArray) (settings : Settings) :
    Except AnalysisFailure Table :=
  match findAnchor image dtb with
  | none => .error (.areaNotFound false)
  | some anchor =>
    match searchPages image anchor settings with
    | none => .error (.areaNotFound true)
    | some location =>
      (relocate settings.detection.scanHorizon.toNat image location.areaOffset
        (location.size image settings.locator)).mapError .relocation

/-- Read an image file, and the file of a device tree if there is to be one, and analyse the image.
The image is read first. -/
def analyzeFiles (image : Option ByteArray) (dtb : Option (Option ByteArray))
    (settings : Settings) : Except AnalysisFailure Table := do
  let image ← (Image.open? image settings.file).mapError .file
  let dtb ← dtb.mapM fun file => (Image.open? file settings.file).mapError .file
  analyze image.content (dtb.map (·.content)) settings

end ConfigArea
