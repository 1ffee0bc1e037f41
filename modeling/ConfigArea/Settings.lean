/-!
# Settings

What the analysis lets its user choose, with defaults that suit the layouts of shipped kernels.
All are numbers of 64 bits.
-/

namespace ConfigArea

/-- How an area is recognised. -/
structure DetectionSettings where
  /-- how many bytes are scanned for the entry array, which in every known kernel lies well inside
  the first page of the area -/
  scanHorizon : UInt64 := 16384
  deriving DecidableEq

/-- Where an area is looked for. -/
structure LocatorSettings where
  /-- alignment of the area in the image -/
  areaAlignment : UInt64 := 4096
  /-- size of the area -/
  areaSize : UInt64 := 65536
  /-- how many pages before the one that holds the device tree are tried -/
  maxPagesBack : UInt64 := 3
  deriving DecidableEq

/-- Which files are read. -/
structure FileSettings where
  /-- size of the largest file that is read -/
  maxFileSize : UInt64 := 67108864
  deriving DecidableEq

/-- All settings of the analysis. -/
structure Settings where
  detection : DetectionSettings := {}
  locator : LocatorSettings := {}
  file : FileSettings := {}
  deriving DecidableEq

end ConfigArea
