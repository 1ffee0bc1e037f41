import ConfigArea.Analysis
import ConfigArea.Settings.Json

/-!
# Sessions

A session keeps a buffer, the settings, and where an area was last found, so that a caller can
change the buffer or the settings between two looks at it. A search sets the location, also where
it finds nothing; settings that cannot be read leave the old ones in force.
-/

namespace ConfigArea

/-- The state of a session. -/
structure Session where
  buffer : ByteArray
  settings : Settings := {}
  location : Option Location := none

namespace Session

/-- Overwrite the bytes at `offset`; bytes that do not fit into the buffer change nothing. -/
def patch (s : Session) (offset : Nat) (bytes : ByteArray) : Session :=
  { s with buffer := (s.buffer.put? offset bytes).getD s.buffer }

/-- Cut the buffer to `size` bytes, or append bytes of one value up to that size. -/
def resize (s : Session) (size : Nat) (fill : UInt8) : Session :=
  { s with buffer := s.buffer.extract 0 size ++ .replicate (size - s.buffer.size) fill }

/-- The region of `size` bytes at `offset`. -/
def region (s : Session) (offset size : Nat) : ByteArray :=
  s.buffer.extract offset (offset + size)

/-- Detection in a region, with the horizon of the settings. -/
def detect (s : Session) (offset size : Nat) : Except DetectionFailure ByteOrder :=
  ConfigArea.detect s.settings.detection.scanHorizon.toNat (s.region offset size)

/-- Relocation of a region, with the horizon of the settings. -/
def relocate (s : Session) (offset size : Nat) : Except RelocationFailure Table :=
  ConfigArea.relocate s.settings.detection.scanHorizon.toNat s.buffer offset size

/-- Search the buffer, and keep what is found. -/
def find (s : Session) (dtb : Option ByteArray) : Session :=
  { s with location := findArea s.buffer dtb s.settings }

/-- The bytes of the area last found. -/
def dump (s : Session) : Option ByteArray :=
  s.location.map (·.dump s.buffer s.settings.locator)

/-- Analysis of the buffer. -/
def analyze (s : Session) (dtb : Option ByteArray) : Except AnalysisFailure Table :=
  ConfigArea.analyze s.buffer dtb s.settings

end Session

end ConfigArea
