import ConfigArea.Json.Alternative
import ConfigArea.Tag

/-!
# Tags in JSON

A tag is written as its name; a device tree holds its sub-revision behind the name, and an unknown
tag its ordinal. What is held is taken as it stands, so `{"Unknown": 3}` stays unknown.
-/

namespace ConfigArea.Tag

open Json

/-- The forms of a tag. -/
def alternatives : List (String × Alternative Tag) := [
  ("Undef", .plain .undef),
  ("ModuleMemory", .plain .moduleMemory),
  ("VersionInfo", .plain .versionInfo),
  ("HwConfig", .plain .hwConfig),
  ("CacheConfig", .plain .cacheConfig),
  ("DeviceTree", .holding (readUInt8.map .deviceTree)),
  ("AvmNet", .plain .avmNet),
  ("Last", .plain .last),
  ("Unknown", .holding (readUInt32.map .unknown))]

/-- The tag that a JSON text stands for. -/
def ofJson (text : String) : Except Fault Tag :=
  (readAlternative alternatives).readDocument text

/-- The name of a tag in JSON, and the number that it holds. -/
def jsonForm : Tag → String × Option Nat
  | undef => ("Undef", none)
  | moduleMemory => ("ModuleMemory", none)
  | versionInfo => ("VersionInfo", none)
  | hwConfig => ("HwConfig", none)
  | cacheConfig => ("CacheConfig", none)
  | deviceTree subrev => ("DeviceTree", some subrev.toNat)
  | avmNet => ("AvmNet", none)
  | last => ("Last", none)
  | unknown raw => ("Unknown", some raw.toNat)

end ConfigArea.Tag
