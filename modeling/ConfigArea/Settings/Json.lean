import ConfigArea.Json.Print
import ConfigArea.Json.Record
import ConfigArea.Settings

/-!
# Settings in JSON

Settings are read from a JSON text that names those that differ from their defaults, in sections.
A section or a setting that is not named keeps its default. They are printed in full.
-/

namespace ConfigArea

open Json

namespace DetectionSettings

/-- How the section is read. -/
def record : Record DetectionSettings where
  blank := {}
  fields := [.optional "scan_horizon" readUInt64 (fun n s => { s with scanHorizon := n })]
  mayStopEarly := true

/-- Print the section. -/
def print (s : DetectionSettings) : Printer :=
  printObject [("scan_horizon", printNat s.scanHorizon.toNat)]

end DetectionSettings

namespace LocatorSettings

/-- How the section is read. -/
def record : Record LocatorSettings where
  blank := {}
  fields := [
    .optional "area_alignment" readUInt64 (fun n s => { s with areaAlignment := n }),
    .optional "area_size" readUInt64 (fun n s => { s with areaSize := n }),
    .optional "max_pages_back" readUInt64 (fun n s => { s with maxPagesBack := n })]
  mayStopEarly := true

/-- Print the section. -/
def print (s : LocatorSettings) : Printer :=
  printObject [("area_alignment", printNat s.areaAlignment.toNat),
    ("area_size", printNat s.areaSize.toNat), ("max_pages_back", printNat s.maxPagesBack.toNat)]

end LocatorSettings

namespace FileSettings

/-- How the section is read. -/
def record : Record FileSettings where
  blank := {}
  fields := [.optional "max_file_size" readUInt64 (fun n s => { s with maxFileSize := n })]
  mayStopEarly := true

/-- Print the section. -/
def print (s : FileSettings) : Printer :=
  printObject [("max_file_size", printNat s.maxFileSize.toNat)]

end FileSettings

namespace Settings

/-- How the sections are read. -/
def record : Record Settings where
  blank := {}
  fields := [
    .optional "detection" DetectionSettings.record.reader (fun d s => { s with detection := d }),
    .optional "locator" LocatorSettings.record.reader (fun l s => { s with locator := l }),
    .optional "io" FileSettings.record.reader (fun f s => { s with file := f })]
  mayStopEarly := true

/-- The settings that a JSON text asks for. -/
def ofJson (text : String) : Except Fault Settings :=
  record.reader.readDocument text

/-- Print all sections. -/
def print (s : Settings) : Printer :=
  printObject [("detection", s.detection.print), ("locator", s.locator.print),
    ("io", s.file.print)]

/-- The JSON text of settings, on one line. -/
def toJson (s : Settings) : String :=
  Printer.compact s.print

end Settings

end ConfigArea
