import ConfigArea.Json.Print
import ConfigArea.Json.Alternative
import ConfigArea.Json.Record
import ConfigArea.Summary

/-!
# Summaries in JSON

A summary is printed as an object and read back from one, or from the list of its fields. A summary
without a version may leave it out.
-/

namespace ConfigArea

open Json

/-- The forms of a byte order. -/
def ByteOrder.alternatives : List (String × Alternative ByteOrder) :=
  [(little.name, .plain .little), (big.name, .plain .big)]

namespace ReservationSummary

/-- How the summary of a reservation is read. -/
def record : Record ReservationSummary where
  blank := ⟨"", 0⟩
  fields := [
    .required "name" readString (fun x m => { m with name := x }),
    .required "size" readUInt32 (fun x m => { m with size := x })]
  mayStopEarly := false

/-- Print the summary of a reservation. -/
def print (m : ReservationSummary) : Printer :=
  printObject [("name", printString m.name), ("size", printNat m.size.toNat)]

end ReservationSummary

namespace VersionSummary

/-- How the summary of a version record is read. -/
def record : Record VersionSummary where
  blank := ⟨"", "", ""⟩
  fields := [
    .required "build_number" readString (fun x v => { v with buildNumber := x }),
    .required "source_revision" readString (fun x v => { v with sourceRevision := x }),
    .required "firmware_string" readString (fun x v => { v with firmware := x })]
  mayStopEarly := false

/-- Print the summary of a version record. -/
def print (v : VersionSummary) : Printer :=
  printObject [("build_number", printString v.buildNumber),
    ("source_revision", printString v.sourceRevision),
    ("firmware_string", printString v.firmware)]

end VersionSummary

namespace DeviceTreeSummary

/-- How the summary of a device tree is read. -/
def record : Record DeviceTreeSummary where
  blank := ⟨0, 0, 0, ""⟩
  fields := [
    .required "subrev" readUInt8 (fun x d => { d with subrev := x }),
    .required "offset" readUInt64 (fun x d => { d with offset := x }),
    .required "size" readUInt64 (fun x d => { d with size := x }),
    .required "sha256" readString (fun x d => { d with sha256 := x })]
  mayStopEarly := false

/-- Print the summary of a device tree. -/
def print (d : DeviceTreeSummary) : Printer :=
  printObject [("subrev", printNat d.subrev.toNat), ("offset", printNat d.offset.toNat),
    ("size", printNat d.size.toNat), ("sha256", printString d.sha256)]

end DeviceTreeSummary

namespace Summary

/-- How a summary is read. -/
def record : Record Summary where
  blank := ⟨.little, 0, 0, 0, [], none, [], []⟩
  fields := [
    .required "byte_order" (readAlternative ByteOrder.alternatives)
      (fun x s => { s with byteOrder := x }),
    .required "link_base" readUInt32 (fun x s => { s with linkBase := x }),
    .required "local_base" readUInt64 (fun x s => { s with localBase := x }),
    .required "entries_offset" readUInt64 (fun x s => { s with entriesOffset := x }),
    .required "modules" (readList ReservationSummary.record.reader)
      (fun x s => { s with reservations := x }),
    .optional "version" (readOption VersionSummary.record.reader)
      (fun x s => { s with version := x }),
    .required "device_trees" (readList DeviceTreeSummary.record.reader)
      (fun x s => { s with deviceTrees := x }),
    .required "opaque_tags" (readList readUInt32) (fun x s => { s with uninterpretedTags := x })]
  mayStopEarly := false

/-- The summary that a JSON text stands for. -/
def ofJson (text : String) : Except Fault Summary :=
  record.reader.readDocument text

/-- Print a summary. -/
def print (s : Summary) : Printer :=
  printObject [
    ("byte_order", printString s.byteOrder.name),
    ("link_base", printNat s.linkBase.toNat),
    ("local_base", printNat s.localBase.toNat),
    ("entries_offset", printNat s.entriesOffset.toNat),
    ("modules", printList (s.reservations.map (·.print))),
    ("version", printOption VersionSummary.print s.version),
    ("device_trees", printList (s.deviceTrees.map (·.print))),
    ("opaque_tags", printList (s.uninterpretedTags.map fun tag => printNat tag.toNat))]

/-- The JSON text of a summary, one value to a line. -/
def toJson (s : Summary) : String :=
  Printer.indented s.print

end Summary

end ConfigArea
