import ConfigArea.Proofs.Json.Object
import ConfigArea.Summary.Json

/-!
# Summaries survive their JSON form

The text of a summary is read as that summary, whatever its texts, numbers and lists are. So a text
that is read as a summary may be replaced by the text printed for it.

## Key results

- `ReservationSummary.reads_print`, `VersionSummary.reads_print`, `DeviceTreeSummary.reads_print`,
  `Summary.reads_print`: each part is read back from its printed form, in either layout
- `Summary.ofJson_toJson`: a summary is read back from its text
-/

namespace ConfigArea

open Json

/-- A byte order is read back from its name. -/
theorem ByteOrder.reads_name (o : ByteOrder) :
    (readAlternative alternatives).Reads (quote o.name) o := by
  apply readAlternative_reads
  cases o <;> rfl

/-- The summary of a reservation is read back from its printed form. -/
theorem ReservationSummary.reads_print (m : ReservationSummary) (layout : Layout) :
    record.reader.Reads (m.print layout) m := by
  have hfields : Record.PrintsFields record.fields
      [("name", printString m.name), ("size", printNat m.size.toNat)] _ :=
    .required (fun _ => readString_reads m.name) <|
    .required (fun _ => readUInt32_reads m.size) .nil
  exact Record.reads_printObject hfields (by decide) layout

/-- The summary of a version record is read back from its printed form. -/
theorem VersionSummary.reads_print (v : VersionSummary) (layout : Layout) :
    record.reader.Reads (v.print layout) v := by
  have hfields : Record.PrintsFields record.fields [("build_number", printString v.buildNumber),
      ("source_revision", printString v.sourceRevision),
      ("firmware_string", printString v.firmware)] _ :=
    .required (fun _ => readString_reads v.buildNumber) <|
    .required (fun _ => readString_reads v.sourceRevision) <|
    .required (fun _ => readString_reads v.firmware) .nil
  exact Record.reads_printObject hfields (by decide) layout

/-- The summary of a device tree is read back from its printed form. -/
theorem DeviceTreeSummary.reads_print (d : DeviceTreeSummary) (layout : Layout) :
    record.reader.Reads (d.print layout) d := by
  have hfields : Record.PrintsFields record.fields [("subrev", printNat d.subrev.toNat),
      ("offset", printNat d.offset.toNat), ("size", printNat d.size.toNat),
      ("sha256", printString d.sha256)] _ :=
    .required (fun _ => readUInt8_reads d.subrev) <|
    .required (fun _ => readUInt64_reads d.offset) <|
    .required (fun _ => readUInt64_reads d.size) <|
    .required (fun _ => readString_reads d.sha256) .nil
  exact Record.reads_printObject hfields (by decide) layout

namespace Summary

/-- The tags of a summary are read back. -/
theorem reads_tags (tags : List UInt32) (layout : Layout) :
    (readList readUInt32).Reads (printList (tags.map fun tag => printNat tag.toNat) layout) tags :=
  readList_reads (fun tag _ => readUInt32_reads tag) (fun _ _ => startsValue_toDigits _) tags layout

/-- A summary is read back from its printed form. -/
theorem reads_print (s : Summary) (layout : Layout) : record.reader.Reads (s.print layout) s := by
  -- what stands in lists or may be null starts neither as a bracket nor as null does
  have hreservations (layout : Layout) := readList_reads ReservationSummary.reads_print
    (fun _ _ => startsValue_printObject _) s.reservations layout
  have hversion (layout : Layout) := readOption_reads VersionSummary.reads_print
    (fun _ _ => startsValue_printObject _) s.version layout
  have htrees (layout : Layout) := readList_reads DeviceTreeSummary.reads_print
    (fun _ _ => startsValue_printObject _) s.deviceTrees layout
  -- each member in the order of the record
  have hfields : Record.PrintsFields record.fields [
      ("byte_order", printString s.byteOrder.name),
      ("link_base", printNat s.linkBase.toNat),
      ("local_base", printNat s.localBase.toNat),
      ("entries_offset", printNat s.entriesOffset.toNat),
      ("modules", printList (s.reservations.map (·.print))),
      ("version", printOption VersionSummary.print s.version),
      ("device_trees", printList (s.deviceTrees.map (·.print))),
      ("opaque_tags", printList (s.uninterpretedTags.map fun tag => printNat tag.toNat))] _ :=
    .required (fun _ => ByteOrder.reads_name s.byteOrder) <|
    .required (fun _ => readUInt32_reads s.linkBase) <|
    .required (fun _ => readUInt64_reads s.localBase) <|
    .required (fun _ => readUInt64_reads s.entriesOffset) <|
    .required hreservations <|
    .optional hversion <|
    .required htrees <|
    .required (reads_tags s.uninterpretedTags) .nil
  exact Record.reads_printObject hfields (by decide) layout

/-- A summary survives its JSON form. So does what any text is read as: writing that down and
reading it once more comes to the same as reading the text, be it a summary or a failure. -/
theorem ofJson_toJson : (∀ s : Summary, ofJson s.toJson = .ok s) ∧
    ∀ text, (ofJson text >>= fun s => ofJson s.toJson) = ofJson text := by
  have hread (s : Summary) : ofJson s.toJson = .ok s := readDocument_ofList (reads_print s _)
  refine ⟨hread, fun text => ?_⟩
  -- A failure stays, and a summary is read back.
  cases ofJson text with
  | error e => rfl
  | ok s =>
    rw [ok_bind]
    exact hread s

end Summary

end ConfigArea
