import ConfigArea.Digest.Sha256
import ConfigArea.Table

/-!
# Summaries

A summary names what a table holds without holding it: texts for names, digests for device trees.
It is what the analysis of a file reports. Its offsets and sizes are numbers of 64 bits.
-/

namespace ConfigArea

/-- One module reservation. -/
structure ReservationSummary where
  name : String
  size : UInt32
  deriving DecidableEq

/-- The texts of a version record. -/
structure VersionSummary where
  buildNumber : String
  sourceRevision : String
  firmware : String
  deriving DecidableEq

/-- A device tree, identified by size and digest. -/
structure DeviceTreeSummary where
  subrev : UInt8
  offset : UInt64
  size : UInt64
  sha256 : String
  deriving DecidableEq

/-- What a table holds. -/
structure Summary where
  byteOrder : ByteOrder
  linkBase : UInt32
  localBase : UInt64
  entriesOffset : UInt64
  /-- the reservations of the first entry for kernel modules -/
  reservations : List ReservationSummary
  version : Option VersionSummary
  deviceTrees : List DeviceTreeSummary
  /-- the tags of the entries whose payload has no known layout -/
  uninterpretedTags : List UInt32
  deriving DecidableEq

/-- The summary of a reservation. -/
def Reservation.summary (m : Reservation) : ReservationSummary :=
  ⟨m.name.text, m.size⟩

/-- The summary of a version record. -/
def Version.summary (v : Version) : VersionSummary :=
  ⟨v.buildNumber.paddedText, v.sourceRevision.paddedText, v.firmware.paddedText⟩

/-- The summary of a device tree. -/
def DeviceTree.summary (tree : DeviceTree) : DeviceTreeSummary :=
  ⟨tree.subrev, .ofNat tree.offset, .ofNat tree.blob.size, Sha256.hexDigest tree.blob⟩

/-- The tags of the entries whose payload has no known layout, in their order. -/
def Table.uninterpretedTags (t : Table) : List UInt32 :=
  t.entries.filterMap fun
    | .uninterpreted tag _ => some tag.raw
    | _ => none

/-- The summary of a table. -/
def Table.summary (t : Table) : Summary where
  byteOrder := t.byteOrder
  linkBase := t.linkBase
  localBase := .ofNat t.localBase
  entriesOffset := .ofNat t.entriesOffset
  reservations := (t.reservations?.getD []).map (·.summary)
  version := t.version?.map (·.summary)
  deviceTrees := t.deviceTrees.map (·.summary)
  uninterpretedTags := t.uninterpretedTags

end ConfigArea
