import ConfigArea.Record
import ConfigArea.Tag

/-!
# Tables

A table is what an area holds once every link-time pointer in it has been resolved: its byte order,
the addresses it was linked for and lies at, and its entries with their payloads.

* `Table.shift_shift`, `Table.shift_zero`: moving a table moves its offsets and nothing else
-/

namespace ConfigArea

/-- The device tree of one hardware sub-revision. -/
structure DeviceTree where
  subrev : UInt8
  /-- of the blob in the buffer -/
  offset : Nat
  blob : ByteArray

/-- An entry with its payload. -/
inductive Entry where
  /-- reservations for kernel modules, in the order of their records -/
  | reservations (reservations : List Reservation)
  | version (version : Version)
  | deviceTree (tree : DeviceTree)
  /-- an entry of a known kind whose payload, at `offset`, has no known layout -/
  | uninterpreted (tag : Tag) (offset : Nat)

namespace Entry

/-- The kind of the entry. -/
def tag : Entry → Tag
  | reservations _ => .moduleMemory
  | version _ => .versionInfo
  | deviceTree tree => .deviceTree tree.subrev
  | uninterpreted tag _ => tag

/-- The entry in a buffer in which it lies `n` bytes further on. -/
def shift (n : Nat) : Entry → Entry
  | deviceTree tree => .deviceTree { tree with offset := tree.offset + n }
  | uninterpreted tag offset => .uninterpreted tag (offset + n)
  | e => e

end Entry

/-- A configuration area whose pointers are resolved. Offsets count from the start of the buffer
that holds it. -/
structure Table where
  byteOrder : ByteOrder
  /-- the address of the area when it was linked -/
  linkBase : UInt32
  /-- the offset of the area in the buffer -/
  localBase : Nat
  regionSize : Nat
  entriesOffset : Nat
  entries : List Entry

namespace Table

/-- The table in a buffer in which its area lies `n` bytes further on. -/
def shift (n : Nat) (t : Table) : Table :=
  { t with
    localBase := t.localBase + n
    entriesOffset := t.entriesOffset + n
    entries := t.entries.map (·.shift n) }

/-- The reservations of the first entry for kernel modules. -/
def reservations? (t : Table) : Option (List Reservation) :=
  t.entries.findSome? fun
    | .reservations reservations => some reservations
    | _ => none

/-- The first version record. -/
def version? (t : Table) : Option Version :=
  t.entries.findSome? fun
    | .version version => some version
    | _ => none

/-- All device trees, in the order of their entries. -/
def deviceTrees (t : Table) : List DeviceTree :=
  t.entries.filterMap fun
    | .deviceTree tree => some tree
    | _ => none

/-- The first device tree for a sub-revision. -/
def deviceTree? (t : Table) (subrev : UInt8) : Option DeviceTree :=
  t.deviceTrees.find? (·.subrev == subrev)

/-- A table that is moved by nothing stays as it is. -/
@[simp] theorem shift_zero (t : Table) : t.shift 0 = t := by
  -- no entry moves
  have h : (fun e : Entry => e.shift 0) = id := by
    funext e
    cases e <;> rfl
  simp [shift, h]

/-- Moving a table twice moves it by the sum. -/
@[simp] theorem shift_shift (t : Table) (m n : Nat) : (t.shift m).shift n = t.shift (m + n) := by
  -- moving adds up in every entry
  have h : (fun e : Entry => (e.shift m).shift n) = fun e => e.shift (m + n) := by
    funext e
    cases e <;> simp [Entry.shift, Nat.add_assoc]
  simp only [shift, List.map_map, Function.comp_def, h, Nat.add_assoc]

end Table

end ConfigArea
