import ConfigArea.Proofs.Relocation.Contents
import ConfigArea.Proofs.Text.Utf8
import ConfigArea.Summary
import Mathlib.Data.List.Basic

/-!
# What a summary covers

The summary of a table names every device tree and every uninterpreted entry. Of the reservations
it names those of the first entry for kernel modules. A region may have several such entries, since
neither detection nor relocation refuses a tag that occurs again, and then the reservations of the
later ones are left out.

## Key results

- `Table.reservations?_append`: what is named and what is left out are all reservations together
- `Table.covers_summary_iff_leftOut`, `flatMap_behindReservations_eq_nil_iff`: a summary names
  everything if all entries behind one for kernel modules are without reservations
- `summary_covers_iff_reservesOnce`: the same by the words of a relocated region
-/

namespace ConfigArea

namespace Entry

/-- The reservations that the entry holds. -/
def reserved : Entry → List Reservation
  | reservations rs => rs
  | _ => []

/-- The device trees that the entry holds. -/
def trees : Entry → List DeviceTree
  | deviceTree tree => [tree]
  | _ => []

/-- The tag of the entry, if its payload has no known layout. -/
def uninterpretedTags : Entry → List UInt32
  | uninterpreted tag _ => [tag.raw]
  | _ => []

/-- The entry is for kernel modules. -/
def IsReservations (e : Entry) : Prop :=
  ∃ rs, e = reservations rs

/-- An entry that is not for kernel modules holds no reservations. -/
theorem reserved_eq_nil {e : Entry} (h : ¬e.IsReservations) : e.reserved = [] := by
  cases e with
  | reservations rs => exact absurd ⟨rs, rfl⟩ h
  | version v => rfl
  | deviceTree d => rfl
  | uninterpreted tag offset => rfl

end Entry

/-- The summary names whatever the entries of the table hold, but for their version records: their
reservations, their device trees and the tags of those without a known layout, each in the order
of the table. -/
structure Summary.Covers (s : Summary) (t : Table) : Prop where
  reservations : s.reservations = (t.entries.flatMap Entry.reserved).map (·.summary)
  deviceTrees : s.deviceTrees = (t.entries.flatMap Entry.trees).map (·.summary)
  uninterpretedTags : s.uninterpretedTags = t.entries.flatMap Entry.uninterpretedTags

/-- The entries behind the first one for kernel modules. -/
def behindReservations : List Entry → List Entry
  | [] => []
  | .reservations _ :: es => es
  | _ :: es => behindReservations es

namespace Table

variable {t : Table}

/-- The reservations that a summary leaves out. -/
def leftOut (t : Table) : List Reservation :=
  (behindReservations t.entries).flatMap Entry.reserved

/-- A summary names the reservations up to those that it leaves out. -/
theorem reservations?_append (t : Table) :
    t.reservations?.getD [] ++ t.leftOut = t.entries.flatMap Entry.reserved := by
  unfold reservations? leftOut
  -- Induction on the entries: at the first one for kernel modules both sides have its reservations.
  induction t.entries with
  | nil => rfl
  | cons e es ih =>
    cases e with
    | reservations rs => rfl
    | version v => exact ih
    | deviceTree d => exact ih
    | uninterpreted tag offset => exact ih

/-- The device trees of a table are those of its entries. -/
theorem deviceTrees_eq_flatMap (t : Table) : t.deviceTrees = t.entries.flatMap Entry.trees := by
  rw [deviceTrees, List.filterMap_eq_flatMap_toList]
  refine congrArg t.entries.flatMap (funext fun e => ?_)
  cases e <;> rfl

/-- The tags of the uninterpreted entries are those of the entries without a known layout. -/
theorem uninterpretedTags_eq_flatMap (t : Table) :
    t.uninterpretedTags = t.entries.flatMap Entry.uninterpretedTags := by
  rw [uninterpretedTags, List.filterMap_eq_flatMap_toList]
  refine congrArg t.entries.flatMap (funext fun e => ?_)
  cases e <;> rfl

/-! ## Summaries -/

/-- The reservations that a summary names and those that it leaves out are all there are. -/
theorem summary_reservations_append (t : Table) :
    t.summary.reservations ++ t.leftOut.map (·.summary) =
      (t.entries.flatMap Entry.reserved).map (·.summary) := by
  rw [← reservations?_append, List.map_append]
  rfl

/-- A summary names the device trees of all entries. -/
theorem summary_deviceTrees (t : Table) :
    t.summary.deviceTrees = (t.entries.flatMap Entry.trees).map (·.summary) := by
  rw [← deviceTrees_eq_flatMap]
  rfl

/-- Device trees and uninterpreted entries are never left out, so it is a matter of the
reservations. -/
theorem covers_summary_iff_leftOut : t.summary.Covers t ↔ t.leftOut = [] := by
  have hall := t.summary_reservations_append
  constructor
  · intro h
    rw [← h.reservations, List.append_right_eq_self] at hall
    exact List.map_eq_nil_iff.1 hall
  · intro h
    rw [h, List.map_nil, List.append_nil] at hall
    exact ⟨hall, t.summary_deviceTrees, t.uninterpretedTags_eq_flatMap⟩

end Table

/-- Nothing is left out exactly if every entry with one for kernel modules before it is without
reservations. -/
theorem flatMap_behindReservations_eq_nil_iff {es : List Entry} :
    (behindReservations es).flatMap Entry.reserved = [] ↔
      es.Pairwise fun d e => d.IsReservations → e.reserved = [] := by
  -- Induction on the entries: behind the first one for kernel modules everything is left out, and
  -- an entry before it leaves out nothing.
  induction es with
  | nil => simp [behindReservations]
  | cons d es ih =>
    rw [List.pairwise_cons]
    -- an entry that is not for kernel modules asks nothing of those behind it
    have hskip (hd : ¬d.IsReservations)
        (hbehind : behindReservations (d :: es) = behindReservations es) :
        (behindReservations (d :: es)).flatMap Entry.reserved = [] ↔
          (∀ e ∈ es, d.IsReservations → e.reserved = []) ∧
            es.Pairwise fun d e => d.IsReservations → e.reserved = [] := by
      rw [hbehind, ih]
      exact (and_iff_right fun _ _ h => absurd h hd).symm
    cases d with
    | reservations rs =>
      show es.flatMap Entry.reserved = [] ↔ _
      rw [List.flatMap_eq_nil_iff]
      constructor
      · intro h
        refine ⟨fun e he _ => h e he, ?_⟩
        exact List.pairwise_of_forall_mem_list fun _ _ e he _ => h e he
      · intro h e he
        exact h.1 e he ⟨rs, rfl⟩
    | version v => exact hskip nofun rfl
    | deviceTree d => exact hskip nofun rfl
    | uninterpreted tag offset => exact hskip nofun rfl

/-! ## By the words of a region -/

namespace Region

variable {r : Region} {i tag : Nat} {e : Entry}

/-- Of the `n` entries from offset `i` on, the first with the tag 1 may point to reservations. Those
behind it that have this tag point to a null word, which ends a list of reservations. -/
def ReservesOnce (r : Region) (i n : Nat) : Prop :=
  ∀ j k, j < k → k < n → r.word (i + 8 * j) = 1 → r.word (i + 8 * k) = 1 →
    r.word (r.locate (r.word (i + 8 * k + 4))) = 0

/-- The tag 1 is that of the entries for kernel modules. -/
theorem HasEntry.isReservations_iff (h : r.HasEntry i tag e) : e.IsReservations ↔ tag = 1 := by
  cases e with
  | reservations rs => exact iff_of_true ⟨rs, rfl⟩ h.1
  | version v => exact iff_of_false nofun (by rw [h.1]; decide)
  | deviceTree d => exact iff_of_false nofun (by have := h.1; omega)
  | uninterpreted kind offset =>
    refine iff_of_false nofun ?_
    rcases h.1 with ⟨rfl, -⟩ | ⟨rfl, -⟩ | ⟨rfl, -⟩ <;> decide

/-- An entry is without reservations if it is not for kernel modules or points to a null word. -/
theorem HasEntry.reserved_eq_nil_iff (h : r.HasEntry i tag e) :
    e.reserved = [] ↔ (tag = 1 → r.word i = 0) := by
  by_cases hmodules : e.IsReservations
  · obtain ⟨rs, rfl⟩ := hmodules
    obtain ⟨htag, hrecords⟩ := h
    show rs = [] ↔ _
    -- a list is empty where its first word is null
    cases rs with
    | nil => exact iff_of_true rfl fun _ => (Records.nil_iff.1 hrecords).2
    | cons m rs =>
      have hne := (Records.cons_iff.1 hrecords).1.pointer_ne
      exact iff_of_false nofun fun h => hne (h htag)
  · exact iff_of_true (Entry.reserved_eq_nil hmodules) fun htag =>
      absurd (h.isReservations_iff.2 htag) hmodules

/-- What the entries say of each other, said by their words. -/
theorem HasEntries.pairwise_iff {es : List Entry} (h : r.HasEntries i es) :
    (es.Pairwise fun d e => d.IsReservations → e.reserved = []) ↔ r.ReservesOnce i es.length := by
  have hslot (k : Nat) (hk : k < es.length) := (h.record k hk).entry
  -- both sides speak of two slots, one behind the other
  rw [List.pairwise_iff_getElem]
  constructor
  · intro h j k hlt hk hj
    exact (hslot k hk).reserved_eq_nil_iff.1
      (h j k (by omega) hk hlt ((hslot j (by omega)).isReservations_iff.2 hj))
  · intro h j k hj hk hlt hd
    exact (hslot k hk).reserved_eq_nil_iff.2 (h j k hlt hk ((hslot j hj).isReservations_iff.1 hd))

end Region

/-- The region of the buffer that a table relocated from it was in. -/
def Table.region (t : Table) (buffer : ByteArray) : Region :=
  ⟨buffer, t.byteOrder, t.localBase, t.regionSize⟩

/-- The summary of a relocated table names every device tree and every uninterpreted entry, and of
the reservations all up to those behind the first entry for kernel modules. So it names whatever
the entries hold exactly if no entry for kernel modules behind another one points to
reservations. -/
theorem summary_covers_iff_reservesOnce {horizon : Nat} {buffer : ByteArray} {offset size : Nat}
    {t : Table} (hsize : buffer.size < 0x8000000000000000)
    (h : relocate horizon buffer offset size = .ok t) :
    t.summary.reservations ++ t.leftOut.map (·.summary) =
        (t.entries.flatMap Entry.reserved).map (·.summary) ∧
      t.summary.deviceTrees = (t.entries.flatMap Entry.trees).map (·.summary) ∧
      t.summary.uninterpretedTags = t.entries.flatMap Entry.uninterpretedTags ∧
      (t.summary.Covers t ↔
        (t.region buffer).ReservesOnce t.entriesOffset t.entries.length) := by
  refine ⟨t.summary_reservations_append, t.summary_deviceTrees, t.uninterpretedTags_eq_flatMap, ?_⟩
  obtain ⟨-, order, -, htable⟩ := (Region.relocate_eq_ok_iff (le_lastOffset hsize)).1 h
  -- the region is the one that was accepted, with the order of its table
  have hregion : t.region buffer = ⟨buffer, order, offset, size⟩ := by
    rw [Table.region, htable.byteOrder, htable.localBase, htable.regionSize]
  rw [Table.covers_summary_iff_leftOut, Table.leftOut, flatMap_behindReservations_eq_nil_iff,
    htable.entries.pairwise_iff, hregion]

/-! ## Two regions with two entries for kernel modules -/

/-- An entry for kernel modules is relocated as the list that its pointer leads to. -/
theorem Area.entry_of_reservations {a : Area} {offset target : Nat} {pointer : UInt32}
    {rs : List Reservation} (hresolve : a.resolve (offset + 4) pointer = .ok target)
    (hlist : a.reservations target = .ok rs) :
    a.entry ⟨offset, 1, pointer⟩ = .ok (.reservations rs) := by
  show (a.resolve (offset + 4) pointer >>= a.payload .moduleMemory) = _
  rw [hresolve, ok_bind, payload, hlist]
  rfl

/-- A name that is a text is summarized by this text. -/
theorem Reservation.summary_toUTF8 (name : String) (size : UInt32) :
    Reservation.summary ⟨name.toUTF8, size⟩ = ⟨name, size⟩ := by
  rw [summary, ByteArray.text_toUTF8]

/-- The first entry points to a list with one reservation, the second to the null word that ends
this list. -/
def regionWithSpareList : ByteArray :=
  ⟨#[0x04, 0x20, 0x43, 0x80, 1, 0, 0, 0, 0x1c, 0x20, 0x43, 0x80, 1, 0, 0, 0, 0x24, 0x20, 0x43, 0x80,
    16, 0, 0, 0, 0, 0, 0, 0, 0x28, 0x20, 0x43, 0x80, 1, 0, 0, 0, 0, 0, 0, 0, 0x61, 0]⟩

/-- The table of that region. -/
def tableWithSpareList : Table :=
  ⟨.little, 0x80432000, 0, 42, 4, [.reservations [⟨"a".toUTF8, 1⟩], .reservations []]⟩

/-- The summary of that table names its one reservation, and the second list has none to leave
out. -/
theorem summary_covers_tableWithSpareList :
    regionWithSpareList.size < 0x8000000000000000 ∧
      relocate 16384 regionWithSpareList 0 42 = .ok tableWithSpareList ∧
      tableWithSpareList.summary.reservations = [⟨"a", 1⟩] ∧
      tableWithSpareList.summary.Covers tableWithSpareList := by
  have hsize : regionWithSpareList.size < 0x8000000000000000 := by decide
  -- the two lists: a record and the null word behind it, and that null word alone
  have hfirst : (Area.ofBuffer .little regionWithSpareList 0 42).reservations 28 =
      .ok [⟨"a".toUTF8, 1⟩] := by
    rw [Area.reservations_eq_bind, Area.reservations_eq_bind]
    rfl
  have hsecond : (Area.ofBuffer .little regionWithSpareList 0 42).reservations 36 = .ok [] := by
    rw [Area.reservations_eq_bind]
    rfl
  -- the two entries before the terminator
  have hwalk : (Area.ofBuffer .little regionWithSpareList 0 42).Passes 4
      [⟨4, 1, 0x8043201c⟩, ⟨12, 1, 0x80432024⟩] ⟨20, 16, 0⟩ .nullPayload :=
    .next rfl rfl (.next rfl rfl (.ends rfl rfl))
  have hrelocate : relocate 16384 regionWithSpareList 0 42 = .ok tableWithSpareList := by
    refine relocate_eq_ok_iff.2 ⟨by decide, .little, rfl, ?_⟩
    rw [Area.decode_of_passes rfl rfl hwalk, List.mapM_cons, Area.entry_of_reservations rfl hfirst,
      List.mapM_cons, Area.entry_of_reservations rfl hsecond]
    rfl
  have hnamed : tableWithSpareList.summary.reservations = [⟨"a", 1⟩] := by
    show [Reservation.summary ⟨"a".toUTF8, 1⟩] = _
    rw [Reservation.summary_toUTF8]
  refine ⟨hsize, hrelocate, hnamed,
    (summary_covers_iff_reservesOnce hsize hrelocate).2.2.2.2 ?_⟩
  -- the one entry behind another is the second, and it points to a null word
  intro j k hlt hk _ _
  obtain rfl : k = 1 := by
    have : k < 2 := hk
    omega
  rfl

/-- Each entry points to a list of its own, with one reservation. -/
def regionWithTwoLists : ByteArray :=
  ⟨#[0x04, 0x20, 0x43, 0x80, 1, 0, 0, 0, 0x1c, 0x20, 0x43, 0x80, 1, 0, 0, 0, 0x28, 0x20, 0x43, 0x80,
    16, 0, 0, 0, 0, 0, 0, 0, 0x34, 0x20, 0x43, 0x80, 1, 0, 0, 0, 0, 0, 0, 0,
    0x36, 0x20, 0x43, 0x80, 2, 0, 0, 0, 0, 0, 0, 0, 0x61, 0, 0x62, 0]⟩

/-- The table of that region. -/
def tableWithTwoLists : Table :=
  ⟨.little, 0x80432000, 0, 56, 4,
    [.reservations [⟨"a".toUTF8, 1⟩], .reservations [⟨"b".toUTF8, 2⟩]]⟩

/-- The summary of that table leaves out the second reservation. -/
theorem summary_tableWithTwoLists :
    relocate 16384 regionWithTwoLists 0 56 = .ok tableWithTwoLists ∧
      tableWithTwoLists.summary.reservations = [⟨"a", 1⟩] ∧
      (tableWithTwoLists.entries.flatMap Entry.reserved).map (·.summary) =
        [⟨"a", 1⟩, ⟨"b", 2⟩] ∧
      ¬tableWithTwoLists.summary.Covers tableWithTwoLists := by
  -- the two lists of one record each
  have hfirst : (Area.ofBuffer .little regionWithTwoLists 0 56).reservations 28 =
      .ok [⟨"a".toUTF8, 1⟩] := by
    rw [Area.reservations_eq_bind, Area.reservations_eq_bind]
    rfl
  have hsecond : (Area.ofBuffer .little regionWithTwoLists 0 56).reservations 40 =
      .ok [⟨"b".toUTF8, 2⟩] := by
    rw [Area.reservations_eq_bind, Area.reservations_eq_bind]
    rfl
  have hwalk : (Area.ofBuffer .little regionWithTwoLists 0 56).Passes 4
      [⟨4, 1, 0x8043201c⟩, ⟨12, 1, 0x80432028⟩] ⟨20, 16, 0⟩ .nullPayload :=
    .next rfl rfl (.next rfl rfl (.ends rfl rfl))
  -- the summary has the first list, and the entries have both
  have hnamed : tableWithTwoLists.summary.reservations = [⟨"a", 1⟩] := by
    show [Reservation.summary ⟨"a".toUTF8, 1⟩] = _
    rw [Reservation.summary_toUTF8]
  have hall : (tableWithTwoLists.entries.flatMap Entry.reserved).map (·.summary) =
      [⟨"a", 1⟩, ⟨"b", 2⟩] := by
    show [Reservation.summary ⟨"a".toUTF8, 1⟩, Reservation.summary ⟨"b".toUTF8, 2⟩] = _
    rw [Reservation.summary_toUTF8, Reservation.summary_toUTF8]
  refine ⟨relocate_eq_ok_iff.2 ⟨by decide, .little, rfl, ?_⟩, hnamed, hall, fun h => ?_⟩
  · rw [Area.decode_of_passes rfl rfl hwalk, List.mapM_cons, Area.entry_of_reservations rfl hfirst,
      List.mapM_cons, Area.entry_of_reservations rfl hsecond]
    rfl
  · -- a summary that covers the table would name as many reservations as there are
    have hlength := congrArg List.length h.reservations
    rw [hnamed, hall] at hlength
    exact absurd hlength (by decide)

end ConfigArea
