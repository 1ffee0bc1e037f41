import ConfigArea.Proofs.Relocation.Contents
import ConfigArea.Proofs.Sample.Writes
import ConfigArea.Proofs.Text.Utf8
import Mathlib.Data.List.Forall2

/-!
# What a built area contains

A region that holds a copy of what building wrote contains the entries of which the area was built.
The lemmas go backwards through the writes: what the region has after the last of them it has, at
the places that the later ones leave alone, from the earlier ones.

## Key results

- `hasReservations_of_putReservations`, `hasEntry_of_putPayload`: a region that holds what was
  written has the payload
- `records_of_putEntries`: it has the entries
-/

namespace ConfigArea

open Builder

/-- The bytes with zeros behind them, up to `width` bytes. -/
def padded (width : Nat) (b : ByteArray) : ByteArray :=
  b ++ .replicate (width - b.size) 0

/-- A padded field has its width, if what it holds is not longer. -/
theorem size_padded {width : Nat} {b : ByteArray} (h : b.size ≤ width) :
    (padded width b).size = width := by
  unfold padded
  rw [ByteArray.size_append, ByteArray.size_replicate]
  omega

/-- A padded field has the bytes that it holds, and zeros behind them. -/
theorem byteAt_padded (width : Nat) (b : ByteArray) (i : Nat) :
    (padded width b).byteAt i = b.byteAt i := by
  unfold padded
  rw [ByteArray.byteAt_append]
  by_cases h : i < b.size
  · rw [if_pos h]
  · rw [if_neg h, ByteArray.byteAt_of_le (b := b) (by omega), ByteArray.byteAt_zeros]

/-- A pointer is as far above the link-time address as its target is behind the start. -/
theorem Builder.toNat_pointer {n : Nat} (h : Builder.linkBase.toNat + n < 0x100000000) :
    (pointer n).toNat = Builder.linkBase.toNat + n := by
  unfold pointer
  rw [UInt32.toNat_add, UInt32.toNat_ofNat']
  omega

/-- The entry that a payload at `offset` is, for an entry with the given tag. -/
def Payload.entry (tag : UInt32) (offset : Nat) : Payload → Entry
  | .reservations rs => .reservations (rs.map fun m => ⟨m.1, m.2⟩)
  | .version buildNumber sourceRevision firmware =>
    .version ⟨padded 32 buildNumber, padded 32 sourceRevision, padded 128 firmware⟩
  | .raw bytes =>
    match Tag.ofRaw tag with
    | .deviceTree subrev => .deviceTree ⟨subrev, offset, bytes⟩
    | kind => .uninterpreted kind offset

/-- The entries of a table that `entries` become in an area at offset `start`, where the first
payload lies `target` bytes behind that. -/
def Builder.placed (start target : Nat) : List (UInt32 × Payload) → List Entry
  | [] => []
  | (tag, p) :: entries =>
    p.entry tag (start + target) :: placed start (alignUp (p.stop target) 16) entries

/-- A field of `width` bytes holds `bytes` and zeros behind them, and reads as the text that they
encode. -/
def FieldOf (width : Nat) (bytes field : ByteArray) : Prop :=
  field = padded width bytes ∧ ∀ s : String, s.toUTF8 = bytes → field.paddedText = s

/-- The entry `e` of a table, found in `image`, gives back what was put in: the tag, the names,
sizes and texts, the blob, or the bytes at the offset of a payload without a known layout. -/
def Restores (image : ByteArray) (x : UInt32 × Payload) (e : Entry) : Prop :=
  e.tag = .ofRaw x.1 ∧
    match x.2, e with
    | .reservations rs, .reservations ms =>
      List.Forall₂ (fun r (m : Reservation) => m.name = r.1 ∧ m.size = r.2 ∧
        ∀ s : String, s.toUTF8 = r.1 → m.name.text = s) rs ms
    | .version buildNumber sourceRevision firmware, .version v =>
      FieldOf 32 buildNumber v.buildNumber ∧ FieldOf 32 sourceRevision v.sourceRevision ∧
        FieldOf 128 firmware v.firmware
    | .raw bytes, .deviceTree d =>
      d.blob = bytes ∧ image.extract d.offset (d.offset + bytes.size) = bytes
    | .raw bytes, .uninterpreted _ offset =>
      image.extract offset (offset + bytes.size) = bytes
    | _, _ => False

/-- A padded field reads as the bytes that it holds, if none of them is zero. -/
theorem paddedText_padded (width : Nat) {bytes : ByteArray} (h : bytes.NulFree) :
    (padded width bytes).paddedText = bytes.text := by
  -- none of the bytes is where the field is cut
  have hbytes : ∀ b ∈ bytes.data.toList, (b != 0) = true := by
    intro b hb
    obtain ⟨i, hi, rfl⟩ := List.getElem_of_mem hb
    have hlt : i < bytes.size := by simpa using hi
    have hne := h i hlt
    rw [ByteArray.byteAt_of_lt hlt] at hne
    exact bne_iff_ne.2 hne
  -- the zeros behind the bytes are where the field is cut
  have hlist : (padded width bytes).data.toList =
      bytes.data.toList ++ List.replicate (width - bytes.size) 0 := by
    unfold padded
    rw [ByteArray.data_append, Array.toList_append]
    rfl
  unfold ByteArray.paddedText ByteArray.text
  rw [hlist, List.takeWhile_append_of_pos hbytes, List.takeWhile_replicate]
  simp

/-- A padded field is one of the bytes that it holds. -/
theorem fieldOf_padded (width : Nat) {bytes : ByteArray} (h : bytes.NulFree) :
    FieldOf width bytes (padded width bytes) := by
  refine ⟨rfl, fun s hs => ?_⟩
  rw [paddedText_padded width h, ← hs, ByteArray.text_toUTF8]

namespace Region

variable {R : Region} {area r : ByteArray} {lo hi i : Nat}

/-- The bytes of `area` from `lo` up to `hi` lie in the region, each as far from its start as from
that of `area`. -/
structure Copies (R : Region) (area : ByteArray) (lo hi : Nat) : Prop where
  inside : hi ≤ R.size
  byte : ∀ i, lo ≤ i → i < hi → R.buffer.byteAt (R.offset + i) = area.byteAt i

/-- A copy of some bytes is a copy of fewer. -/
theorem Copies.mono (h : R.Copies area lo hi) {lo' hi' : Nat} (hlo : lo ≤ lo') (hhi : hi' ≤ hi) :
    R.Copies area lo' hi' :=
  ⟨by have := h.inside; omega, fun i hi hi' => h.byte i (by omega) (by omega)⟩

/-- A copy of what was written is a copy of what was there before, where nothing was changed. -/
theorem Copies.of_unchanged (h : R.Copies r lo hi)
    (hsame : ∀ i, lo ≤ i → i < hi → r.byteAt i = area.byteAt i) : R.Copies area lo hi :=
  ⟨h.inside, fun i hlo hhi => (h.byte i hlo hhi).trans (hsame i hlo hhi)⟩

/-- The region has the words that were copied. -/
theorem Copies.wordAt (h : R.Copies area lo hi) (hlo : lo ≤ i) (hhi : i + 4 ≤ hi) :
    R.buffer.wordAt (R.offset + i) = area.wordAt i := by
  apply ByteArray.wordAt_congr
  intro k hk
  rw [Nat.add_assoc]
  exact h.byte (i + k) (by omega) (by omega)

/-- A number that was copied reads as that number. -/
theorem Copies.word_eq (h : R.Copies area lo hi) (hlo : lo ≤ i) (hhi : i + 4 ≤ hi) {v : UInt32}
    (hv : area.wordAt i = Word.encode v R.order) : R.word (R.offset + i) = v.toNat := by
  unfold word
  rw [h.wordAt hlo hhi, hv, Word.value_encode]

/-- Bytes that were copied are a part of the buffer. -/
theorem Copies.extract_eq (hfit : R.stop ≤ R.buffer.size) (h : R.Copies area lo hi)
    {new : ByteArray} (hlo : lo ≤ i) (hhi : i + new.size ≤ hi)
    (hnew : ∀ j, j < new.size → area.byteAt (i + j) = new.byteAt j) :
    R.buffer.extract (R.offset + i) (R.offset + i + new.size) = new := by
  -- byte by byte, and every byte that is asked for lies inside the copied part
  have hinside := h.inside
  have hstop : R.stop = R.offset + R.size := rfl
  have hsize : (R.buffer.extract (R.offset + i) (R.offset + i + new.size)).size = new.size := by
    rw [ByteArray.size_extract]
    omega
  apply ByteArray.ext_byteAt hsize
  intro j hj
  rw [ByteArray.byteAt_extract (by omega), ← hnew j (by omega), Nat.add_assoc]
  exact h.byte (i + j) (by omega) (by omega)

/-- Zeros that were copied read as zero. -/
theorem Copies.word_eq_zero (h : R.Copies area lo hi) (hlo : lo ≤ i) (hhi : i + 4 ≤ hi)
    (hzero : ∀ j, i ≤ j → j < i + 4 → area.byteAt j = 0) : R.word (R.offset + i) = 0 := by
  apply h.word_eq hlo hhi (v := 0)
  rw [ByteArray.wordAt_eq_zero hzero]
  cases R.order <;> rfl

/-- A name that was copied with the zero behind it stands in the region. -/
theorem Copies.hasString (hfit : R.stop ≤ R.buffer.size) (h : R.Copies area lo hi) {s : ByteArray}
    (hs : s.NulFree) (hlo : lo ≤ i) (hhi : i + s.size < hi)
    (hbytes : ∀ j, j < s.size → area.byteAt (i + j) = s.byteAt j)
    (hend : area.byteAt (i + s.size) = 0) : R.HasString (R.offset + i) s := by
  have hinside := h.inside
  have hstop : R.stop = R.offset + R.size := rfl
  -- it ends at that zero, since none of its own bytes is one
  refine ⟨R.offset + i + s.size, by omega, by omega, ?_, fun k hk hk' => ?_, ?_⟩
  · rw [Nat.add_assoc, h.byte (i + s.size) (by omega) hhi, hend]
  · obtain ⟨j, rfl⟩ := Nat.exists_eq_add_of_le hk
    rw [Nat.add_assoc, h.byte (i + j) (by omega) (by omega), hbytes j (by omega)]
    exact hs j (by omega)
  · exact (h.extract_eq hfit hlo (Nat.le_of_lt hhi) hbytes).symm

/-! ## Pointers -/

/-- The pointer to what lies `n` bytes behind the start of the region. -/
theorem addresses_pointer (hbase : R.base = Builder.linkBase.toNat) {n : Nat}
    (hlimit : Builder.linkBase.toNat + n < 0x100000000) (hn : n < R.size) :
    (pointer n).toNat ≠ 0 ∧ R.Addresses (pointer n).toNat ∧
      R.locate (pointer n).toNat = R.offset + n := by
  have hstop : R.stop = R.offset + R.size := rfl
  have hlink : Builder.linkBase.toNat = 0x80432000 := rfl
  have hlocate : R.locate (pointer n).toNat = R.offset + n := by
    unfold locate
    rw [toNat_pointer hlimit, hbase]
    omega
  -- no pointer is as low as zero, and one to a byte of the region addresses it
  refine ⟨?_, ⟨?_, ?_⟩, hlocate⟩
  · rw [toNat_pointer hlimit]
    omega
  · rw [toNat_pointer hlimit, hbase]
    omega
  · rw [hlocate]
    omega

/-! ## Reservations -/

/-- One reservation is written, and then the others: what it needs to be found again is left alone
by them, and what they need is still zero. -/
theorem hasReservation_of_putReservations_cons (hfit : R.stop ≤ R.buffer.size)
    (hbase : R.base = Builder.linkBase.toNat) {offset nameOffset stop : Nat}
    {m : ByteArray × UInt32} {rs : List (ByteArray × UInt32)}
    (h : putReservations R.order offset nameOffset area (m :: rs) = some (r, stop))
    (hnul : m.1.NulFree) (hrecords : offset + 8 * (rs.length + 2) ≤ nameOffset)
    (hnames : ∀ i, nameOffset ≤ i → area.byteAt i = 0)
    (hlimit : Builder.linkBase.toNat + stop < 0x100000000) (hcopy : R.Copies r offset stop) :
    R.HasReservation (R.offset + offset) ⟨m.1, m.2⟩ ∧
    ∃ a, putReservations R.order (offset + 8) (alignUp (nameOffset + m.1.size + 1) 4) a rs =
        some (r, stop) ∧
      ∀ i, offset + 8 ≤ i → i < nameOffset ∨ nameOffset + m.1.size ≤ i →
        a.byteAt i = area.byteAt i := by
  have hinside := hcopy.inside
  have hRstop : R.stop = R.offset + R.size := rfl
  obtain ⟨a₁, h₁, a₂, h₂, a₃, h₃, hr⟩ := putReservations_cons_eq_some.1 h
  have hstop := stop_putReservations hr
  have halign := le_alignUp (nameOffset + m.1.size + 1) (show 0 < 4 by decide)
  have hrest := le_namesStop (alignUp (nameOffset + m.1.size + 1) 4) rs
  -- behind the record only the name is new
  have hsame (i : Nat) (hi : offset + 8 ≤ i) (hi' : i < nameOffset ∨ nameOffset + m.1.size ≤ i) :
      a₃.byteAt i = area.byteAt i := by
    rw [ByteArray.byteAt_put?_of_not_mem h₃ (by omega), byteAt_putU32 h₂ (by omega),
      byteAt_putPointer h₁ (by omega)]
  -- the name and the zero behind it lie before the next name
  have hname : R.Copies a₃ nameOffset (nameOffset + m.1.size + 1) :=
    (hcopy.mono (by omega) (by omega)).of_unchanged fun i hi hi' =>
      byteAt_putReservations hr (by omega) (by omega)
  -- the record lies before the next record
  have hrecord : R.Copies a₂ offset (offset + 8) :=
    (hcopy.mono (Nat.le_refl _) (by omega)).of_unchanged fun i hi hi' => by
      rw [byteAt_putReservations hr (by omega) (by omega),
        ByteArray.byteAt_put?_of_not_mem h₃ (by omega)]
  have hcell : R.Copies a₁ offset (offset + 4) :=
    (hrecord.mono (Nat.le_refl _) (by omega)).of_unchanged fun i hi hi' =>
      byteAt_putU32 h₂ (by omega)
  have hpointer : R.word (R.offset + offset) = (pointer nameOffset).toNat :=
    hcell.word_eq (Nat.le_refl _) (Nat.le_refl _) (wordAt_putPointer h₁)
  have hsize : R.word (R.offset + offset + 4) = m.2.toNat := by
    rw [Nat.add_assoc]
    exact hrecord.word_eq (by omega) (by omega) (wordAt_putU32 h₂)
  -- the pointer leads to the name, which stands there up to its zero
  obtain ⟨hne, haddr, hlocate⟩ := addresses_pointer hbase (n := nameOffset) (by omega) (by omega)
  refine ⟨⟨by omega, by rwa [hpointer], by rwa [hpointer], ?_, hsize.symm⟩, a₃, hr, hsame⟩
  rw [hpointer, hlocate]
  show R.HasString (R.offset + nameOffset) m.1
  apply hname.hasString hfit hnul (Nat.le_refl _) (by omega)
  · intro j hj
    exact ByteArray.byteAt_put?_add h₃ hj
  · rw [hsame _ (by omega) (by omega)]
    exact hnames _ (by omega)

/-- A region that holds what was written has the reservations. -/
theorem hasReservations_of_putReservations (hfit : R.stop ≤ R.buffer.size)
    (hbase : R.base = Builder.linkBase.toNat) {offset nameOffset stop : Nat}
    {rs : List (ByteArray × UInt32)}
    (h : putReservations R.order offset nameOffset area rs = some (r, stop))
    (hnul : ∀ m ∈ rs, m.1.NulFree) (hrecords : offset + 8 * (rs.length + 1) ≤ nameOffset)
    (hlast : ∀ i, offset + 8 * rs.length ≤ i → i < offset + 8 * (rs.length + 1) →
      area.byteAt i = 0)
    (hnames : ∀ i, nameOffset ≤ i → area.byteAt i = 0)
    (hlimit : Builder.linkBase.toNat + stop < 0x100000000) (hcopy : R.Copies r offset stop) :
    R.HasReservations (R.offset + offset) (rs.map fun m => ⟨m.1, m.2⟩) := by
  unfold HasReservations
  -- Induction on the records. The invariant is that the last record and all that comes from the
  -- next name on is still zero.
  induction rs generalizing offset nameOffset area with
  | nil =>
    -- behind the last record there is a null pointer
    cases h
    have hinside := hcopy.inside
    have hRstop : R.stop = R.offset + R.size := rfl
    rw [List.length_nil] at hrecords hlast
    rw [List.map_nil, Records.nil_iff]
    refine ⟨by omega, hcopy.word_eq_zero (Nat.le_refl _) (by omega) fun j hj hj' => ?_⟩
    exact hlast j (by omega) (by omega)
  | cons m rs ih =>
    rw [List.length_cons] at hrecords hlast
    have halign := le_alignUp (nameOffset + m.1.size + 1) (show 0 < 4 by decide)
    obtain ⟨hm, a, hr, hsame⟩ := hasReservation_of_putReservations_cons hfit hbase h
      (hnul m List.mem_cons_self) hrecords hnames hlimit hcopy
    -- what is copied from the next record on is copied of the later writes
    have hcopy' : R.Copies r (offset + 8) stop := by
      have hstop := stop_putReservations hr
      have hrest := le_namesStop (alignUp (nameOffset + m.1.size + 1) 4) rs
      exact hcopy.mono (by omega) (Nat.le_refl _)
    rw [List.map_cons, Records.cons_iff]
    refine ⟨hm, ih hr (fun m' hm' => hnul m' (List.mem_cons_of_mem _ hm')) (by omega)
      (fun i hi hi' => ?_) (fun i hi => ?_) hcopy'⟩
    · rw [hsame i (by omega) (by omega)]
      exact hlast i (by omega) (by omega)
    · rw [hsame i (by omega) (by omega)]
      exact hnames i (by omega)

/-! ## Payloads -/

/-- The payload with the given tag is a device tree or has no known layout. -/
theorem entry_raw_of_fits {tag : UInt32} {bytes : ByteArray} (i : Nat)
    (hfits : (Payload.raw bytes).Fits tag) :
    (5 ≤ tag.toNat ∧ tag.toNat ≤ 14 ∧ 8 ≤ bytes.size ∧
        ((bytes.wordAt 4).value .big).toNat = bytes.size ∧
        (Payload.raw bytes).entry tag i = .deviceTree ⟨.ofNat (tag.toNat - 5), i, bytes⟩) ∨
      (tag = 3 ∨ tag = 4 ∨ tag = 15) ∧
        (Payload.raw bytes).entry tag i = .uninterpreted (.ofRaw tag) i := by
  rcases hfits with ⟨h₅, h₁₄, h₈, hsize⟩ | htag
  · -- a tag of the block of the device trees
    left
    refine ⟨h₅, h₁₄, h₈, hsize, ?_⟩
    unfold Payload.entry
    rw [Tag.ofRaw_eq_deviceTree h₅ h₁₄]
  · -- one of the three tags without a layout
    right
    refine ⟨htag, ?_⟩
    rcases htag with rfl | rfl | rfl <;> rfl

/-- A field that was put among zeros stands there with zeros behind it. -/
theorem Copies.extract_eq_padded (hfit : R.stop ≤ R.buffer.size) {new : ByteArray} {n : Nat}
    (hn : new.size ≤ n) (hput : area.put? i new = some r) (h : R.Copies r i (i + n))
    (hzero : ∀ j, i ≤ j → area.byteAt j = 0) :
    R.buffer.extract (R.offset + i) (R.offset + i + n) = padded n new := by
  have hsize := size_padded hn
  have hfield : ∀ j, j < (padded n new).size → r.byteAt (i + j) = (padded n new).byteAt j := by
    intro j hj
    rw [byteAt_padded]
    -- a byte of the text, or one of the zeros behind it
    by_cases hlt : j < new.size
    · exact ByteArray.byteAt_put?_add hput hlt
    · rw [ByteArray.byteAt_put?_of_not_mem hput (by omega), hzero _ (by omega),
        ByteArray.byteAt_of_le (by omega)]
  have hextract := h.extract_eq hfit (Nat.le_refl _) (by omega) hfield
  rwa [hsize] at hextract

/-- A region that holds what was written has the version record, its fields padded. -/
theorem hasVersion_of_putPayload (hfit : R.stop ≤ R.buffer.size) {offset stop : Nat}
    {x y z : ByteArray} (hx : x.size ≤ 32) (hy : y.size ≤ 32) (hz : z.size ≤ 128)
    (h : putPayload R.order offset area (.version x y z) = some (r, stop))
    (hzero : ∀ i, offset ≤ i → area.byteAt i = 0) (hcopy : R.Copies r offset stop) :
    R.HasVersion (R.offset + offset) ⟨padded 32 x, padded 32 y, padded 128 z⟩ := by
  obtain ⟨a₁, h₁, a₂, h₂, h₃, hstop⟩ := putPayload_version_eq_some.1 h
  have hinside := hcopy.inside
  have hRstop : R.stop = R.offset + R.size := rfl
  -- forwards: each field is still zero when it is written
  have hzero₁ (i : Nat) (hi : offset + 32 ≤ i) : a₁.byteAt i = 0 := by
    rw [ByteArray.byteAt_put?_of_not_mem h₁ (by omega)]
    exact hzero i (by omega)
  have hzero₂ (i : Nat) (hi : offset + 64 ≤ i) : a₂.byteAt i = 0 := by
    rw [ByteArray.byteAt_put?_of_not_mem h₂ (by omega)]
    exact hzero₁ i (by omega)
  -- backwards: it is left alone by the writes behind it
  have hcopy₂ : R.Copies a₂ offset (offset + 64) :=
    (hcopy.mono (Nat.le_refl _) (by omega)).of_unchanged fun i hi hi' =>
      ByteArray.byteAt_put?_of_not_mem h₃ (by omega)
  have hcopy₁ : R.Copies a₁ offset (offset + 32) :=
    (hcopy₂.mono (Nat.le_refl _) (by omega)).of_unchanged fun i hi hi' =>
      ByteArray.byteAt_put?_of_not_mem h₂ (by omega)
  refine ⟨by omega, ?_, ?_, ?_⟩
  · exact (hcopy₁.extract_eq_padded hfit hx h₁ hzero).symm
  · exact ((hcopy₂.mono (by omega) (by omega)).extract_eq_padded hfit hy h₂ hzero₁).symm
  · exact ((hcopy.mono (by omega) (by omega)).extract_eq_padded hfit hz h₃ hzero₂).symm

/-- A region that holds what was written has the bytes of the payload. -/
theorem extract_of_putPayload (hfit : R.stop ≤ R.buffer.size) {offset stop : Nat}
    {bytes : ByteArray} (h : putPayload R.order offset area (.raw bytes) = some (r, stop))
    (hcopy : R.Copies r offset stop) :
    R.buffer.extract (R.offset + offset) (R.offset + offset + bytes.size) = bytes := by
  obtain ⟨hr, hstop⟩ := putPayload_raw_eq_some.1 h
  exact hcopy.extract_eq hfit (Nat.le_refl _) (Nat.le_of_eq hstop.symm) fun j hj =>
    ByteArray.byteAt_put?_add hr hj

/-- A region that holds what was written has the device tree, if the blob tells its own size. -/
theorem hasDeviceTree_of_putPayload (hfit : R.stop ≤ R.buffer.size) {offset stop : Nat}
    {subrev : UInt8} {bytes : ByteArray} (h₈ : 8 ≤ bytes.size)
    (hsize : ((bytes.wordAt 4).value .big).toNat = bytes.size)
    (h : putPayload R.order offset area (.raw bytes) = some (r, stop))
    (hcopy : R.Copies r offset stop) :
    R.HasDeviceTree (R.offset + offset) ⟨subrev, R.offset + offset, bytes⟩ := by
  obtain ⟨hr, hstop⟩ := putPayload_raw_eq_some.1 h
  have hinside := hcopy.inside
  have hRstop : R.stop = R.offset + R.size := rfl
  -- the second word of the blob was written along with it
  have hheader : R.buffer.wordAt (R.offset + offset + 4) = bytes.wordAt 4 := by
    rw [Nat.add_assoc, hcopy.wordAt (by omega) (by omega)]
    apply ByteArray.wordAt_congr
    intro k hk
    rw [Nat.add_assoc]
    exact ByteArray.byteAt_put?_add hr (by omega)
  refine ⟨by omega, rfl, ?_, ?_, ?_⟩
  · rw [hheader]
    exact hsize.symm
  · show R.offset + offset + bytes.size ≤ R.stop
    omega
  · exact (extract_of_putPayload hfit h hcopy).symm

/-- A region that holds what was written has the payload. -/
theorem hasEntry_of_putPayload (hfit : R.stop ≤ R.buffer.size)
    (hbase : R.base = Builder.linkBase.toNat) {offset stop : Nat} {tag : UInt32} {p : Payload}
    (hfits : p.Fits tag) (h : putPayload R.order offset area p = some (r, stop))
    (hzero : ∀ i, offset ≤ i → area.byteAt i = 0)
    (hlimit : Builder.linkBase.toNat + stop < 0x100000000) (hcopy : R.Copies r offset stop) :
    R.HasEntry (R.offset + offset) tag.toNat (p.entry tag (R.offset + offset)) := by
  cases p with
  | reservations rs =>
    obtain ⟨rfl, hnul⟩ := hfits
    -- all is zero from here on, so the records are written in front of a null pointer
    exact ⟨rfl, hasReservations_of_putReservations hfit hbase h hnul (by omega)
      (fun i hi _ => hzero i (by omega)) (fun i hi => hzero i (by omega)) hlimit hcopy⟩
  | version x y z =>
    -- each text fits its field
    obtain ⟨rfl, ⟨-, hx⟩, ⟨-, hy⟩, -, hz⟩ := hfits
    exact ⟨rfl, hasVersion_of_putPayload hfit hx hy hz h hzero hcopy⟩
  | raw bytes =>
    -- bytes are a device tree or have no layout, as the tag says
    rcases entry_raw_of_fits (R.offset + offset) hfits with
      ⟨h₅, h₁₄, h₈, hsize, he⟩ | ⟨htag, he⟩
    · rw [he]
      refine ⟨h₅, h₁₄, ?_, hasDeviceTree_of_putPayload hfit h₈ hsize h hcopy⟩
      exact UInt8.toNat_ofNat_of_lt' (show tag.toNat - 5 < 256 by omega)
    · rw [he]
      refine ⟨?_, rfl⟩
      rcases htag with rfl | rfl | rfl
      · exact .inl ⟨rfl, rfl⟩
      · exact .inr (.inl ⟨rfl, rfl⟩)
      · exact .inr (.inr ⟨rfl, rfl⟩)

/-- The entry of a payload that the region holds gives back what was put in. -/
theorem restores_of_putPayload (hfit : R.stop ≤ R.buffer.size) {offset stop : Nat} {tag : UInt32}
    {p : Payload} (hfits : p.Fits tag)
    (h : putPayload R.order offset area p = some (r, stop)) (hcopy : R.Copies r offset stop) :
    Restores R.buffer (tag, p) (p.entry tag (R.offset + offset)) := by
  cases p with
  | reservations rs =>
    obtain ⟨rfl, -⟩ := hfits
    refine ⟨rfl, ?_⟩
    show List.Forall₂ _ rs (rs.map _)
    -- each reservation is the one that was put in
    rw [List.forall₂_map_right_iff, List.forall₂_same]
    intro m _
    refine ⟨rfl, rfl, fun s hs => ?_⟩
    show m.1.text = s
    rw [← hs, ByteArray.text_toUTF8]
  | version x y z =>
    obtain ⟨rfl, ⟨hx, -⟩, ⟨hy, -⟩, hz, -⟩ := hfits
    exact ⟨rfl, fieldOf_padded 32 hx, fieldOf_padded 32 hy, fieldOf_padded 128 hz⟩
  | raw bytes =>
    -- the bytes are in the image, whatever the tag makes of them
    have hbytes := extract_of_putPayload hfit h hcopy
    rcases entry_raw_of_fits (R.offset + offset) hfits with ⟨h₅, h₁₄, -, -, he⟩ | ⟨-, he⟩
    · rw [he]
      exact ⟨(Tag.ofRaw_eq_deviceTree h₅ h₁₄).symm, rfl, hbytes⟩
    · rw [he]
      exact ⟨rfl, hbytes⟩

/-! ## Entries -/

/-- One entry is written, and then the others. -/
theorem hasSlot_of_putEntries_cons (hfit : R.stop ≤ R.buffer.size)
    (hbase : R.base = Builder.linkBase.toNat) {offset target : Nat} {e : UInt32 × Payload}
    {entries : List (UInt32 × Payload)} (hfits : ∀ x ∈ e :: entries, x.2.Fits x.1)
    (h : putEntries R.order offset target area (e :: entries) = some r)
    (hroom : offset + 8 * (entries.length + 1) ≤ target)
    (hzero : ∀ i, target ≤ i → area.byteAt i = 0)
    (hlimit : Builder.linkBase.toNat + payloadsStop target (e :: entries) < 0x100000000)
    (hstop : payloadsStop target (e :: entries) < R.size)
    (harray : R.Copies r offset (offset + 8 * (entries.length + 1)))
    (hpayloads : R.Copies r target (payloadsStop target (e :: entries))) :
    (R.HasSlot (R.offset + offset) (e.2.entry e.1 (R.offset + target)) ∧
      R.base < R.word (R.offset + offset + 4)) ∧
    Restores R.buffer e (e.2.entry e.1 (R.offset + target)) ∧
    ∃ a, putEntries R.order (offset + 8) (alignUp (e.2.stop target) 16) a entries = some r ∧
      ∀ i, alignUp (e.2.stop target) 16 ≤ i → a.byteAt i = 0 := by
  obtain ⟨a₁, h₁, a₂, h₂, a₃, h₃, hr⟩ := putEntries_cons_eq_some.1 h
  have hfits' : ∀ x ∈ entries, x.2.Fits x.1 := fun x hx => hfits x (List.mem_cons_of_mem _ hx)
  have he : e.2.Fits e.1 := hfits e List.mem_cons_self
  have hle := e.2.le_stop target
  have halign := le_alignUp (e.2.stop target) (show 0 < 16 by decide)
  have hrest := le_payloadsStop (alignUp (e.2.stop target) 16) entries
  have hnext : payloadsStop target (e :: entries) =
      payloadsStop (alignUp (e.2.stop target) 16) entries := rfl
  -- the payloads come after the array
  have hzero₂ (i : Nat) (hi : target ≤ i) : a₂.byteAt i = 0 := by
    rw [byteAt_putPointer h₂ (by omega), byteAt_putU32 h₁ (by omega)]
    exact hzero i hi
  have hpayload : R.Copies a₃ target (e.2.stop target) :=
    (hpayloads.mono (Nat.le_refl _) (by omega)).of_unchanged fun i hi hi' =>
      byteAt_putEntries hfits' hr (by omega) (by omega)
  -- the slot comes before the rest of the array and before all payloads
  have hslot : R.Copies a₂ offset (offset + 8) :=
    (harray.mono (Nat.le_refl _) (by omega)).of_unchanged fun i hi hi' => by
      rw [byteAt_putEntries hfits' hr (by omega) (by omega), byteAt_putPayload he h₃ (by omega)]
  have htag : R.word (R.offset + offset) = e.1.toNat :=
    ((hslot.mono (Nat.le_refl _) (show offset + 4 ≤ offset + 8 by omega)).of_unchanged
      fun i hi hi' => byteAt_putPointer h₂ (by omega)).word_eq (Nat.le_refl _) (Nat.le_refl _)
      (wordAt_putU32 h₁)
  have hpointer : R.word (R.offset + offset + 4) = (pointer target).toNat := by
    rw [Nat.add_assoc]
    exact hslot.word_eq (by omega) (by omega) (wordAt_putPointer h₂)
  obtain ⟨hne, haddr, hlocate⟩ := addresses_pointer hbase (n := target) (by omega) (by omega)
  refine ⟨⟨⟨by rwa [hpointer], by rwa [hpointer], ?_⟩, ?_⟩,
    restores_of_putPayload hfit he h₃ hpayload, a₃, hr, fun i hi => ?_⟩
  · -- the slot holds the entry
    rw [hpointer, hlocate, htag]
    exact hasEntry_of_putPayload hfit hbase he h₃ hzero₂ (by omega) hpayload
  · -- its payload lies behind the start
    rw [hpointer, toNat_pointer (by omega), hbase]
    omega
  · -- and behind the payload all is still zero
    rw [byteAt_putPayload he h₃ (by omega)]
    exact hzero₂ i (by omega)

/-- A region that holds what was written has the entries, each with a payload behind the start of
the area, and they give back what was put in. -/
theorem records_of_putEntries (hfit : R.stop ≤ R.buffer.size)
    (hbase : R.base = Builder.linkBase.toNat) {offset target : Nat}
    {entries : List (UInt32 × Payload)} (hfits : ∀ x ∈ entries, x.2.Fits x.1)
    (h : putEntries R.order offset target area entries = some r)
    (hroom : offset + 8 * entries.length ≤ target)
    (hzero : ∀ i, target ≤ i → area.byteAt i = 0)
    (hlimit : Builder.linkBase.toNat + payloadsStop target entries < 0x100000000)
    (hstop : payloadsStop target entries < R.size)
    (harray : R.Copies r offset (offset + 8 * entries.length))
    (hpayloads : R.Copies r target (payloadsStop target entries)) {Q : Nat → Prop}
    (hlast : Q (R.offset + (offset + 8 * entries.length))) :
    Records (fun i e => R.HasSlot i e ∧ R.base < R.word (i + 4)) Q (R.offset + offset)
        (placed R.offset target entries) ∧
      List.Forall₂ (Restores R.buffer) entries (placed R.offset target entries) := by
  -- Induction on the entries. The invariant is that from the next payload on all is still zero.
  induction entries generalizing offset target area with
  | nil => exact ⟨Records.nil_iff.2 hlast, .nil⟩
  | cons e entries ih =>
    rw [List.length_cons] at hroom harray hlast
    have hle := e.2.le_stop target
    have halign := le_alignUp (e.2.stop target) (show 0 < 16 by decide)
    -- the first entry, and what its writes leave for those behind it
    obtain ⟨hslot, hrestores, a, hr, hzero'⟩ := hasSlot_of_putEntries_cons hfit hbase hfits h
      hroom hzero hlimit hstop harray hpayloads
    -- what is copied for the later entries is a part of what is copied for all
    have harray' : R.Copies r (offset + 8) (offset + 8 + 8 * entries.length) :=
      harray.mono (by omega) (by omega)
    have hlast' : Q (R.offset + (offset + 8 + 8 * entries.length)) := by
      rwa [show offset + 8 + 8 * entries.length = offset + 8 * (entries.length + 1) by omega]
    obtain ⟨hrecords, hall⟩ := ih (fun x hx => hfits x (List.mem_cons_of_mem _ hx)) hr (by omega)
      hzero' hlimit hstop harray' (hpayloads.mono (by omega) (Nat.le_refl _)) hlast'
    exact ⟨Records.cons_iff.2 ⟨hslot, hrecords⟩, .cons hrestores hall⟩

end Region

end ConfigArea
