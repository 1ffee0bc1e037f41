import ConfigArea.Proofs.Sample.Contents
import ConfigArea.Proofs.Sample.Detection
import ConfigArea.Settings

/-!
# Building and relocating

An area that is built, put anywhere into an image and relocated gives back what was put in.

## Key results

- `Region.relocate_of_build?`: a region that holds a copy of a built area is relocated
- `relocate_embed_build`: relocation of a built area gives the table of its entries
-/

namespace ConfigArea

namespace Builder

/-- The offset after the last payload. -/
def stop (b : Builder) : Nat :=
  payloadsStop b.firstPayloadOffset b.entries

/-- The area can be built and recognised: its terminator has a tag that is known, each payload fits
its tag, the array ends where detection may still see it, and there is more room than the payloads
take, in the addresses too. -/
structure WellFormed (b : Builder) : Prop where
  terminator_pos : 1 ≤ b.terminatorTag.toNat
  terminator_le : b.terminatorTag.toNat ≤ 16
  fits : ∀ e ∈ b.entries, e.2.Fits e.1
  seen : 16 + 8 * (b.entries.length + 1) ≤ 16384
  room : b.stop < b.size
  limit : b.size ≤ 0x100000000 - linkBase.toNat

/-- The table of the area, in a region of `size` bytes that starts at `offset`. -/
def table (b : Builder) (offset size : Nat) : Table :=
  ⟨b.order, linkBase, offset, size, offset + 16, placed offset b.firstPayloadOffset b.entries⟩

variable {b : Builder} {area : ByteArray}

/-- The array ends behind the terminator. -/
theorem tableEnd_eq (b : Builder) : b.tableEnd = 16 + 8 * (b.entries.length + 1) := by
  unfold tableEnd entriesOffset
  omega

/-- The payloads start at or behind the end of the array. -/
theorem le_firstPayloadOffset (b : Builder) :
    16 + 8 * (b.entries.length + 1) ≤ b.firstPayloadOffset := by
  rw [← tableEnd_eq]
  exact le_alignUp _ (by decide)

/-- The array, the payloads and the end of the area follow one another, and all of them have
addresses. -/
theorem WellFormed.bounds (hb : b.WellFormed) :
    16 + 8 * (b.entries.length + 1) ≤ b.firstPayloadOffset ∧
      b.firstPayloadOffset ≤ payloadsStop b.firstPayloadOffset b.entries ∧
      payloadsStop b.firstPayloadOffset b.entries < b.size ∧
      linkBase.toNat + b.size ≤ 0x100000000 := by
  have hlimit := hb.limit
  have hlink : linkBase.toNat = 0x80432000 := rfl
  exact ⟨le_firstPayloadOffset b, le_payloadsStop _ _, hb.room, by omega⟩

/-- Building writes the table pointer, the entries and the tag of the terminator, in that order. -/
theorem build?_eq_some_iff :
    b.build? = some area ↔
      ∃ a₁, putPointer b.order (.replicate b.size 0) 0 16 = some a₁ ∧
        ∃ a₂, putEntries b.order 16 b.firstPayloadOffset a₁ b.entries = some a₂ ∧
          putU32 b.order a₂ (16 + 8 * b.entries.length) b.terminatorTag = some area := by
  have hlast : b.tableEnd - 8 = 16 + 8 * b.entries.length := by
    rw [tableEnd_eq]
    omega
  simp only [build?, Option.bind_eq_bind, Option.bind_eq_some_iff, hlast]

/-- An area that can be built is built. -/
theorem exists_build? (hb : b.WellFormed) : ∃ area, b.build? = some area := by
  obtain ⟨hfirst, hle, hstop, hlimit⟩ := hb.bounds
  have hsize : (ByteArray.replicate b.size 0).size = b.size := ByteArray.size_replicate ..
  -- each write fits, since the last payload ends inside the area
  obtain ⟨a₁, h₁⟩ : ∃ a₁, putPointer b.order (.replicate b.size 0) 0 16 = some a₁ :=
    exists_putPointer (by decide) (by omega)
  have hsize₁ := size_putPointer h₁
  obtain ⟨a₂, h₂⟩ : ∃ a₂, putEntries b.order 16 b.firstPayloadOffset a₁ b.entries = some a₂ :=
    exists_putEntries hb.fits (by omega) (by omega) (by omega)
  have hsize₂ := size_putEntries h₂
  obtain ⟨area, h₃⟩ : ∃ area,
      putU32 b.order a₂ (16 + 8 * b.entries.length) b.terminatorTag = some area :=
    exists_putU32 (by omega)
  exact ⟨area, build?_eq_some_iff.2 ⟨a₁, h₁, a₂, h₂, h₃⟩⟩

end Builder

namespace Region

open Builder

variable {R : Region} {b : Builder} {area : ByteArray}

/-- What a region that holds a copy of a built area starts with. -/
theorem head_of_build? (horder : R.order = b.order) (h : b.build? = some area)
    (hfits : ∀ e ∈ b.entries, e.2.Fits e.1) (hcopy : R.Copies area 0 16) :
    (R.buffer.wordAt R.offset).value R.order = pointer 16 ∧
      ∀ i, 4 ≤ i → i < 16 → R.buffer.byteAt (R.offset + i) = 0 := by
  obtain ⟨a₁, h₁, a₂, h₂, h₃⟩ := build?_eq_some_iff.1 h
  have hfirst := le_firstPayloadOffset b
  -- neither the entries nor the terminator are written there
  have hcopy : R.Copies a₁ 0 16 := hcopy.of_unchanged fun i hi hi' => by
    rw [byteAt_putU32 h₃ (by omega), byteAt_putEntries hfits h₂ (by omega) (by omega)]
  -- the pointer was written first, into zeros
  constructor
  · have hword : R.buffer.wordAt R.offset = a₁.wordAt 0 :=
      hcopy.wordAt (Nat.le_refl _) (by decide)
    rw [hword, wordAt_putPointer h₁, horder, Word.value_encode]
  · intro i hi hi'
    rw [hcopy.byte i (by omega) hi', byteAt_putPointer h₁ (by omega), ByteArray.byteAt_zeros]

/-- A region that holds a copy of a built area has its entries and its terminator. -/
theorem records_of_build? (hb : b.WellFormed) (horder : R.order = b.order)
    (h : b.build? = some area) (hfit : R.stop ≤ R.buffer.size)
    (hbase : R.base = Builder.linkBase.toNat) (hcopy : R.Copies area 0 b.size) :
    Records (fun i e => R.HasSlot i e ∧ R.base < R.word (i + 4))
        (fun j => (1 ≤ R.word j ∧ R.word j ≤ 16) ∧ R.word (j + 4) = 0) (R.offset + 16)
        (placed R.offset b.firstPayloadOffset b.entries) ∧
      List.Forall₂ (Restores R.buffer) b.entries
        (placed R.offset b.firstPayloadOffset b.entries) := by
  obtain ⟨a₁, h₁, a₂, h₂, h₃⟩ := build?_eq_some_iff.1 h
  obtain ⟨hfirst, hle, hstop, hlimit⟩ := hb.bounds
  have hinside := hcopy.inside
  rw [← horder] at h₂ h₃
  -- the terminator is written last, between the entries and the payloads
  have harray : R.Copies a₂ 16 (16 + 8 * b.entries.length) :=
    (hcopy.mono (by omega) (by omega)).of_unchanged fun i hi hi' => byteAt_putU32 h₃ (by omega)
  have hpayloads : R.Copies a₂ b.firstPayloadOffset
      (payloadsStop b.firstPayloadOffset b.entries) :=
    (hcopy.mono (by omega) (by omega)).of_unchanged fun i hi hi' => byteAt_putU32 h₃ (by omega)
  have hterminator : R.word (R.offset + (16 + 8 * b.entries.length)) = b.terminatorTag.toNat :=
    hcopy.word_eq (Nat.zero_le _) (by omega) (wordAt_putU32 h₃)
  -- nothing was written to the payload of the terminator
  have hnull : R.word (R.offset + (16 + 8 * b.entries.length) + 4) = 0 := by
    rw [Nat.add_assoc]
    apply hcopy.word_eq_zero (Nat.zero_le _) (by omega)
    intro j hj hj'
    rw [byteAt_putU32 h₃ (by omega), byteAt_putEntries hb.fits h₂ (by omega) (by omega),
      byteAt_putPointer h₁ (by omega), ByteArray.byteAt_zeros]
  -- the entries were written over zeros, and the terminator ends them
  refine records_of_putEntries hfit hbase hb.fits h₂ (by omega) (fun i hi => ?_) (by omega)
    (by omega) harray hpayloads ⟨?_, hnull⟩
  · rw [byteAt_putPointer h₁ (by omega), ByteArray.byteAt_zeros]
  · rw [hterminator]
    exact ⟨hb.terminator_pos, hb.terminator_le⟩

/-- A region that holds a copy of a built area is relocated to the table of its entries. -/
theorem relocate_of_build? {horizon : Nat} (hb : b.WellFormed) (horder : R.order = b.order)
    (h : b.build? = some area) (hfit : R.stop ≤ R.buffer.size)
    (hsize : R.buffer.size ≤ lastOffset) (hhorizon : 16384 ≤ horizon)
    (hcopy : R.Copies area 0 b.size) :
    relocate horizon R.buffer R.offset R.size = .ok (b.table R.offset R.size) ∧
      List.Forall₂ (Restores R.buffer) b.entries (b.table R.offset R.size).entries := by
  obtain ⟨hfirst, hle, hstop, -⟩ := hb.bounds
  have hinside := hcopy.inside
  have hseen := hb.seen
  -- what the region starts with, from which the base follows
  obtain ⟨hhead, hgap⟩ := head_of_build? horder h hb.fits
    (hcopy.mono (Nat.le_refl _) (by omega))
  have hword : R.word R.offset = Builder.linkBase.toNat + 16 := by
    unfold word
    rw [hhead]
    rfl
  have hbase : R.base = Builder.linkBase.toNat := by
    unfold base
    rw [hword]
    rfl
  -- the entries are in the region, as many as were put in
  obtain ⟨hrecords, hrestores⟩ := records_of_build? hb horder h hfit hbase hcopy
  have hlength : (placed R.offset b.firstPayloadOffset b.entries).length = b.entries.length :=
    hrestores.length_eq.symm
  -- so detection accepts it
  have hdetect : detect horizon (R.buffer.extract R.offset R.stop) = .ok R.order :=
    detect_of_records hfit (by omega) (by omega) hhead hgap hbase hrecords
  -- and its table is the one that relocation gives
  have htable : R.HasTable (b.table R.offset R.size) :=
    { byteOrder := horder.symm
      linkBase := hbase.symm
      localBase := rfl
      regionSize := rfl
      entriesOffset := by
        unfold locate
        rw [hword, hbase, Nat.add_sub_cancel_left]
        rfl
      entries :=
        ⟨fun k hk => (hrecords.record k hk).1, .inl hrecords.last.2⟩ }
  exact ⟨(relocate_eq_ok_iff hsize).2 ⟨hfit, R.order, hdetect, htable⟩, hrestores⟩

end Region

/-- An area that is built and embedded into an image anywhere is relocated, in any region around it
that the image has room for, to the table of its entries, which give back what was put in. -/
theorem relocate_embed_build {b : Builder} (hb : b.WellFormed) :
    ∃ area, b.build? = some area ∧ ∀ len offset size, offset + b.size ≤ len → b.size ≤ size →
      size ≤ len - offset → len ≤ lastOffset →
      ∃ image, embed? area offset len = some image ∧
        relocate ({} : DetectionSettings).scanHorizon.toNat image offset size =
          .ok (b.table offset size) ∧
        List.Forall₂ (Restores image) b.entries (b.table offset size).entries := by
  obtain ⟨area, harea⟩ := Builder.exists_build? hb
  refine ⟨area, harea, fun len offset size hfit hle hroom hlen => ?_⟩
  -- the image holds the area, and the area lies inside the region
  have hsize := Builder.size_build? harea
  have hfiller : (ByteArray.replicate len filler).size = len := ByteArray.size_replicate ..
  obtain ⟨image, himage⟩ : ∃ image, embed? area offset len = some image :=
    ByteArray.exists_put? (by omega)
  have himageSize : image.size = len := (ByteArray.size_put? himage).trans hfiller
  have hcopy : Region.Copies ⟨image, b.order, offset, size⟩ area 0 b.size :=
    ⟨hle, fun i _ hi => ByteArray.byteAt_put?_add himage (by omega)⟩
  have hstop : offset + size ≤ image.size := by omega
  exact ⟨image, himage, Region.relocate_of_build? (R := ⟨image, b.order, offset, size⟩) hb rfl
    harea hstop (by rw [himageSize]; exact hlen) (by decide) hcopy⟩

/-- Two reservations, one without a name, a version record, a device tree blob and an empty payload
without a known layout. -/
def fourEntries : Builder where
  order := .big
  size := 321
  terminatorTag := 3
  entries := [
    (1, .reservations [(⟨#[0x69, 0x73, 0x64, 0x6e]⟩, 0x100), (.empty, 0xffffffff)]),
    (2, .version ⟨#[0x31]⟩ .empty ⟨#[0x72, 0x32]⟩),
    (14, .raw ⟨#[0xd0, 0x0d, 0, 0, 0, 0, 0, 9, 1]⟩),
    (15, .raw .empty)]

/-- An area with payloads of all kinds is built, embedded at an odd offset, and relocated. -/
theorem relocate_embed_fourEntries :
    fourEntries.WellFormed ∧ ∃ area image, fourEntries.build? = some area ∧
      embed? area 3 400 = some image ∧
      relocate 16384 image 3 397 = .ok (fourEntries.table 3 397) := by
  have hb : fourEntries.WellFormed :=
    ⟨by decide, by decide, by decide, by decide, by decide, by decide⟩
  obtain ⟨area, harea, h⟩ := relocate_embed_build hb
  obtain ⟨image, himage, hrelocate, -⟩ :=
    h 400 3 397 (by decide) (by decide) (by decide) (by decide)
  exact ⟨hb, area, image, harea, himage, hrelocate⟩

end ConfigArea
