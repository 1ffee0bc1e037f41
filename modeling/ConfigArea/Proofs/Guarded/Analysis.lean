import ConfigArea.Guarded.Analysis
import ConfigArea.Proofs.Analysis.Agreement
import ConfigArea.Proofs.Guarded.Location
import ConfigArea.Proofs.Guarded.Relocation

/-!
# Nothing stops the analysis

No image, no device tree and no settings stop the analysis, nor do any of them make it go on
forever: neither detection or relocation of any region, nor the search for the area, its dump, the
analysis as a whole, and the summary of a table. The area that a search finds starts inside the
image, so the rest of the image can be taken from there.

## Key results

- `analyze_gives`: the analysis goes through
- `summary_eq`: summaries go through
- `never_stops`: everything goes through, with no more pages examined than there are
-/

namespace ConfigArea.Guarded

/-- The analysis goes through. -/
theorem analyze_gives {image : ByteArray} (h : image.size < 0x8000000000000000)
    (dtb : Option ByteArray) (settings : Settings) :
    Gives (analyze image dtb settings) (ConfigArea.analyze image dtb settings) := by
  rw [analyze, ConfigArea.analyze]
  refine .lift (findAnchor_eq h dtb) ?_
  cases hfind : ConfigArea.findAnchor image dtb with
  | none => exact gives_throw _
  | some anchor =>
    -- the search goes through, since the anchor is inside
    have hanchor := offset_lt_of_findAnchor hfind
    obtain ⟨search, hsearch, hfound, -⟩ :=
      searchPages_eq h settings (Nat.le_of_lt hanchor)
    refine .lift hsearch ?_
    rw [hfound]
    dsimp only
    cases hlocation : ConfigArea.searchPages image anchor settings with
    | none => exact gives_throw _
    | some location =>
      -- so does the rest of the image from the area on, which is found inside
      have harea := (detect_dump_of_findArea (findArea_eq_some_iff.2 ⟨_, hfind, hlocation⟩)).1
      refine .lift (sub_of_le (Nat.le_of_lt harea)) ?_
      exact (relocate_gives _ h _ _).adapt _

/-! ## Summaries -/

/-- The first zero byte of a field is where its text is cut, and its end if there is none. -/
theorem firstZero_getD (field : ByteArray) :
    (firstZero field).getD field.size = field.data.toList.findIdx (· == 0) := by
  have hbyte (i : Nat) (hi : i < field.data.toList.length) :
      field.byteAt i = field.data.toList[i] := ByteArray.byteAt_of_lt hi
  cases hzero : firstZero field with
  | none =>
    -- no byte of the field is zero
    have hmiss := firstIndex_eq_none_iff.1 hzero
    rw [Option.getD_none]
    refine (List.findIdx_eq_length_of_false fun b hb => ?_).symm
    obtain ⟨i, hi, rfl⟩ := List.getElem_of_mem hb
    rw [← hbyte i hi]
    exact hmiss i (Nat.zero_le _) hi
  | some stop =>
    -- the first zero byte in one view is the first in the other
    obtain ⟨-, hstop, hbyteStop, hmin⟩ := firstIndex_eq_some_iff.1 hzero
    rw [Option.getD_some]
    refine ((List.findIdx_eq hstop).2 ⟨?_, fun j hj => ?_⟩).symm
    · rw [← hbyte stop hstop]
      exact hbyteStop
    · rw [← hbyte j _]
      exact hmin j (Nat.zero_le _) hj

/-- The text of a padded field goes through. -/
theorem paddedText_eq (field : ByteArray) : paddedText field = some field.paddedText := by
  have hle : field.data.toList.findIdx (· == 0) ≤ field.size := List.findIdx_le_length
  have hnot : (fun b : UInt8 => !(b != 0)) = (· == 0) := funext fun b => Bool.not_not _
  rw [paddedText, firstZero_getD, slice_of_le (Nat.zero_le _) hle, Option.map_some,
    ByteArray.paddedText, ByteArray.text, List.takeWhile_eq_take_findIdx_not, hnot,
    ByteArray.toList_data_extract, List.drop_zero, Nat.sub_zero]

/-- A sub-revision added to the first ordinal of the device trees is no large number. -/
theorem rawOf_eq (tag : Tag) : rawOf tag = some tag.raw := by
  cases tag with
  | deviceTree subrev =>
    have hsubrev := subrev.toNat_lt
    exact add32_of_lt (by simp; omega)
  | _ => rfl

/-- The summary of a version record goes through. -/
theorem versionSummary_eq (v : Version) : versionSummary v = some v.summary := by
  simp only [versionSummary, paddedText_eq, Option.bind_eq_bind, Option.bind_some]
  rfl

/-- The entries of a table are gone over to their end. -/
theorem collect_eq (t : Table) (trees : List DeviceTreeSummary) (tags : List UInt32) :
    collect t.entries trees tags =
      some (trees ++ t.deviceTrees.map DeviceTree.summary, tags ++ t.uninterpretedTags) := by
  rw [Table.deviceTrees, Table.uninterpretedTags]
  -- Induction on the entries: each adds a device tree, a tag, or nothing to what was collected.
  induction t.entries generalizing trees tags with
  | nil => simp [collect]
  | cons e entries ih => cases e <;> simp [collect, rawOf_eq, ih]

/-- The summary of a table goes through. -/
theorem summary_eq (t : Table) : summary t = some t.summary := by
  have hversion : t.version?.mapM versionSummary = some (t.version?.map (·.summary)) := by
    cases t.version? with
    | none => rfl
    | some v => simp [versionSummary_eq]
  rw [summary, hversion, Option.bind_eq_bind, Option.bind_some, collect_eq t [] []]
  rfl

/-! ## Everything -/

/-- Nothing stops and nothing goes on forever, whatever the region or image, the device tree, the
settings, the part that is relocated, the location that is dumped and the table that is summarised;
and the outcomes are those without guards. The search examines the page of the anchor and at most as
many others as fit in front of it, even if it is to go back further. -/
theorem never_stops (b : ByteArray) (h : b.size < 0x8000000000000000) (dtb : Option ByteArray)
    (settings : Settings) (offset size : UInt64) (location : Location) (table : Table) :
    Gives (detect settings.detection.scanHorizon.toNat b)
        (ConfigArea.detect settings.detection.scanHorizon.toNat b) ∧
      Gives (relocate settings.detection.scanHorizon.toNat b offset.toNat size.toNat)
        (ConfigArea.relocate settings.detection.scanHorizon.toNat b offset.toNat size.toNat) ∧
      findArea b dtb settings = some (ConfigArea.findArea b dtb settings) ∧
      dump b location settings.locator = some (location.dump b settings.locator) ∧
      Gives (analyze b dtb settings) (ConfigArea.analyze b dtb settings) ∧
      summary table = some table.summary ∧
      ∀ anchor, findAnchor b dtb = some (some anchor) →
        ∃ search, searchPages b anchor settings = some search ∧
          search.found = ConfigArea.searchPages b anchor settings ∧
          search.examined.length ≤
            pageOf settings.locator anchor.offset / max settings.locator.areaAlignment.toNat 1 +
              1 := by
  refine ⟨detect_gives _ h, relocate_gives _ h _ _, findArea_eq h dtb settings, dump_eq h _ _,
    analyze_gives h dtb settings, summary_eq table, fun anchor hanchor => ?_⟩
  -- how many pages are examined is told of the anchor that is found
  rw [findAnchor_eq h, Option.some_inj] at hanchor
  exact searchPages_eq h settings (Nat.le_of_lt (offset_lt_of_findAnchor hanchor))

/-- Settings whose numbers are the largest there are, but for the alignment of a word. -/
def settingsWithoutEnd : Settings :=
  { detection := ⟨0xffffffffffffffff⟩, locator := ⟨4, 0xffffffffffffffff, 0xffffffffffffffff⟩ }

/-- The area of this image is found five pages back, of seven that there are. -/
theorem never_stops_imageWithBlob :
    imageWithBlob.size < 0x8000000000000000 ∧
      Gives (relocate 0xffffffffffffffff imageWithBlob 0xffffffffffffffff 0xffffffffffffffff)
        (.error (.regionOutOfBounds 0xffffffffffffffff 0xffffffffffffffff 33)) ∧
      findAnchor imageWithBlob (some ⟨#[0, 0, 0, 0, 0, 0, 0, 8]⟩) =
        some (some ⟨24, .supplied⟩) ∧
      ∃ search, searchPages imageWithBlob ⟨24, .supplied⟩ settingsWithoutEnd = some search ∧
        search.found = some ⟨⟨24, .supplied⟩, 4, .little⟩ ∧ search.examined.length ≤ 7 := by
  have hsize : imageWithBlob.size < 0x8000000000000000 := by decide
  -- the blob is supplied, and its address is the end of the image
  have hanchor : findAnchor imageWithBlob (some ⟨#[0, 0, 0, 0, 0, 0, 0, 8]⟩) =
      some (some ⟨24, .supplied⟩) := findAnchor_eq hsize _
  obtain ⟨-, hrelocate, -, -, -, -, hpages⟩ := never_stops imageWithBlob hsize
    (some ⟨#[0, 0, 0, 0, 0, 0, 0, 8]⟩) settingsWithoutEnd 0xffffffffffffffff 0xffffffffffffffff
    ⟨⟨24, .supplied⟩, 4, .little⟩ ⟨.little, 0, 0, 0, 0, []⟩
  obtain ⟨search, hsearch, hfound, hlength⟩ := hpages _ hanchor
  exact ⟨hsize, hrelocate, hanchor, search, hsearch, hfound, hlength⟩

end ConfigArea.Guarded
