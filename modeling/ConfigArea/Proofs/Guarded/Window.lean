import ConfigArea.Proofs.Guarded.Analysis

/-!
# All windows name the same bytes

The part of an image in which an area lies is computed in four places, each with sums and cuts in an
order of its own: for detection, for the dump, for a part of an image file, and for relocation. This
file shows that in numbers of 64 bits all of them are one part of the image, also where the end of
an area is no such number, and where the location lies behind the image.

## Key results

- `searchFrom_eq_map`: the search makes of its examinations what it finds
- `examinationsFrom_spec`: each examination is one of the page at which it starts, and all but the
  last one reject
- `exists_examinations_of_findArea`: the last region examined in a search that finds an area is its
  dump
- `analyze_eq_adapt`: the analysis of an image relocates the area found in it
- `windows_agree`: dump, part of the file, region of detection and region of relocation are the same
-/

namespace ConfigArea.Guarded

variable {image : ByteArray} {anchor : Anchor} {settings : Settings} {location : Location}

/-! ## Examinations -/

/-- An examination hands to detection what there is of an area at its page. -/
theorem examine_eq_some_iff {start : Nat} {e : Examination} :
    examine image settings start = some e ↔
      e.start = start ∧
        slice image start (min (saturatingAdd start settings.locator.areaSize.toNat) image.size) =
          some e.region ∧
        (detect settings.detection.scanHorizon.toNat e.region).run = some e.verdict := by
  obtain ⟨start', region, verdict⟩ := e
  -- an examination takes the slice and then runs detection on it
  simp only [examine, Option.bind_eq_bind, Option.bind_eq_some_iff, Option.pure_def,
    Option.some.injEq, Examination.mk.injEq]
  constructor
  · intro h
    obtain ⟨_, hregion, _, hverdict, rfl, rfl, rfl⟩ := h
    exact ⟨rfl, hregion, hverdict⟩
  · intro h
    obtain ⟨rfl, hregion, hverdict⟩ := h
    exact ⟨region, hregion, verdict, hverdict, rfl, rfl, rfl⟩

/-- The search makes of its examinations what it finds, and examines nothing else. -/
theorem searchFrom_eq_map (page step back : Nat) :
    searchFrom image anchor settings page step back =
      (examinationsFrom image settings page step back).map (.ofExaminations anchor) := by
  -- the induction is on the numbers that are left to count up to
  induction hleft : limit - back using Nat.strongRecOn generalizing back with
  | ind left ih =>
    -- both take the same steps, and stop at the same ones
    rw [searchFrom, examinationsFrom]
    cases (mul back step).bind (sub page) with
    | none => rfl
    | some start =>
      simp only [examine, Option.bind_eq_bind]
      cases slice image start
          (min (saturatingAdd start settings.locator.areaSize.toNat) image.size) with
      | none => rfl
      | some region =>
        simp only [Option.bind_some]
        cases (detect settings.detection.scanHorizon.toNat region).run with
        | none => rfl
        | some verdict =>
          cases verdict with
          | ok order => rfl
          | error reason =>
            simp only [Option.bind_some, Option.pure_def]
            -- a page that was not the last to be tried is followed by the next one
            split
            · cases advance back 1 with
              | none => rfl
              | some after =>
                obtain ⟨after, hafter, hlt⟩ := after
                simp only [Option.bind_some]
                rw [ih _ (by omega) after rfl]
                cases examinationsFrom image settings page step after <;> rfl
            · rfl

/-- One step of a search: there is no page any more, or a page is examined, and the search ends with
it or goes on to a page further back after it has been rejected. -/
theorem examinationsFrom_cases {page step back : Nat} {es : List Examination}
    (h : examinationsFrom image settings page step back = some es) :
    es = [] ∨ ∃ e, examine image settings e.start = some e ∧
      (es = [e] ∨ e.Rejects ∧ ∃ after rest, back < after ∧ after < limit ∧
        examinationsFrom image settings page step after = some rest ∧ es = e :: rest) := by
  rw [examinationsFrom] at h
  cases hstart : (mul back step).bind (sub page) with
  | none =>
    -- the page would lie before the image
    rw [hstart] at h
    exact .inl (Option.some.inj h).symm
  | some start =>
    simp only [hstart, Option.bind_eq_bind, Option.bind_eq_some_iff] at h
    obtain ⟨e, he, h⟩ := h
    -- the page is examined, and the examination notes where it starts
    obtain ⟨rfl, -⟩ := examine_eq_some_iff.1 he
    refine .inr ⟨e, he, ?_⟩
    cases hverdict : e.verdict with
    | ok order =>
      rw [hverdict] at h
      exact .inl (Option.some.inj h).symm
    | error reason =>
      simp only [hverdict] at h
      split at h
      · -- rejected, with pages left to be tried
        simp only [Option.bind_eq_some_iff] at h
        obtain ⟨⟨after, hafter, hlt⟩, -, rest, hrest, h⟩ := h
        exact .inr ⟨⟨reason, hverdict⟩, after, rest, by omega, hlt, hrest, (Option.some.inj h).symm⟩
      · -- rejected as the last of them
        exact .inl (Option.some.inj h).symm

/-- Each examination is one of the page at which it starts, and where another one follows it has
rejected the page. -/
theorem examinationsFrom_spec {page step back : Nat} {es : List Examination}
    (h : examinationsFrom image settings page step back = some es) :
    (∀ e ∈ es, examine image settings e.start = some e) ∧
      es.Pairwise fun e _ => e.Rejects := by
  -- Induction on the numbers that are left to count up to, one step of the search at a time.
  induction hleft : limit - back using Nat.strongRecOn generalizing back es with
  | ind left ih =>
    rcases examinationsFrom_cases h with rfl | ⟨e, he, rfl | ⟨hrejects, after, rest, hlt, hlimit,
      hrest, rfl⟩⟩
    · exact ⟨nofun, .nil⟩
    · exact ⟨by simpa using he, List.pairwise_singleton _ _⟩
    · obtain ⟨hall, hpairs⟩ := ih _ (by omega) hrest rfl
      exact ⟨List.forall_mem_cons.2 ⟨he, hall⟩, List.pairwise_cons.2 ⟨fun _ _ => hrejects, hpairs⟩⟩

/-- The search over pages makes of its examinations what it finds. -/
theorem searchPages_eq_map :
    searchPages image anchor settings =
      (examinations image anchor settings).map (.ofExaminations anchor) := by
  rw [searchPages, examinations]
  cases alignDown anchor.offset settings.locator.areaAlignment.toNat with
  | none => rfl
  | some page => exact searchFrom_eq_map _ _ _

/-- Each examination of a search is one of its page, and where another one follows it has rejected
it. -/
theorem examinations_spec {es : List Examination}
    (h : examinations image anchor settings = some es) :
    (∀ e ∈ es, examine image settings e.start = some e) ∧
      es.Pairwise fun e _ => e.Rejects := by
  obtain ⟨page, -, hes⟩ := Option.bind_eq_some_iff.1 h
  exact examinationsFrom_spec hes

/-- An examination locates an area at its page if it has accepted it. -/
theorem Examination.location?_eq_some_iff {e : Examination} :
    e.location? anchor = some location ↔
      location.anchor = anchor ∧ location.areaOffset = e.start ∧
        e.verdict = .ok location.byteOrder := by
  obtain ⟨anchor', start', order⟩ := location
  unfold location?
  cases e.verdict with
  | ok order' =>
    simp only [Option.some.injEq, Location.mk.injEq, Except.ok.injEq, eq_comm]
  | error reason => simp only [reduceCtorEq, and_false]

/-- A search that finds an area has accepted the last page that it examined, and no other. -/
theorem exists_examinations_of_searchPages {search : PageSearch}
    (h : searchPages image anchor settings = some search) (hfound : search.found = some location) :
    ∃ rejected region,
      examinations image anchor settings =
        some (rejected ++ [⟨location.areaOffset, region, .ok location.byteOrder⟩]) ∧
      (∀ e ∈ rejected, e.Rejects) ∧
      slice image location.areaOffset (min (saturatingAdd location.areaOffset
        settings.locator.areaSize.toNat) image.size) = some region := by
  rw [searchPages_eq_map] at h
  obtain ⟨es, hes, rfl⟩ := Option.map_eq_some_iff.1 h
  obtain ⟨hall, hpairs⟩ := examinations_spec hes
  -- the one that is accepted splits the examinations in those before it and those after it
  obtain ⟨before, e, after, rfl, he, -⟩ := List.findSome?_eq_some_iff.1 hfound
  obtain ⟨-, hstart, hverdict⟩ := Examination.location?_eq_some_iff.1 he
  obtain ⟨-, hlast, hbefore⟩ := List.pairwise_append.1 hpairs
  -- nothing follows a page that is accepted
  have hafter : after = [] := by
    rw [List.eq_nil_iff_forall_not_mem]
    intro next hnext
    obtain ⟨reason, hreason⟩ := (List.pairwise_cons.1 hlast).1 next hnext
    rw [hverdict] at hreason
    cases hreason
  subst hafter
  obtain ⟨-, hregion, -⟩ := examine_eq_some_iff.1 (hall e (by simp))
  refine ⟨before, e.region, ?_, fun x hx => hbefore x hx e List.mem_cons_self, ?_⟩
  · -- the examinations end with it
    rw [hes, hstart, ← hverdict]
  · -- it has cut its region at its own page
    rw [hstart]
    exact hregion

/-! ## Windows -/

/-- A part of an image file goes through. -/
theorem readAt_eq {image : Image} (h : image.content.size < 0x8000000000000000)
    (offset len : Nat) : readAt image offset len = some (image.readAt offset len) := by
  rw [readAt, Image.readAt]
  split
  · rfl
  · rw [min_saturatingAdd h]
    exact slice_of_le (by omega) (Nat.min_le_right _ _)

/-- The analysis of an image relocates the area found in it, whose size is cut at the end of the
image. -/
theorem analyze_eq_adapt {dtb : Option ByteArray} (h : image.size < 0x8000000000000000)
    (hfind : ConfigArea.findArea image dtb settings = some location) :
    analyze image dtb settings =
      ExceptT.adapt .relocation (relocate settings.detection.scanHorizon.toNat image
        location.areaOffset (location.size image settings.locator)) := by
  obtain ⟨anchor, hanchor, hlocation⟩ := findArea_eq_some_iff.1 hfind
  obtain ⟨search, hsearch, hfound, -⟩ :=
    searchPages_eq h settings (Nat.le_of_lt (offset_lt_of_findAnchor hanchor))
  have hle := Nat.le_of_lt (detect_dump_of_findArea hfind).1
  -- none of the steps stops, so the last one remains
  rw [analyze, findAnchor_eq h, hanchor, lift_some_bind]
  dsimp only
  rw [hsearch, lift_some_bind, hfound, hlocation]
  dsimp only
  rw [sub_of_le hle, lift_some_bind]
  rfl

/-- Where a search finds an area it has started at the anchor of the area, and the last region that
it handed to detection, the only one accepted, is the dump of the area. -/
theorem exists_examinations_of_findArea {dtb : Option ByteArray}
    (h : image.size < 0x8000000000000000)
    (hfind : ConfigArea.findArea image dtb settings = some location) :
    findAnchor image dtb = some (some location.anchor) ∧
      ∃ rejected, (∀ e ∈ rejected, e.Rejects) ∧
        examinations image location.anchor settings =
          some (rejected ++ [⟨location.areaOffset, location.dump image settings.locator,
            .ok location.byteOrder⟩]) := by
  obtain ⟨anchor, hanchor, hlocation⟩ := findArea_eq_some_iff.1 hfind
  obtain rfl : location.anchor = anchor := (searchPages_eq_some_iff.1 hlocation).1
  -- the search goes through, and its examinations end with the page that is accepted
  obtain ⟨search, hsearch, hfound, -⟩ :=
    searchPages_eq h settings (Nat.le_of_lt (offset_lt_of_findAnchor hanchor))
  obtain ⟨rejected, region, hexaminations, hrejected, hregion⟩ :=
    exists_examinations_of_searchPages hsearch (hfound.trans hlocation)
  -- the area starts in the image, so the region is cut as the dump is
  have hle := Nat.le_of_lt (detect_dump_of_findArea hfind).1
  have hdump : region = location.dump image settings.locator := by
    rw [min_saturatingAdd h, slice_of_le (by omega) (Nat.min_le_right _ _), Option.some_inj]
      at hregion
    rw [← hregion, Location.dump, Nat.min_eq_left hle]
  exact ⟨(findAnchor_eq h dtb).trans (congrArg some hanchor), rejected, hrejected,
    hdump ▸ hexaminations⟩

/-- For every location, also one behind the image, and every size of an area, the dump is the part
of the image file of that size at that place, which is what is left of the image there, cut to the
size. Where a search finds the location, the dump is also the last region that it handed to
detection, the only one accepted, and the region that the analysis relocates. -/
theorem windows_agree (image : Image) (h : image.content.size < 0x8000000000000000) :
    (∀ (location : Location) (settings : LocatorSettings), ∃ bytes,
      dump image.content location settings = some bytes ∧
        location.dump image.content settings = bytes ∧
        readAt image location.areaOffset settings.areaSize.toNat = some bytes ∧
        image.readAt location.areaOffset settings.areaSize.toNat = bytes ∧
        bytes.data.toList =
          (image.content.data.toList.drop location.areaOffset).take settings.areaSize.toNat) ∧
      ∀ (dtb : Option ByteArray) (settings : Settings) (location : Location),
        findArea image.content dtb settings = some (some location) →
          ∃ bytes, dump image.content location settings.locator = some bytes ∧
            findAnchor image.content dtb = some (some location.anchor) ∧
            searchPages image.content location.anchor settings =
              (examinations image.content location.anchor settings).map
                (.ofExaminations location.anchor) ∧
            (∃ rejected, (∀ e ∈ rejected, e.Rejects) ∧
              examinations image.content location.anchor settings =
                some (rejected ++ [⟨location.areaOffset, bytes, .ok location.byteOrder⟩])) ∧
            ∃ size stop, analyze image.content dtb settings =
                ExceptT.adapt .relocation (relocate settings.detection.scanHorizon.toNat
                  image.content location.areaOffset size) ∧
              add location.areaOffset size = some stop ∧
              slice image.content location.areaOffset stop = some bytes := by
  refine ⟨fun location settings => ?_, fun dtb settings location hfind => ?_⟩
  · -- any location: the dump, the part of the file, and their bytes
    have hread := Image.readAt_eq_dump image location settings
    exact ⟨_, dump_eq h location settings, rfl, hread ▸ readAt_eq h _ _, hread,
      Location.toList_dump⟩
  · -- a found location, which lies in the image
    rw [findArea_eq h, Option.some_inj] at hfind
    obtain ⟨hanchor, hexaminations⟩ := exists_examinations_of_findArea h hfind
    -- the area starts inside, so the region that the analysis cuts out ends inside
    have hle := Nat.le_of_lt (detect_dump_of_findArea hfind).1
    have hend := @Location.areaOffset_add_size_le image.content location settings.locator hle
    refine ⟨_, dump_eq h location settings.locator, hanchor, searchPages_eq_map, hexaminations,
      _, _, analyze_eq_adapt h hfind, add_of_lt (by omega), ?_⟩
    rw [slice_of_le (Nat.le_add_right _ _) hend, Location.dump_eq_extract hle]

/-- The end of an area of this size is no number of 64 bits. The search accepts all of the image
from a page on, and a location behind the image has no bytes. -/
theorem windows_agree_imageWithBlob :
    imageWithBlob.size < 0x8000000000000000 ∧
      findArea imageWithBlob (some ⟨#[0, 0, 0, 0, 0, 0, 0, 8]⟩) settingsWithoutEnd =
        some (some ⟨⟨24, .supplied⟩, 4, .little⟩) ∧
      (∃ rejected region, examinations imageWithBlob ⟨24, .supplied⟩ settingsWithoutEnd =
          some (rejected ++ [⟨4, region, .ok .little⟩]) ∧
        region.data.toList = imageWithBlob.data.toList.drop 4) ∧
      ∃ bytes, readAt ⟨imageWithBlob⟩ 34 0xffffffffffffffff = some bytes ∧
        bytes.data.toList = [] := by
  have hsize : imageWithBlob.size < 0x8000000000000000 := by decide
  have hfind : findArea imageWithBlob (some ⟨#[0, 0, 0, 0, 0, 0, 0, 8]⟩) settingsWithoutEnd =
      some (some ⟨⟨24, .supplied⟩, 4, .little⟩) := findArea_eq hsize _ _
  obtain ⟨hwindow, hfound⟩ := windows_agree ⟨imageWithBlob⟩ hsize
  -- the area that is found, the same location given by hand, and one behind the image
  obtain ⟨region, hregion, -, -, ⟨rejected, -, hexaminations⟩, -⟩ := hfound _ _ _ hfind
  obtain ⟨bytes, hdump, -, -, -, hbytes⟩ :=
    hwindow ⟨⟨24, .supplied⟩, 4, .little⟩ settingsWithoutEnd.locator
  obtain ⟨stale, -, -, hstale, -, hempty⟩ :=
    hwindow ⟨⟨24, .supplied⟩, 34, .little⟩ settingsWithoutEnd.locator
  obtain rfl : region = bytes := Option.some.inj (hregion.symm.trans hdump)
  exact ⟨hsize, hfind, ⟨rejected, region, hexaminations, hbytes⟩, stale, hstale, hempty⟩

end ConfigArea.Guarded
