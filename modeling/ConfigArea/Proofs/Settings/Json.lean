import ConfigArea.Proofs.Json.Object
import ConfigArea.Settings.Json

/-!
# Settings in JSON override their defaults

A text names some settings in sections, in any order, with blanks wherever they may stand and among
members that no one knows. The settings that it names get the values it gives and the others keep
their defaults.

## Key results

- `IsSettingsText`: the texts that give certain values
- `DetectionSettings.reads_section`, `LocatorSettings.reads_section`, `FileSettings.reads_section`:
  a section is read as the settings it names
- `Settings.ofJson_of_isSettingsText`: a text is read as the settings it names
-/

namespace ConfigArea

open Json

/-! ## What a text gives -/

/-- The values that a section gives, by the names of the settings. -/
abbrev SectionValues := List (String × UInt64)

/-- The sections that a text gives, by their names. -/
abbrev SettingsValues := List (String × SectionValues)

/-- The names of the settings in a section. -/
def settingNames : (sectionName : String) → List String
  | "detection" => ["scan_horizon"]
  | "locator" => ["area_alignment", "area_size", "max_pages_back"]
  | "io" => ["max_file_size"]
  | _ => []

/-- A section that gives each of its settings once at most. Its values are natural numbers of 64
bits. -/
def IsSection (names : List String) (s : List Char) (values : SectionValues) : Prop :=
  IsObject names (fun _ s n => s = Nat.toDigits 10 n.toNat) values s ∧ (values.map (·.1)).Nodup

/-- A text that gives each section once at most. -/
def IsSettingsText (text : String) (sections : SettingsValues) : Prop :=
  ∃ ws s ws', text.toList = ws ++ (s ++ ws') ∧ Blank ws ∧ Blank ws' ∧
    IsObject ["detection", "locator", "io"] (fun name => IsSection (settingNames name)) sections s ∧
    (sections.map (·.1)).Nodup

/-- The value that is given for a setting, if there is one. -/
def setting? (sections : SettingsValues) (sectionName name : String) : Option UInt64 := do
  (← sections.lookup sectionName).lookup name

/-! ## Sections -/

section Sections

variable {α : Type} {s : List Char} {values : SectionValues}
  {changes : List (String × (UInt64 → α → α))}

/-- The setting of a name is found among the fields as it is among their changes. -/
theorem find?_optional {name : String} (h : name ∈ changes.map (·.1)) :
    (changes.map fun change => Field.optional change.1 readUInt64 change.2).find? (·.name == name) =
      some (.optional name readUInt64 (Record.changeOf changes name)) := by
  induction changes with
  | nil => cases h
  | cons change changes ih =>
    rw [Record.changeOf, List.lookup_cons, List.map_cons]
    -- The name is that of the first change, or it is looked for among the others.
    by_cases hname : change.1 = name
    · subst hname
      rw [List.find?_cons_of_pos (by simp [Field.optional]), beq_self_eq_true]
      rfl
    · have hmem : name ∈ changes.map (·.1) := by simpa [Ne.symm hname] using h
      rw [List.find?_cons_of_neg (by simpa [Field.optional] using hname), ih hmem,
        beq_false_of_ne (Ne.symm hname)]
      rfl

/-- A section is read by applying the changes that it names. -/
theorem reads_isSection (r : Record α) (changes : List (String × (UInt64 → α → α)))
    (hfields : r.fields = changes.map fun change => .optional change.1 readUInt64 change.2)
    (h : IsSection (changes.map (·.1)) s values) :
    r.reader.Reads s (Record.applyAll (Record.changeOf changes) values r.blank) := by
  obtain ⟨hobject, hnodup⟩ := h
  have hnames : r.fields.map (·.name) = changes.map (·.1) := by
    rw [hfields, List.map_map]
    rfl
  -- a value is a number, and the setting of its name takes it
  have hreads : Record.Understands r.fields (fun _ s n => s = Nat.toDigits 10 n.toNat)
      (Record.changeOf changes) := by
    rintro name _ n hname rfl
    rw [hnames] at hname
    exact ⟨_, hfields ▸ find?_optional hname, Record.reads_optional (readUInt64_reads n)⟩
  refine Record.reads_of_isObject hreads (hnames ▸ hobject) hnodup fun f hf hrequired => ?_
  -- no setting has to be there
  obtain ⟨change, -, rfl⟩ := List.mem_map.1 (hfields ▸ hf)
  cases hrequired

end Sections

namespace DetectionSettings

/-- The section that certain values give. -/
def ofValues (values : SectionValues) : DetectionSettings where
  scanHorizon := (values.lookup "scan_horizon").getD 16384

/-- The changes of the settings, by their names. -/
def changes : List (String × (UInt64 → DetectionSettings → DetectionSettings)) :=
  [("scan_horizon", fun n s => { s with scanHorizon := n })]

/-- A section for detection is read as the settings that it names. -/
theorem reads_section {s : List Char} {values : SectionValues}
    (h : IsSection (settingNames "detection") s values) :
    record.reader.Reads s (ofValues values) := by
  have hread := reads_isSection record changes rfl h
  have hhorizon := Record.get_applyAll_changeOf changes "scan_horizon" scanHorizon id
    rfl (fun _ _ => rfl) (by simp [changes]) h.2 record.blank
  rw [Option.map_id] at hhorizon
  have hvalue : Record.applyAll (Record.changeOf changes) values record.blank = ofValues values :=
    congrArg mk hhorizon
  rwa [hvalue] at hread

/-- The settings for detection are read back from their printed form. -/
theorem reads_print (s : DetectionSettings) (layout : Layout) :
    record.reader.Reads (s.print layout) s := by
  have hfields : Record.PrintsFields record.fields
      [("scan_horizon", printNat s.scanHorizon.toNat)] _ :=
    .optional (fun _ => readUInt64_reads s.scanHorizon) .nil
  exact Record.reads_printObject hfields (by decide) layout

end DetectionSettings

namespace LocatorSettings

/-- The section that certain values give. -/
def ofValues (values : SectionValues) : LocatorSettings where
  areaAlignment := (values.lookup "area_alignment").getD 4096
  areaSize := (values.lookup "area_size").getD 65536
  maxPagesBack := (values.lookup "max_pages_back").getD 3

/-- The changes of the settings, by their names. -/
def changes : List (String × (UInt64 → LocatorSettings → LocatorSettings)) := [
  ("area_alignment", fun n s => { s with areaAlignment := n }),
  ("area_size", fun n s => { s with areaSize := n }),
  ("max_pages_back", fun n s => { s with maxPagesBack := n })]

/-- A section for the locator is read as the settings that it names. -/
theorem reads_section {s : List Char} {values : SectionValues}
    (h : IsSection (settingNames "locator") s values) :
    record.reader.Reads s (ofValues values) := by
  have hread := reads_isSection record changes rfl h
  have halignment := Record.get_applyAll_changeOf changes "area_alignment" areaAlignment id
    rfl (fun _ _ => rfl) (by simp [changes]) h.2 record.blank
  have hsize := Record.get_applyAll_changeOf changes "area_size" areaSize id
    rfl (fun _ _ => rfl) (by simp [changes]) h.2 record.blank
  have hpages := Record.get_applyAll_changeOf changes "max_pages_back" maxPagesBack id
    rfl (fun _ _ => rfl) (by simp [changes]) h.2 record.blank
  rw [Option.map_id] at halignment hsize hpages
  -- the three settings are all there is of what has been read
  generalize Record.applyAll (Record.changeOf changes) values record.blank = read at *
  obtain ⟨alignment, size, pages⟩ := read
  subst halignment hsize hpages
  exact hread

/-- The settings for the locator are read back from their printed form. -/
theorem reads_print (s : LocatorSettings) (layout : Layout) :
    record.reader.Reads (s.print layout) s := by
  have hfields : Record.PrintsFields record.fields [
      ("area_alignment", printNat s.areaAlignment.toNat), ("area_size", printNat s.areaSize.toNat),
      ("max_pages_back", printNat s.maxPagesBack.toNat)] _ :=
    .optional (fun _ => readUInt64_reads s.areaAlignment) <|
    .optional (fun _ => readUInt64_reads s.areaSize) <|
    .optional (fun _ => readUInt64_reads s.maxPagesBack) .nil
  exact Record.reads_printObject hfields (by decide) layout

end LocatorSettings

namespace FileSettings

/-- The section that certain values give. -/
def ofValues (values : SectionValues) : FileSettings where
  maxFileSize := (values.lookup "max_file_size").getD 67108864

/-- The changes of the settings, by their names. -/
def changes : List (String × (UInt64 → FileSettings → FileSettings)) :=
  [("max_file_size", fun n s => { s with maxFileSize := n })]

/-- A section for files is read as the settings that it names. -/
theorem reads_section {s : List Char} {values : SectionValues}
    (h : IsSection (settingNames "io") s values) : record.reader.Reads s (ofValues values) := by
  have hread := reads_isSection record changes rfl h
  have hsize := Record.get_applyAll_changeOf changes "max_file_size" maxFileSize id
    rfl (fun _ _ => rfl) (by simp [changes]) h.2 record.blank
  rw [Option.map_id] at hsize
  have hvalue : Record.applyAll (Record.changeOf changes) values record.blank = ofValues values :=
    congrArg mk hsize
  rwa [hvalue] at hread

/-- The settings for files are read back from their printed form. -/
theorem reads_print (s : FileSettings) (layout : Layout) :
    record.reader.Reads (s.print layout) s := by
  have hfields : Record.PrintsFields record.fields
      [("max_file_size", printNat s.maxFileSize.toNat)] _ :=
    .optional (fun _ => readUInt64_reads s.maxFileSize) .nil
  exact Record.reads_printObject hfields (by decide) layout

end FileSettings

/-! ## All settings -/

namespace Settings

/-- The changes of the sections, by their names. -/
def changes : List (String × (SectionValues → Settings → Settings)) := [
  ("detection", fun values s => { s with detection := .ofValues values }),
  ("locator", fun values s => { s with locator := .ofValues values }),
  ("io", fun values s => { s with file := .ofValues values })]

/-- Each section is understood by the field of its name. -/
theorem understands_sections : Record.Understands record.fields
    (fun name => IsSection (settingNames name)) (Record.changeOf changes) := by
  intro name s values hname h
  have hname : name = "detection" ∨ name = "locator" ∨ name = "io" := by
    simpa [record, Field.optional] using hname
  rcases hname with rfl | rfl | rfl
  · exact ⟨_, rfl, Record.reads_optional (DetectionSettings.reads_section h)⟩
  · exact ⟨_, rfl, Record.reads_optional (LocatorSettings.reads_section h)⟩
  · exact ⟨_, rfl, Record.reads_optional (FileSettings.reads_section h)⟩

/-- The settings that certain values give: each has its own, or else its default. -/
def ofValues (sections : SettingsValues) : Settings where
  detection := { scanHorizon := (setting? sections "detection" "scan_horizon").getD 16384 }
  locator := {
    areaAlignment := (setting? sections "locator" "area_alignment").getD 4096
    areaSize := (setting? sections "locator" "area_size").getD 65536
    maxPagesBack := (setting? sections "locator" "max_pages_back").getD 3 }
  file := { maxFileSize := (setting? sections "io" "max_file_size").getD 67108864 }

/-- A text is read as the settings that it names, with the defaults of the others. -/
theorem ofJson_of_isSettingsText {text : String} {sections : SettingsValues}
    (h : IsSettingsText text sections) : ofJson text = .ok (ofValues sections) := by
  obtain ⟨ws, s, ws', htext, hws, hws', hobject, hnodup⟩ := h
  have hread := Record.reads_of_isObject understands_sections hobject hnodup
    (by simp [record, Field.optional])
  -- each section is the one that its entry gives, or else has the defaults of its settings
  have hdetection := Record.get_applyAll_changeOf changes "detection" detection
    DetectionSettings.ofValues rfl (fun _ _ => rfl) (by simp [changes]) hnodup record.blank
  have hlocator := Record.get_applyAll_changeOf changes "locator" locator LocatorSettings.ofValues
    rfl (fun _ _ => rfl) (by simp [changes]) hnodup record.blank
  have hfile := Record.get_applyAll_changeOf changes "io" file FileSettings.ofValues
    rfl (fun _ _ => rfl) (by simp [changes]) hnodup record.blank
  have hvalue : Record.applyAll (Record.changeOf changes) sections record.blank =
      ofValues sections := by
    generalize Record.applyAll (Record.changeOf changes) sections record.blank = read at *
    obtain ⟨detection, locator, file⟩ := read
    simp only [ofValues, setting?, mk.injEq]
    -- a setting is given if its section is and names it
    refine ⟨hdetection.trans ?_, hlocator.trans ?_, hfile.trans ?_⟩
    · cases sections.lookup "detection" <;> rfl
    · cases sections.lookup "locator" <;> rfl
    · cases sections.lookup "io" <;> rfl
  have hdocument := readDocument_of_reads (hvalue ▸ hread) hws hws'
  rwa [← htext, String.ofList_toList] at hdocument

/-- Settings are read back from their printed form. -/
theorem reads_print (s : Settings) (layout : Layout) : record.reader.Reads (s.print layout) s := by
  have hfields : Record.PrintsFields record.fields [("detection", s.detection.print),
      ("locator", s.locator.print), ("io", s.file.print)] _ :=
    .optional s.detection.reads_print <|
    .optional s.locator.reads_print <|
    .optional s.file.reads_print .nil
  exact Record.reads_printObject hfields (by decide) layout

/-- A text overrides the settings that it names, and no others: whatever the order of its sections
and settings, the blanks between them and the members among them that no one knows, it is read as
the settings with the values it gives and the defaults elsewhere. In particular settings are read
back from what is printed for them. -/
theorem ofJson_overrides :
    (∀ text sections, IsSettingsText text sections → ofJson text = .ok (ofValues sections)) ∧
    ∀ s : Settings, ofJson s.toJson = .ok s ∧ ofJson (Printer.indented s.print) = .ok s := by
  have hprint (s : Settings) (layout : Layout) : ofJson (.ofList (s.print layout)) = .ok s :=
    readDocument_ofList (reads_print s layout)
  exact ⟨fun text sections h => ofJson_of_isSettingsText h, fun s => ⟨hprint s _, hprint s _⟩⟩

set_option maxRecDepth 2000 in
/-- The sections in another order, the largest number, and members that no one knows. -/
theorem ofJson_overrides_largest :
    ofJson ("\n\x7b\"note\":[null,\x7b\"a\":\"\\u00e9\"\x7d],\"locator\":\x7b\"max_pages_back\": " ++
      "18446744073709551615,\"why\":-1e5\x7d , \"detection\":\x7b\"scan_horizon\":0\x7d\x7d") =
    .ok { detection := { scanHorizon := 0 }
          locator := { maxPagesBack := 18446744073709551615 } } := by
  have hblank : Blank [' '] := by simp [Blank, isBlank]
  have hone : IsDigits ['1'] := Numeral.isDigits_toDigits 1
  have hfive : IsDigits ['5'] := Numeral.isDigits_toDigits 5
  -- the members that no one knows, from the inside out
  have hobject : IsJson .value "\x7b\"a\":\"\\u00e9\"\x7d".toList :=
    .object (.member blank_nil (.plain (by decide) (by decide) (by decide) .nil) blank_nil blank_nil
      (.text (.unit rfl .nil)) blank_nil)
  have hnote : IsJson .value "[null,\x7b\"a\":\"\\u00e9\"\x7d]".toList :=
    .list (.items blank_nil .null blank_nil (.item blank_nil hobject blank_nil))
  have hwhy : IsJson .value ['-', '1', 'e', '5'] :=
    .numeral (.mk (.inr rfl) ⟨hone, by simp⟩ .absent (.power (.inl rfl) (.inl rfl) hfive))
  -- the two sections
  have hlocator : IsSection (settingNames "locator")
      "\x7b\"max_pages_back\": 18446744073709551615,\"why\":-1e5\x7d".toList
      [("max_pages_back", 18446744073709551615)] := by
    refine ⟨.members (.more blank_nil
        (.known (s := "18446744073709551615".toList) ?_ (spells_escape "max_pages_back".toList)
          blank_nil hblank rfl) blank_nil
      (.one blank_nil (.unknown ?_ (spells_escape "why".toList) blank_nil blank_nil hwhy)
        blank_nil)), ?_⟩ <;> decide
  have hdetection : IsSection (settingNames "detection") "\x7b\"scan_horizon\":0\x7d".toList
      [("scan_horizon", 0)] :=
    ⟨.members (.one blank_nil
      (.known (s := ['0']) (by decide) (spells_escape "scan_horizon".toList) blank_nil blank_nil
        rfl)
      blank_nil), by decide⟩
  exact ofJson_overrides.1 _ _ ⟨['\n'], _, [], rfl, by simp [Blank, isBlank], blank_nil,
    .members (.more blank_nil
        (.unknown (by decide) (spells_escape "note".toList) blank_nil blank_nil hnote) blank_nil
      (.more blank_nil
        (.known (by decide) (spells_escape "locator".toList) blank_nil blank_nil hlocator) hblank
      (.one hblank
        (.known (by decide) (spells_escape "detection".toList) blank_nil blank_nil hdetection)
        blank_nil))),
    by decide⟩

end Settings

end ConfigArea
