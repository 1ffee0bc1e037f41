import ConfigArea.Json.Record
import ConfigArea.Proofs.Json.ReadBack
import ConfigArea.Proofs.Json.Value

/-!
# Objects with known and unknown members

An object is written as its members in any order, with blanks wherever they may stand. Some names
are known and their values mean something; a member of any other name is to be passed over, whatever
well-formed value it has. This file says which entries an object gives for the known names, and
shows that a record is read from an object by applying its entries one after the other.

## Key results

- `IsObject`: the objects that give certain entries
- `readMember_of_isMember`, `readMembers_of_isMembers`: one member, and all of them
- `Record.reads_of_isObject`: a record is read from an object whose entries it understands
- `Record.reads_printObject`: a record is read back from the object of its printed fields
-/

namespace ConfigArea.Json

section Grammar

variable {β : Type}

/-- A member of an object, from its key to the end of its value. For a known name it gives one
entry, the name with what the value means for it; for any other name it gives none. -/
inductive IsMember (known : List String) (means : String → List Char → β → Prop) :
    List (String × β) → List Char → Prop where
  | known {name : String} {key wk wv s : List Char} {b : β} (hname : name ∈ known)
      (hkey : Spells key name.toList) (hwk : Blank wk) (hwv : Blank wv) (hs : means name s b) :
      IsMember known means [(name, b)] ('"' :: (key ++ '"' :: (wk ++ ':' :: (wv ++ s))))
  | unknown {name : String} {key wk wv s : List Char} (hname : name ∉ known)
      (hkey : Spells key name.toList) (hwk : Blank wk) (hwv : Blank wv) (hs : IsJson .value s) :
      IsMember known means [] ('"' :: (key ++ '"' :: (wk ++ ':' :: (wv ++ s))))

/-- The members of an object that is not empty, separated by commas. -/
inductive IsMembers (known : List String) (means : String → List Char → β → Prop) :
    List (String × β) → List Char → Prop where
  | one {es : List (String × β)} {ws s ws' : List Char} (hws : Blank ws)
      (hs : IsMember known means es s) (hws' : Blank ws') :
      IsMembers known means es (ws ++ (s ++ ws'))
  | more {es fs : List (String × β)} {ws s ws' t : List Char} (hws : Blank ws)
      (hs : IsMember known means es s) (hws' : Blank ws') (ht : IsMembers known means fs t) :
      IsMembers known means (es ++ fs) (ws ++ (s ++ (ws' ++ ',' :: t)))

/-- An object, with the entries that its known members give, in their order. -/
inductive IsObject (known : List String) (means : String → List Char → β → Prop) :
    List (String × β) → List Char → Prop where
  | empty {ws : List Char} (hws : Blank ws) : IsObject known means [] ('{' :: (ws ++ ['}']))
  | members {es : List (String × β)} {s : List Char} (h : IsMembers known means es s) :
      IsObject known means es ('{' :: (s ++ ['}']))

variable {known : List String} {means : String → List Char → β → Prop} {es : List (String × β)}
  {s : List Char}

/-- An object starts with a brace. -/
theorem exists_cons_of_isObject (h : IsObject known means es s) : ∃ t, s = '{' :: t := by
  cases h with
  | empty => exact ⟨_, rfl⟩
  | members => exact ⟨_, rfl⟩

end Grammar

/-! ## Reading the members of a record -/

/-- Blanks before a colon are passed over together with it. -/
theorem skipColon_append {ws s : List Char} (hws : Blank ws) :
    skipColon (ws ++ ':' :: s) = .ok s := by
  simp [skipColon, hws, skipBlank_cons (c := ':') rfl, skipChar, skipWord]

namespace Record

section Members

variable {α β : Type} {fields : List (Field α)} {means : String → List Char → β → Prop}
  {apply : String → β → α → α} {p : Progress α} {es fs : List (String × β)}
  {s rest : List Char}

/-- The fields of a record read what is meant by their values, as a change of the record. -/
def Understands (fields : List (Field α)) (means : String → List Char → β → Prop)
    (apply : String → β → α → α) : Prop :=
  ∀ name s b, name ∈ fields.map (·.name) → means name s b →
    ∃ f, fields.find? (·.name == name) = some f ∧ f.change.Reads s (apply name b)

/-- The entries of an object applied to a record, one after the other. -/
def applyAll (apply : String → β → α → α) (es : List (String × β)) (a : α) : α :=
  es.foldl (fun a e => apply e.1 e.2 a) a

/-- What is known of a record once entries have been read. -/
def advance (apply : String → β → α → α) (p : Progress α) (es : List (String × β)) : Progress α :=
  ⟨applyAll apply es p.value, (es.map (·.1)).reverse ++ p.seen⟩

/-- Without entries nothing changes. -/
@[simp] theorem advance_nil : advance apply p [] = p := rfl

/-- Entries may be read in two parts. -/
theorem advance_advance : advance apply (advance apply p es) fs = advance apply p (es ++ fs) := by
  simp [advance, applyAll]

/-- Nothing is named twice, be it among what has been read or among the entries to come. -/
def Fresh (p : Progress α) (es : List (String × β)) : Prop :=
  (es.map (·.1)).Nodup ∧ ∀ e ∈ es, e.1 ∉ p.seen

/-- If nothing is named twice, then neither is it in the first entries, nor in the others once the
first have been read. -/
theorem fresh_append (apply : String → β → α → α) (h : Fresh p (es ++ fs)) :
    Fresh p es ∧ Fresh (advance apply p es) fs := by
  obtain ⟨hnodup, hseen⟩ := h
  rw [List.map_append, List.nodup_append] at hnodup
  obtain ⟨hes, hfs, hdisjoint⟩ := hnodup
  refine ⟨⟨hes, fun e he => hseen e (List.mem_append_left _ he)⟩, hfs, fun e he hmem => ?_⟩
  simp only [advance, List.mem_append, List.mem_reverse] at hmem
  -- the name would be among the first entries or among what had been read before
  rcases hmem with hmem | hmem
  · exact hdisjoint _ hmem _ (List.mem_map_of_mem he) rfl
  · exact hseen e (List.mem_append_right _ he) hmem

/-- No field is found for a name that none has. -/
theorem find?_eq_none_of_not_mem {name : String} (h : name ∉ fields.map (·.name)) :
    fields.find? (·.name == name) = none := by
  rw [List.find?_eq_none]
  intro f hf heq
  rw [beq_iff_eq] at heq
  exact h (heq ▸ List.mem_map_of_mem hf)

/-- A member is read: an entry is applied, and an unknown member is passed over. -/
theorem readMember_of_isMember (hfields : Understands fields means apply)
    (h : IsMember (fields.map (·.name)) means es s) (hfresh : Fresh p es) (hrest : Ends rest) :
    readMember fields p (s ++ rest) = .ok (advance apply p es, rest) := by
  cases h with
  | @known name key wk wv s b hname hkey hwk hwv hs =>
    -- the name is that of a field, which has not been seen yet and reads the value
    obtain ⟨f, hfind, hread⟩ := hfields name s b hname hs
    have hkey := readText_of_spells_toList hkey (wk ++ ':' :: (wv ++ (s ++ rest)))
    have hseen : name ∉ p.seen := hfresh.2 _ List.mem_cons_self
    have hvalue : f.change.run (wv ++ (s ++ rest)) = .ok (apply name b, rest) :=
      hread wv rest hwv hrest
    simp [readMember, skipChar, skipWord, ok_bind, hkey, hfind, hseen, skipColon_append hwk, hvalue,
      pure, Except.pure, advance, applyAll]
  | @unknown name key wk wv s hname hkey hwk hwv hs =>
    have hkey := readText_of_spells_toList hkey (wk ++ ':' :: (wv ++ (s ++ rest)))
    have hskip := skipValue_of_isJson hs hwv hrest
    simp [readMember, skipChar, skipWord, ok_bind, hkey, find?_eq_none_of_not_mem hname,
      skipColon_append hwk, hskip, pure, Except.pure]

/-- One step of reading the members after a first one. -/
theorem readMembers_eq_bind : readMembers fields p s = (afterValue '}' s >>= fun
    | .closed s => .ok (p, s)
    | .value s => readMember fields p s >>= fun (q, s) => readMembers fields q s) := by
  rw [readMembers]
  -- a failure, the closing brace, or one more member behind a comma
  split
  · rename_i h
    rw [h]
    rfl
  · rename_i h
    rw [h]
    rfl
  · rename_i h
    rw [h, ok_bind]
    dsimp only
    split <;>
      (rename_i h
       rw [h]
       rfl)

/-- A member starts with a quote. -/
theorem exists_cons_of_isMember {known : List String} (h : IsMember known means es s) :
    ∃ t, s = '"' :: t := by
  cases h with
  | known => exact ⟨_, rfl⟩
  | unknown => exact ⟨_, rfl⟩

/-- The members of an object are read up to the brace that closes it. -/
theorem readMembers_of_isMembers (hfields : Understands fields means apply)
    (h : IsMembers (fields.map (·.name)) means es s) (hfresh : Fresh p es) :
    ∃ t, skipBlank s = '"' :: t ∧ ∀ rest,
      (readMember fields p ('"' :: (t ++ '}' :: rest)) >>= fun (q, u) => readMembers fields q u) =
        .ok (advance apply p es, rest) := by
  -- Induction on the members: what the first one gives is known when those after it are read.
  induction h generalizing p with
  | @one es ws s ws' hws hs hws' =>
    -- the one member, and the brace behind it
    obtain ⟨t, rfl⟩ := exists_cons_of_isMember hs
    refine ⟨t ++ ws', by simp [hws, skipBlank_cons (c := '"') rfl], fun rest => ?_⟩
    have hends : Ends (ws' ++ '}' :: rest) := Ends.append (by simp) hws'
    have hmember := readMember_of_isMember hfields hs hfresh hends
    rw [List.cons_append] at hmember
    rw [List.append_assoc, hmember, ok_bind]
    dsimp only
    rw [readMembers_eq_bind, afterValue_closer hws' rfl]
    rfl
  | @more es fs ws s ws' u hws hs hws' hu ih =>
    -- the first member, and behind the comma the others, which find its entries read
    obtain ⟨t, rfl⟩ := exists_cons_of_isMember hs
    obtain ⟨hes, hfs⟩ := fresh_append apply hfresh
    obtain ⟨v, hv, hmembers⟩ := ih hfs
    refine ⟨t ++ (ws' ++ ',' :: u), by simp [hws, skipBlank_cons (c := '"') rfl], fun rest => ?_⟩
    have hends : Ends (ws' ++ ',' :: (u ++ '}' :: rest)) := Ends.append (by simp) hws'
    have hmember := readMember_of_isMember hfields hs hes hends
    -- the quote of the next member is what the comma is followed by
    have hnext := skipBlank_append_of_eq_cons hv ('}' :: rest)
    simp only [List.append_assoc, List.cons_append] at hmember ⊢
    rw [hmember, ok_bind]
    dsimp only
    rw [readMembers_eq_bind, afterValue_comma hws' hnext (by decide) (by decide), ok_bind]
    dsimp only
    rw [hmembers, advance_advance]

/-- An object is read to its end, and all its entries are applied. -/
theorem readObject_of_isObject {blank : α} (hfields : Understands fields means apply)
    (h : IsObject (fields.map (·.name)) means es ('{' :: s)) (hnodup : (es.map (·.1)).Nodup) :
    readObject fields blank (s ++ rest) = .ok (advance apply ⟨blank, []⟩ es, rest) := by
  -- nothing has been read before
  have hfresh : Fresh (⟨blank, []⟩ : Progress α) es := ⟨hnodup, fun _ _ => List.not_mem_nil⟩
  -- The first character behind the brace tells an empty object from one with members.
  cases h with
  | @empty ws hws =>
    rw [List.append_assoc, List.singleton_append, readObject, afterOpening_closer hws rfl]
    rfl
  | @members es s h =>
    obtain ⟨t, ht, hread⟩ := readMembers_of_isMembers hfields h hfresh
    have hfirst := skipBlank_append_of_eq_cons ht ('}' :: rest)
    rw [List.append_assoc, List.singleton_append, readObject,
      afterOpening_value hfirst (by decide), ok_bind]
    exact hread rest

/-- A record is complete if every field that must be there has been seen. -/
theorem isComplete_iff {seen : List String} :
    isComplete fields seen = true ↔ ∀ f ∈ fields, f.isRequired = true → f.name ∈ seen := by
  simp [isComplete, Decidable.or_iff_not_imp_left]

/-- A record is read from an object whose entries it understands, if none is named twice and none
that must be there is missing. -/
theorem reads_of_isObject {r : Record α} (hfields : Understands r.fields means apply)
    (h : IsObject (r.fields.map (·.name)) means es s) (hnodup : (es.map (·.1)).Nodup)
    (hcomplete : ∀ f ∈ r.fields, f.isRequired = true → f.name ∈ es.map (·.1)) :
    r.reader.Reads s (applyAll apply es r.blank) := by
  intro ws rest hws hrest
  obtain ⟨t, rfl⟩ := exists_cons_of_isObject h
  -- what has been seen in the end are the names of the entries
  have hall : isComplete r.fields (advance apply ⟨r.blank, []⟩ es).seen = true := by
    rw [isComplete_iff]
    intro f hf hrequired
    rw [advance, List.append_nil, List.mem_reverse]
    exact hcomplete f hf hrequired
  -- the brace tells that an object is to be read
  simp only [reader]
  rw [List.cons_append, skipToValue_append hws rfl, ok_bind]
  dsimp only
  rw [if_neg (by decide), if_pos rfl, readObject_of_isObject hfields h hnodup, ok_bind]
  dsimp only
  rw [if_pos hall]
  rfl

end Members

section Changes

variable {α β γ : Type} {changes : List (String × (β → α → α))} {apply : String → β → α → α}
  {get : α → γ} {key : String} {put : β → α → α} {f : β → γ}

/-- The change that a table has for a name, none if the name is not in it. -/
def changeOf (changes : List (String × (β → α → α))) (name : String) : β → α → α :=
  (changes.lookup name).getD fun _ a => a

/-- What only the change of one name touches is left alone by those of the others. -/
theorem get_changeOf_of_ne
    (hother : ∀ change ∈ changes, change.1 ≠ key → ∀ b a, get (change.2 b a) = get a)
    {name : String} (h : name ≠ key) (b : β) (a : α) :
    get (changeOf changes name b a) = get a := by
  -- Induction on the table, in which the name is looked up.
  induction changes with
  | nil => rfl
  | cons change changes ih =>
    rw [changeOf, List.lookup_cons]
    split
    · rename_i heq
      rw [beq_iff_eq] at heq
      exact hother change List.mem_cons_self (heq ▸ h) b a
    · exact ih fun change hmem => hother change (List.mem_cons_of_mem _ hmem)

/-- What no entry names stays as it is. -/
theorem get_applyAll_of_not_mem (hother : ∀ name b a, name ≠ key → get (apply name b a) = get a)
    {es : List (String × β)} (h : key ∉ es.map (·.1)) (a : α) :
    get (applyAll apply es a) = get a := by
  induction es generalizing a with
  | nil => rfl
  | cons e es ih =>
    rw [List.map_cons, List.mem_cons, not_or] at h
    calc get (applyAll apply (e :: es) a) = get (applyAll apply es (apply e.1 e.2 a)) := rfl
      _ = get (apply e.1 e.2 a) := ih h.2 _
      _ = get a := hother _ _ _ (Ne.symm h.1)

/-- What one entry names gets its value from it, wherever that entry stands. -/
theorem get_applyAll (hself : ∀ b a, get (apply key b a) = f b)
    (hother : ∀ name b a, name ≠ key → get (apply name b a) = get a)
    {es : List (String × β)} (hnodup : (es.map (·.1)).Nodup) (a : α) :
    get (applyAll apply es a) = ((es.lookup key).map f).getD (get a) := by
  induction es generalizing a with
  | nil => rfl
  | cons e es ih =>
    rw [List.map_cons, List.nodup_cons] at hnodup
    have hstep : get (applyAll apply (e :: es) a) = get (applyAll apply es (apply e.1 e.2 a)) := rfl
    -- the entry is the one that is looked for, and no later one has its name, or it changes nothing
    -- here
    by_cases hkey : e.1 = key
    · rw [hstep, get_applyAll_of_not_mem hother (hkey ▸ hnodup.1), hkey, hself, ← hkey,
        List.lookup_cons_self]
      rfl
    · have hlookup : (e :: es).lookup key = es.lookup key := by
        rw [List.lookup_cons, beq_false_of_ne (Ne.symm hkey)]
      rw [hstep, ih hnodup.2, hother _ _ _ hkey, hlookup]

/-- The same for the changes of a table, where each changes its own part of the record. -/
theorem get_applyAll_changeOf (changes : List (String × (β → α → α))) (key : String) (get : α → γ)
    (f : β → γ) (hput : changes.lookup key = some put) (hself : ∀ b a, get (put b a) = f b)
    (hother : ∀ change ∈ changes, change.1 ≠ key → ∀ b a, get (change.2 b a) = get a)
    {es : List (String × β)} (hnodup : (es.map (·.1)).Nodup) (a : α) :
    get (applyAll (changeOf changes) es a) = ((es.lookup key).map f).getD (get a) := by
  refine get_applyAll (fun b a => ?_) (fun name b a h => get_changeOf_of_ne hother h b a) hnodup a
  rw [changeOf, hput]
  exact hself b a

end Changes

end Record

/-! ## Printed objects -/

section Printed

variable {β : Type} {known : List String} {means : String → List Char → β → Prop}
  {layout : Layout}

/-- A printed member gives an entry of its name. -/
theorem isMember_printMember {name : String} {value : Printer} {b : β} (hname : name ∈ known)
    (h : means name (value layout) b) :
    IsMember known means [(name, b)] (printMember name value layout) := by
  cases layout with
  | compact =>
    have hmember := IsMember.known hname (spells_escape _) blank_nil blank_nil h
    simpa [printMember, quote, Layout.colon] using hmember
  | indented depth =>
    have hspace : Blank [' '] := by simp [Blank, isBlank]
    have hmember := IsMember.known hname (spells_escape _) blank_nil hspace h
    simpa [printMember, quote, Layout.colon] using hmember

/-- A printed object gives the entries of its members. -/
theorem isObject_printObject {ms : List (String × Printer × β)}
    (h : ∀ m ∈ ms, m.1 ∈ known ∧ means m.1 (m.2.1 layout.inner) m.2.2) :
    IsObject known means (ms.map fun m => (m.1, m.2.2))
      (printObject (ms.map fun m => (m.1, m.2.1)) layout) := by
  cases ms with
  | nil => exact .empty blank_nil
  | cons m ms =>
    -- the brace and the members, which are printed as the parts between brackets are
    suffices hmembers : IsMembers known means ((m :: ms).map fun m => (m.1, m.2.2))
        (printParts ((m :: ms).map fun m => printMember m.1 m.2.1) layout) by
      have hobject := IsObject.members hmembers
      simpa [printObject, Function.comp_def] using hobject
    -- Induction on the members behind the first one, since an object with members has one at least.
    induction ms generalizing m with
    | nil =>
      obtain ⟨hname, hmeans⟩ := h m List.mem_cons_self
      have hone := IsMembers.one (blank_lineStart layout.inner) (isMember_printMember hname hmeans)
        (blank_lineStart layout)
      simpa [printParts] using hone
    | cons m' ms ih =>
      obtain ⟨hname, hmeans⟩ := h m List.mem_cons_self
      have hmore := IsMembers.more (blank_lineStart layout.inner)
        (isMember_printMember hname hmeans) blank_nil
        (ih m' fun m hm => h m (List.mem_cons_of_mem _ hm))
      simpa [printParts] using hmore

end Printed

namespace Record

variable {α : Type}

/-- The members are the printed fields of a record, in their order, and reading them back changes a
record by `g`. -/
inductive PrintsFields : List (Field α) → List (String × Printer) → (α → α) → Prop where
  | nil : PrintsFields [] [] id
  | cons {f : Field α} {fields : List (Field α)} {printer : Printer}
      {members : List (String × Printer)} {change g : α → α}
      (h : ∀ layout, f.change.Reads (printer layout) change)
      (hs : PrintsFields fields members g) :
      PrintsFields (f :: fields) ((f.name, printer) :: members) (g ∘ change)

section Fields

variable {β : Type} {name : String} {value : Reader β} {put : β → α → α} {b : β}
  {fields : List (Field α)} {printer : Printer} {members : List (String × Printer)} {g : α → α}

/-- A field that must be there reads what its value does. -/
theorem reads_required {s : List Char} (h : value.Reads s b) :
    (Field.required name value put).change.Reads s (put b) :=
  h.map put

/-- A field that may be missing reads what its value does. -/
theorem reads_optional {s : List Char} (h : value.Reads s b) :
    (Field.optional name value put).change.Reads s (put b) :=
  h.map put

/-- A field that must be there is printed if its value is. -/
theorem PrintsFields.required (h : ∀ layout, value.Reads (printer layout) b)
    (hs : PrintsFields fields members g) :
    PrintsFields (.required name value put :: fields) ((name, printer) :: members) (g ∘ put b) :=
  .cons (fun layout => reads_required (h layout)) hs

/-- A field that may be missing is printed if its value is. -/
theorem PrintsFields.optional (h : ∀ layout, value.Reads (printer layout) b)
    (hs : PrintsFields fields members g) :
    PrintsFields (.optional name value put :: fields) ((name, printer) :: members) (g ∘ put b) :=
  .cons (fun layout => reads_optional (h layout)) hs

end Fields

/-- What the value of a member means: the change that the field of its name reads. -/
def MeansChange (fields : List (Field α)) (name : String) (s : List Char) (change : α → α) : Prop :=
  ∃ f ∈ fields, f.name = name ∧ f.change.Reads s change

/-- Where no two fields have one name, the field of a name is found. -/
theorem find?_of_mem {fields : List (Field α)} (hnames : (fields.map (·.name)).Nodup) {f : Field α}
    (hf : f ∈ fields) : fields.find? (·.name == f.name) = some f := by
  induction fields with
  | nil => cases hf
  | cons g fields ih =>
    rw [List.map_cons, List.nodup_cons] at hnames
    rcases List.mem_cons.1 hf with rfl | hf
    · exact List.find?_cons_of_pos (beq_self_eq_true _)
    · have hne : g.name ≠ f.name := fun h => hnames.1 (h ▸ List.mem_map_of_mem hf)
      rw [List.find?_cons_of_neg (by simpa using hne)]
      exact ih hnames.2 hf

/-- The entries of printed fields: each means the change that is made by reading it. -/
theorem PrintsFields.exists_entries {fields : List (Field α)} {members : List (String × Printer)}
    {g : α → α} (h : PrintsFields fields members g) (layout : Layout) :
    ∃ ms : List (String × Printer × (α → α)),
      members = ms.map (fun m => (m.1, m.2.1)) ∧ fields.map (·.name) = ms.map (·.1) ∧
      (∀ a, applyAll (fun _ change => change) (ms.map fun m => (m.1, m.2.2)) a = g a) ∧
      ∀ m ∈ ms, MeansChange fields m.1 (m.2.1 layout) m.2.2 := by
  -- Induction on the fields: the first one gives the first entry.
  induction h with
  | nil => exact ⟨[], rfl, rfl, fun _ => rfl, nofun⟩
  | @cons f fields printer members change g h hs ih =>
    obtain ⟨ms, hmembers, hnames, hg, hmeans⟩ := ih
    refine ⟨(f.name, printer, change) :: ms, ?_, ?_, fun a => hg (change a), fun m hm => ?_⟩
    · rw [hmembers, List.map_cons]
    · rw [List.map_cons, List.map_cons, hnames]
    · rcases List.mem_cons.1 hm with rfl | hm
      · exact ⟨f, List.mem_cons_self, rfl, h layout⟩
      · obtain ⟨f', hf', hfield⟩ := hmeans m hm
        exact ⟨f', List.mem_cons_of_mem _ hf', hfield⟩

/-- A record is read back from the object of its printed fields. -/
theorem reads_printObject {r : Record α} {members : List (String × Printer)} {g : α → α}
    (h : PrintsFields r.fields members g) (hnodup : (r.fields.map (·.name)).Nodup)
    (layout : Layout) : r.reader.Reads (printObject members layout) (g r.blank) := by
  -- each member is understood by the field of its name, of which there is one
  have hfields : Understands r.fields (MeansChange r.fields) fun _ change => change := by
    rintro _ s change - ⟨f, hf, rfl, hread⟩
    exact ⟨f, find?_of_mem hnodup hf, hread⟩
  obtain ⟨ms, rfl, hnames, hg, hmeans⟩ := h.exists_entries layout.inner
  have hobject : IsObject (r.fields.map (·.name)) (MeansChange r.fields)
      (ms.map fun m => (m.1, m.2.2)) (printObject (ms.map fun m => (m.1, m.2.1)) layout) :=
    isObject_printObject fun m hm => ⟨hnames ▸ List.mem_map_of_mem hm, hmeans m hm⟩
  -- the entries have the names of the fields, so none is missing and none is there twice
  have hentries : (ms.map fun m => (m.1, m.2.2)).map (·.1) = r.fields.map (·.name) := by
    rw [hnames, List.map_map]
    rfl
  rw [← hg]
  refine reads_of_isObject hfields hobject ?_ fun f hf _ => ?_
  · rwa [hentries]
  · rw [hentries]
    exact List.mem_map_of_mem hf

end Record

end ConfigArea.Json
