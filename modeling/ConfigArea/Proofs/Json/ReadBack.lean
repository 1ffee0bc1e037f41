import ConfigArea.Json.Alternative
import ConfigArea.Proofs.Json.Number

/-!
# Values that are read back

What is printed for a value is read as that value, in either layout, after any blanks and before
anything that does not go on a number. For lists and for values that may be null the printed values
must not start as a closing bracket or as null does.

## Key results

- `readString_reads`, `readUInt8_reads`, `readUInt32_reads`, `readUInt64_reads`: texts and numbers
- `readOption_reads`, `readList_reads`: values that may be null, and lists
- `readAlternative_reads`: alternatives that are known by their name alone
- `readDocument_of_reads`: a value in a text of its own, with blanks around it
-/

namespace ConfigArea.Json

variable {α : Type} {s rest : List Char} {layout : Layout}

/-! ## Brackets and commas -/

section Brackets

variable {ws : List Char} {closer c : Char}

/-- Behind an opening bracket the closing one is found, with blanks before it. -/
theorem afterOpening_closer (hws : Blank ws) (hcloser : isBlank closer = false) :
    afterOpening closer (ws ++ closer :: rest) = .ok (.closed rest) := by
  simp [afterOpening, skipToValue_append hws hcloser, ok_bind, pure, Except.pure]

/-- A value starts where the blanks stop. -/
theorem skipToValue_of_skipBlank (h : skipBlank s = c :: rest) : skipToValue s = .ok (c, rest) := by
  rw [skipToValue, h]

/-- Behind an opening bracket a value is found where there is no closing one. -/
theorem afterOpening_value (h : skipBlank s = c :: rest) (hc : c ≠ closer) :
    afterOpening closer s = .ok (.value (c :: rest)) := by
  simp [afterOpening, skipToValue_of_skipBlank h, hc, ok_bind, pure, Except.pure]

/-- Behind a value the closing bracket is found, with blanks before it. -/
theorem afterValue_closer (hws : Blank ws) (hcloser : isBlank closer = false) :
    afterValue closer (ws ++ closer :: rest) = .ok (.closed rest) := by
  simp [afterValue, skipToValue_append hws hcloser, ok_bind, pure, Except.pure]

/-- Behind a value and a comma the next value is found. -/
theorem afterValue_comma (hws : Blank ws) (h : skipBlank s = c :: rest) (hc : c ≠ closer)
    (hcloser : closer ≠ ',') :
    afterValue closer (ws ++ ',' :: s) = .ok (.value (c :: rest)) := by
  simp [afterValue, skipToValue_append hws (c := ',') rfl, skipToValue_of_skipBlank h, hc,
    hcloser.symm, ok_bind, pure, Except.pure]

end Brackets

/-! ## Texts and numbers -/

/-- A number of 8 bits is read back from its digits. -/
theorem readUInt8_reads (n : UInt8) : readUInt8.Reads (Nat.toDigits 10 n.toNat) n := by
  have h := (readNat_reads n.toNat_lt (by decide)).map UInt8.ofNat
  rwa [UInt8.ofNat_toNat] at h

/-- A number of 32 bits is read back from its digits. -/
theorem readUInt32_reads (n : UInt32) : readUInt32.Reads (Nat.toDigits 10 n.toNat) n := by
  have h := (readNat_reads n.toNat_lt (by decide)).map UInt32.ofNat
  rwa [UInt32.ofNat_toNat] at h

/-- A number of 64 bits is read back from its digits. -/
theorem readUInt64_reads (n : UInt64) : readUInt64.Reads (Nat.toDigits 10 n.toNat) n := by
  have h := (readNat_reads n.toNat_lt (by decide)).map UInt64.ofNat
  rwa [UInt64.ofNat_toNat] at h

/-- A text is read back from between its quotes. -/
theorem readString_reads (text : String) : readString.Reads (quote text) text := by
  intro ws rest hws hrest
  simp only [readString, quote]
  -- the quote tells that a text is to be read
  rw [List.cons_append, List.cons_append, skipToValue_append hws rfl, ok_bind]
  dsimp only
  rw [if_pos rfl, List.append_assoc, List.singleton_append]
  exact readText_quote text

/-! ## Values that may be null -/

/-- A value starts with a character that is not a blank, and neither as null does nor as a closing
bracket. -/
def StartsValue (s : List Char) : Prop :=
  ∃ c t, s = c :: t ∧ isBlank c = false ∧ c ≠ 'n' ∧ c ≠ ']'

/-- The digits of a number start a value. -/
theorem startsValue_toDigits (n : Nat) : StartsValue (Nat.toDigits 10 n) := by
  obtain ⟨c, t, h, hc⟩ := (Numeral.isDigits_toDigits n).exists_cons
  exact ⟨c, t, h, isBlank_of_isDigit hc, ne_of_isDigit hc rfl, ne_of_isDigit hc rfl⟩

/-- A printed object starts a value. -/
theorem startsValue_printObject (members : List (String × Printer)) :
    StartsValue (printObject members layout) :=
  ⟨'{', _, rfl, rfl, by decide, by decide⟩

/-- Nothing is read back from null. -/
theorem readOption_null (value : Reader α) :
    (readOption value).Reads ['n', 'u', 'l', 'l'] none := by
  intro ws rest hws hrest
  simp [readOption, hws, skipBlank_cons (c := 'n') rfl, skipNull,
    skipToValue_append hws (c := 'n') rfl, ok_bind, skipWord, Except.map]

/-- A value is read back as something that is there. -/
theorem readOption_value {value : Reader α} {a : α} (h : value.Reads s a) (hs : StartsValue s) :
    (readOption value).Reads s (some a) := by
  intro ws rest hws hrest
  have hread := h.map some ws rest hws hrest
  obtain ⟨c, t, rfl, hblank, hc, -⟩ := hs
  -- the value does not start as null does
  have hhead : (skipBlank (ws ++ (c :: t ++ rest))).head? ≠ some 'n' := by
    simp [hws, skipBlank_cons hblank, hc]
  simp only [readOption]
  rw [if_neg hhead]
  exact hread

/-- A value that may be null is read back if a value is. -/
theorem readOption_reads {value : Reader α} {print : α → Printer}
    (h : ∀ a layout, value.Reads (print a layout) a)
    (hstart : ∀ a layout, StartsValue (print a layout)) (o : Option α) (layout : Layout) :
    (readOption value).Reads (printOption print o layout) o := by
  cases o with
  | none => exact readOption_null value
  | some a => exact readOption_value (h a layout) (hstart a layout)

/-! ## Lists -/

/-- The start of a line is blank in either layout. -/
theorem blank_lineStart (layout : Layout) : Blank layout.lineStart := by
  cases layout with
  | compact => exact blank_nil
  | indented depth =>
    intro c hc
    -- the end of a line, and the spaces that indent the next one
    rcases List.mem_cons.1 hc with rfl | hc
    · rfl
    · rw [List.eq_of_mem_replicate hc]
      rfl

section Lists

variable {item : Reader α} {print : α → Printer} {acc as : List α}

/-- One step of reading the items after a first one. -/
theorem readItems_eq_bind : readItems item acc s = (afterValue ']' s >>= fun
    | .closed s => .ok (acc.reverse, s)
    | .value s => item.run s >>= fun (a, s) => readItems item (a :: acc) s) := by
  rw [readItems]
  -- a failure, the closing bracket, or one more item behind a comma
  split
  · rename_i h
    rw [h]
    rfl
  · rename_i h
    rw [h]
    rfl
  · rename_i h
    rw [h, ok_bind]
    dsimp only
    split <;>
      (rename_i h
       rw [h]
       rfl)

/-- What is printed behind an item of a list: the items after it and the closing bracket. -/
def printRest (items : List Printer) (layout : Layout) : List Char :=
  items.flatMap (fun part => ',' :: layout.inner.lineStart ++ part layout.inner)
    ++ layout.lineStart ++ [']']

/-- What is printed behind an item does not go on a number. -/
theorem ends_printRest (items : List Printer) : Ends (printRest items layout ++ rest) := by
  cases items with
  | nil =>
    rw [printRest, List.flatMap_nil, List.nil_append, List.append_assoc]
    exact Ends.append (by simp) (blank_lineStart layout)
  | cons part items => simp [printRest]

/-- The items after a first one are read back. -/
theorem readItems_printRest (h : ∀ a layout, item.Reads (print a layout) a)
    (hstart : ∀ a layout, StartsValue (print a layout)) (as acc : List α) :
    readItems item acc (printRest (as.map print) layout ++ rest) =
      .ok (acc.reverse ++ as, rest) := by
  -- Induction on the items that are left: the first one of them follows a comma.
  induction as generalizing acc with
  | nil =>
    rw [List.map_nil, printRest, List.flatMap_nil, List.nil_append, List.append_assoc,
      List.append_nil, List.singleton_append, readItems_eq_bind,
      afterValue_closer (blank_lineStart layout) rfl]
    rfl
  | cons a as ih =>
    obtain ⟨c, t, hs, hblank, -, hc⟩ := hstart a layout.inner
    -- the item is read up to what is printed behind it
    have hread := h a layout.inner [] (printRest (as.map print) layout ++ rest) blank_nil
      (ends_printRest _)
    have hshape : printRest ((a :: as).map print) layout ++ rest = ',' :: (layout.inner.lineStart ++
        (print a layout.inner ++ (printRest (as.map print) layout ++ rest))) := by
      simp [printRest]
    rw [List.nil_append, hs, List.cons_append] at hread
    -- behind the comma and the start of the line the item is found
    have hvalue : afterValue ']' (',' :: (layout.inner.lineStart ++
        (c :: (t ++ (printRest (as.map print) layout ++ rest))))) = .ok (.value _) :=
      afterValue_comma blank_nil (by
        rw [skipBlank_append (blank_lineStart _), skipBlank_cons hblank]) hc (by decide)
    rw [hshape, hs, List.cons_append, readItems_eq_bind, hvalue, ok_bind]
    dsimp only
    rw [hread, ok_bind]
    dsimp only
    rw [ih, List.reverse_cons, List.append_assoc, List.singleton_append]

/-- A list is read back if its items are. -/
theorem readList_reads (h : ∀ a layout, item.Reads (print a layout) a)
    (hstart : ∀ a layout, StartsValue (print a layout)) (as : List α) (layout : Layout) :
    (readList item).Reads (printList (as.map print) layout) as := by
  intro ws rest hws hrest
  -- An empty list is closed at once; else the first item is read apart from the others.
  cases as with
  | nil =>
    have hopen : afterOpening ']' (']' :: rest) = .ok (.closed rest) :=
      afterOpening_closer blank_nil rfl
    simp [readList, printList, printParts, skipToValue_append hws (c := '[') rfl, ok_bind, hopen]
  | cons a as =>
    obtain ⟨c, t, hs, hblank, -, hc⟩ := hstart a layout.inner
    -- the first item is read up to what is printed behind it
    have hread := h a layout.inner [] (printRest (as.map print) layout ++ rest) blank_nil
      (ends_printRest _)
    have hshape : printList ((a :: as).map print) layout ++ rest = '[' :: (layout.inner.lineStart ++
        (print a layout.inner ++ (printRest (as.map print) layout ++ rest))) := by
      simp [printList, printParts, printRest]
    rw [List.nil_append, hs, List.cons_append] at hread
    -- behind the bracket and the start of the line the first item is found
    have hfirst : skipBlank (layout.inner.lineStart ++
        (print a layout.inner ++ (printRest (as.map print) layout ++ rest))) =
        c :: (t ++ (printRest (as.map print) layout ++ rest)) := by
      rw [skipBlank_append (blank_lineStart _), hs, List.cons_append, skipBlank_cons hblank]
    simp only [readList]
    rw [hshape, skipToValue_append hws rfl, ok_bind]
    dsimp only
    rw [if_pos rfl, afterOpening_value hfirst hc, ok_bind]
    dsimp only
    rw [hread, ok_bind]
    exact readItems_printRest h hstart as [a]

end Lists

/-! ## Alternatives and documents -/

/-- An alternative that holds nothing is read from its name. -/
theorem readAlternative_reads {alternatives : List (String × Alternative α)} {name : String} {a : α}
    (h : alternatives.lookup name = some (.plain a)) :
    (readAlternative alternatives).Reads (quote name) a := by
  intro ws rest hws hrest
  simp [readAlternative, quote, skipToValue_append hws (c := '"') rfl, ok_bind,
    Alternative.readName, readText_quote, h]

/-- A value is read from a text that holds it and nothing else but blanks. -/
theorem readDocument_of_reads {reader : Reader α} {a : α} {ws ws' : List Char}
    (h : reader.Reads s a) (hws : Blank ws) (hws' : Blank ws') :
    reader.readDocument (.ofList (ws ++ (s ++ ws'))) = .ok a := by
  -- the blanks at the end may follow the value
  have hends : Ends ws' := by
    have := Ends.append ends_nil hws'
    rwa [List.append_nil] at this
  rw [Reader.readDocument, String.toList_ofList, h ws ws' hws hends, ok_bind]
  dsimp only
  rw [skipBlank_of_blank hws']
  rfl

/-- A value is read from a text that holds it and nothing else. -/
theorem readDocument_ofList {reader : Reader α} {a : α} (h : reader.Reads s a) :
    reader.readDocument (.ofList s) = .ok a := by
  have hdocument := readDocument_of_reads h blank_nil blank_nil
  rwa [List.nil_append, List.append_nil] at hdocument

end ConfigArea.Json
