import ConfigArea.Json.Print
import ConfigArea.Json.Reader

/-!
# Texts between quotes

A character can be written between quotes in several ways: as itself, as an escape of one letter, as
the four digits of a UTF-16 unit, or as those of a pair of units. This file says what spells a text,
and shows that every spelling is read as that text; the one that is printed is among them. A text
that is only passed over need not spell anything, since the units in it need not come in pairs.

## Key results

- `skipToValue_append`: blanks before a value are passed over
- `readText_of_spells`: what spells a text is read as that text
- `skipText_of_isText`: what is well formed is passed over
- `spells_escape`: the printed form of a text spells it
-/

namespace ConfigArea.Json

/-! ## Blanks -/

/-- The characters may stand between tokens. -/
def Blank (s : List Char) : Prop :=
  ∀ c ∈ s, isBlank c = true

/-- The empty text is blank. -/
@[simp] theorem blank_nil : Blank [] := by
  intro c hc
  cases hc

/-- Blanks may follow blanks. -/
theorem Blank.append {s t : List Char} (hs : Blank s) (ht : Blank t) : Blank (s ++ t) := by
  intro c hc
  rcases List.mem_append.1 hc with hc | hc
  · exact hs c hc
  · exact ht c hc

variable {ws s rest : List Char} {c : Char}

/-- Blanks at the start are passed over. -/
@[simp] theorem skipBlank_append (h : Blank ws) : skipBlank (ws ++ s) = skipBlank s :=
  List.dropWhile_append_of_pos h

/-- Nothing is passed over where there is no blank. -/
@[simp] theorem skipBlank_cons (h : isBlank c = false) : skipBlank (c :: s) = c :: s :=
  List.dropWhile_cons_of_neg (by simp [h])

/-- Where there are only blanks nothing is left. -/
theorem skipBlank_of_blank (h : Blank ws) : skipBlank ws = [] := by
  have := skipBlank_append (s := []) h
  rwa [List.append_nil] at this

/-- What is passed over are the blanks at the start. -/
theorem exists_blank_append (s : List Char) : ∃ ws, Blank ws ∧ ws ++ skipBlank s = s :=
  ⟨s.takeWhile isBlank, List.all_eq_true.1 List.all_takeWhile, List.takeWhile_append_dropWhile⟩

/-- What stops the blanks stops them whatever comes behind. -/
theorem skipBlank_append_of_eq_cons {t : List Char} (h : skipBlank s = c :: t)
    (rest : List Char) :
    skipBlank (s ++ rest) = c :: (t ++ rest) := by
  simp only [skipBlank] at h ⊢
  rw [List.dropWhile_append, h]
  rfl

/-- Blanks before a value are passed over. -/
theorem skipToValue_append (h : Blank ws) (hc : isBlank c = false) :
    skipToValue (ws ++ c :: s) = .ok (c, s) := by
  simp [skipToValue, h, hc]

/-! ## Spellings -/

/-- What a character can be written as between quotes. -/
inductive SpellsChar : List Char → Char → Prop where
  /-- itself, unless it ends the text, starts an escape or is a control character -/
  | plain {c : Char} (hq : c ≠ '"') (hb : c ≠ '\\') (hc : 0x20 ≤ c.toNat) : SpellsChar [c] c
  /-- an escape of one letter -/
  | letter {x c : Char} (h : escapeLetter? x = some c) : SpellsChar ['\\', x] c
  /-- the digits of a unit that is no half of a pair -/
  | unit {a b c d : Char} {n : Nat} (h : hexUnit? a b c d = some n)
      (hl : isLowSurrogate n = false) (hh : isHighSurrogate n = false) :
      SpellsChar ['\\', 'u', a, b, c, d] (.ofNat n)
  /-- the digits of both halves of a pair -/
  | pair {a b c d a' b' c' d' : Char} {high low : Nat} (h : hexUnit? a b c d = some high)
      (hh : isHighSurrogate high = true) (h' : hexUnit? a' b' c' d' = some low)
      (hl : isLowSurrogate low = true) :
      SpellsChar ['\\', 'u', a, b, c, d, '\\', 'u', a', b', c', d']
        (.ofNat (0x10000 + (high - 0xd800) * 0x400 + (low - 0xdc00)))

/-- What a text can be written as between quotes. -/
inductive Spells : List Char → List Char → Prop where
  | nil : Spells [] []
  | cons {w s cs : List Char} {c : Char} (h : SpellsChar w c) (hs : Spells s cs) :
      Spells (w ++ s) (c :: cs)

/-- What can stand between the quotes of a text that is only passed over. -/
inductive IsText : List Char → Prop where
  | nil : IsText []
  | plain {s : List Char} {c : Char} (hq : c ≠ '"') (hb : c ≠ '\\') (hc : 0x20 ≤ c.toNat)
      (hs : IsText s) : IsText (c :: s)
  | letter {s : List Char} {x : Char} (h : (escapeLetter? x).isSome = true) (hs : IsText s) :
      IsText ('\\' :: x :: s)
  | unit {s : List Char} {a b c d : Char} (h : (hexUnit? a b c d).isSome = true)
      (hs : IsText s) : IsText ('\\' :: 'u' :: a :: b :: c :: d :: s)

/-- Four digits are read as their unit. -/
theorem readUnit_cons {a b c d : Char} {n : Nat} (h : hexUnit? a b c d = some n) :
    readUnit (a :: b :: c :: d :: s) = .ok (n, s) := by
  simp [readUnit, h]

/-- A unit that is the first half of a pair is not the second one. -/
theorem isLowSurrogate_of_isHighSurrogate {n : Nat} (h : isHighSurrogate n = true) :
    isLowSurrogate n = false := by
  simp only [isHighSurrogate, isLowSurrogate, Bool.and_eq_true, decide_eq_true_eq,
    Bool.and_eq_false_iff, decide_eq_false_iff_not] at h ⊢
  omega

/-! ## Escapes -/

/-- An escape of one letter is read as its character. -/
theorem readEscape_letter {x : Char} (h : escapeLetter? x = some c) :
    readEscape (x :: s) = .ok (c, s) := by
  -- the letter of a unit is no such escape
  have hu : x ≠ 'u' := by
    rintro rfl
    cases h
  rw [readEscape.eq_3 _ _ hu, h]

/-- A unit that is no half of a pair is read as its character. -/
theorem readEscape_unit {a b d e : Char} {n : Nat} (h : hexUnit? a b d e = some n)
    (hl : isLowSurrogate n = false) (hh : isHighSurrogate n = false) :
    readEscape ('u' :: a :: b :: d :: e :: s) = .ok (.ofNat n, s) := by
  simp [readEscape, readUnits, readUnit_cons h, ok_bind, hl, hh]

/-- The two halves of a pair are read as one character. -/
theorem readEscape_pair {a b d e a' b' d' e' : Char} {high low : Nat}
    (h : hexUnit? a b d e = some high) (hh : isHighSurrogate high = true)
    (h' : hexUnit? a' b' d' e' = some low) (hl : isLowSurrogate low = true) :
    readEscape ('u' :: a :: b :: d :: e :: '\\' :: 'u' :: a' :: b' :: d' :: e' :: s) =
      .ok (.ofNat (0x10000 + (high - 0xd800) * 0x400 + (low - 0xdc00)), s) := by
  simp [readEscape, readUnits, readUnit_cons h, readUnit_cons h', ok_bind, skipChar, skipWord, hh,
    hl, isLowSurrogate_of_isHighSurrogate hh]

/-- An escape of one letter is passed over. -/
theorem skipEscape_letter {x : Char} (h : (escapeLetter? x).isSome = true) :
    skipEscape (x :: s) = .ok s := by
  have hu : x ≠ 'u' := by
    rintro rfl
    cases h
  rw [skipEscape.eq_3 _ _ hu, if_pos h]

/-- A unit is passed over, be it half of a pair or not. -/
theorem skipEscape_unit {a b d e : Char} (h : (hexUnit? a b d e).isSome = true) :
    skipEscape ('u' :: a :: b :: d :: e :: s) = .ok s := by
  obtain ⟨n, hn⟩ := Option.isSome_iff_exists.1 h
  simp [skipEscape, readUnit_cons hn, Except.map]

/-! ## Reading a spelling -/

/-- Behind an escape a text is read on with its character. -/
theorem readText_escape {t : List Char} (h : readEscape t = .ok (c, s)) (acc : List Char) :
    readText acc ('\\' :: t) = readText (c :: acc) s := by
  rw [readText.eq_3]
  -- the escape has been read, so only the second case is left
  split
  · rename_i e he
    rw [h] at he
    cases he
  · rename_i d u hd
    rw [h] at hd
    cases hd
    rfl

/-- Behind an escape a text is passed over further. -/
theorem skipText_escape {t : List Char} (h : skipEscape t = .ok s) :
    skipText ('\\' :: t) = skipText s := by
  rw [skipText.eq_3]
  split
  · rename_i e he
    rw [h] at he
    cases he
  · rename_i u hu
    rw [h] at hu
    cases hu
    rfl

/-- A spelling of a character is read as that character. -/
theorem readText_of_spellsChar {w : List Char} (h : SpellsChar w c) (acc : List Char) :
    readText acc (w ++ s) = readText (c :: acc) s := by
  -- by the ways to write a character, of which all but the first are escapes
  cases h with
  | plain hq hb hc => rw [List.singleton_append, readText.eq_4 _ _ _ hq hb, if_neg (by omega)]
  | letter h => exact readText_escape (readEscape_letter h) acc
  | unit h hl hh => exact readText_escape (readEscape_unit h hl hh) acc
  | pair h hh h' hl => exact readText_escape (readEscape_pair h hh h' hl) acc

/-- What spells a text is read as that text, up to the quote that ends it. -/
theorem readText_of_spells {cs : List Char} (h : Spells s cs) (acc : List Char) :
    readText acc (s ++ '"' :: rest) = .ok (.ofList (acc.reverse ++ cs), rest) := by
  -- Induction on the spelling: a character that has been read goes to the front of the others.
  induction h generalizing acc with
  | nil => rw [List.nil_append, readText.eq_2, List.append_nil]
  | cons h hs ih =>
    rw [List.append_assoc, readText_of_spellsChar h, ih, List.reverse_cons, List.append_assoc,
      List.singleton_append]

/-- What spells a text is read as that text where nothing has been read before. -/
theorem readText_of_spells_toList {text : String} (h : Spells s text.toList) (rest : List Char) :
    readText [] (s ++ '"' :: rest) = .ok (text, rest) := by
  rw [readText_of_spells h, List.reverse_nil, List.nil_append, String.ofList_toList]

/-- A well-formed text is passed over, up to the quote that ends it. -/
theorem skipText_of_isText (h : IsText s) : skipText (s ++ '"' :: rest) = .ok rest := by
  -- Induction on the text, one written character after the other.
  induction h with
  | nil => rw [List.nil_append, skipText.eq_2]
  | plain hq hb hc hs ih =>
    rw [List.cons_append, skipText.eq_4 _ _ hq hb, if_neg (by omega), ih]
  | letter h hs ih => rw [← ih]; exact skipText_escape (skipEscape_letter h)
  | unit h hs ih => rw [← ih]; exact skipText_escape (skipEscape_unit h)

/-! ## The printed form -/

/-- The two digits that are printed for a control character are those of its number. -/
theorem hexUnit?_unitDigits {n : Nat} (h : n < 0x20) :
    hexUnit? '0' '0' (Nat.digitChar (n / 16 % 16)) (Nat.digitChar (n % 16)) = some n := by
  -- there are 32 of them
  revert n
  decide

/-- The printed form of a character spells it. -/
theorem spellsChar_escape (c : Char) : SpellsChar (escape c) c := by
  unfold escape
  split
  case h_8 hq hb _ _ _ _ _ =>
    split
    · rename_i hc
      -- a control character is a unit by itself, and is its number
      have hunit := SpellsChar.unit (hexUnit?_unitDigits hc)
        (by simp [isLowSurrogate]; omega) (by simp [isHighSurrogate]; omega)
      rwa [Char.ofNat_toNat] at hunit
    · rename_i hc
      exact .plain hq hb (by omega)
  all_goals exact .letter rfl

/-- The printed form of a text spells it. -/
theorem spells_escape (cs : List Char) : Spells (cs.flatMap escape) cs := by
  induction cs with
  | nil => exact .nil
  | cons c cs ih => exact .cons (spellsChar_escape c) ih

/-- The printed form of a text is read as that text. -/
theorem readText_quote (text : String) :
    readText [] (text.toList.flatMap escape ++ '"' :: rest) = .ok (text, rest) :=
  readText_of_spells_toList (spells_escape _) rest

end ConfigArea.Json
