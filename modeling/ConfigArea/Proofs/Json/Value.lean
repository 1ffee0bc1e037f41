import ConfigArea.Json.Skip
import ConfigArea.Proofs.Json.Number

/-!
# Values that are passed over

A value that nobody asked for only has to be well formed. This file gives the grammar of well-formed
values, with blanks wherever they may stand and with nesting of any depth, and shows that each of
them is passed over to its end, whatever containers it stands in.

## Key results

- `IsJson`: the grammar
- `resume_closer`, `resume_comma`: what the containers that are open do with what follows a value
- `passed_of_isJson`: inside any containers a part is passed over, and they go on behind it
- `skipValue_of_isJson`: a value is passed over to its end
-/

namespace ConfigArea.Json

/-- What JSON is made of. -/
inductive Part where
  | value
  /-- what stands in a list that is not empty -/
  | items
  /-- what stands in an object that is not empty -/
  | members

/-- The well-formed parts of a text: a value stands between its first and its last character, items
and members between the brackets of their container. -/
inductive IsJson : Part → List Char → Prop where
  | null : IsJson .value ['n', 'u', 'l', 'l']
  | true : IsJson .value ['t', 'r', 'u', 'e']
  | false : IsJson .value ['f', 'a', 'l', 's', 'e']
  | numeral {s : List Char} (h : IsNumeral s) : IsJson .value s
  | text {s : List Char} (h : IsText s) : IsJson .value ('"' :: (s ++ ['"']))
  | emptyList {ws : List Char} (h : Blank ws) : IsJson .value ('[' :: (ws ++ [']']))
  | list {s : List Char} (h : IsJson .items s) : IsJson .value ('[' :: (s ++ [']']))
  | emptyObject {ws : List Char} (h : Blank ws) : IsJson .value ('{' :: (ws ++ ['}']))
  | object {s : List Char} (h : IsJson .members s) : IsJson .value ('{' :: (s ++ ['}']))
  | item {ws s ws' : List Char} (hws : Blank ws) (hs : IsJson .value s) (hws' : Blank ws') :
      IsJson .items (ws ++ (s ++ ws'))
  | items {ws s ws' t : List Char} (hws : Blank ws) (hs : IsJson .value s) (hws' : Blank ws')
      (ht : IsJson .items t) : IsJson .items (ws ++ (s ++ (ws' ++ ',' :: t)))
  | member {ws k wk wv s ws' : List Char} (hws : Blank ws) (hk : IsText k) (hwk : Blank wk)
      (hwv : Blank wv) (hs : IsJson .value s) (hws' : Blank ws') :
      IsJson .members (ws ++ '"' :: (k ++ '"' :: (wk ++ ':' :: (wv ++ (s ++ ws')))))
  | members {ws k wk wv s ws' t : List Char} (hws : Blank ws) (hk : IsText k) (hwk : Blank wk)
      (hwv : Blank wv) (hs : IsJson .value s) (hws' : Blank ws') (ht : IsJson .members t) :
      IsJson .members
        (ws ++ '"' :: (k ++ '"' :: (wk ++ ':' :: (wv ++ (s ++ (ws' ++ ',' :: t))))))

variable {ws s rest : List Char} {c : Char} {brackets : List Bracket}

/-! ## Containers that are open -/

/-- What is left after the containers that are open, from behind a value in the innermost one on. -/
def resume (brackets : List Bracket) (s : List Char) : Except Fault (List Char) :=
  match closeBrackets brackets s with
  | .error e => .error e
  | .ok (none, s) => .ok s
  | .ok (some brackets, s) => skipOpen brackets s

/-- Behind a value that is complete the containers around it go on. -/
theorem skipOpen_of_complete (h : skipStart s = .ok (.complete, rest)) :
    skipOpen brackets s = resume brackets rest := by
  -- the start is known, so only the third case is left
  rw [skipOpen, resume]
  split
  · rename_i e he
    rw [h] at he
    cases he
  · rename_i b t ht
    rw [h] at ht
    cases ht
  · rename_i t ht
    rw [h] at ht
    cases ht
    split
    · rename_i e he
      rw [he]
    · rename_i u hu
      rw [hu]
    · rename_i b u hu
      rw [hu]

/-- A value that opens a container is passed over inside of it. -/
theorem skipOpen_of_container {b : Bracket} (h : skipStart s = .ok (.container b, rest)) :
    skipOpen brackets s = skipOpen (b :: brackets) rest := by
  -- the start is known, so only the second case is left
  rw [skipOpen]
  split
  · rename_i e he
    rw [h] at he
    cases he
  · rename_i b t ht
    rw [h] at ht
    cases ht
    rfl
  · rename_i t ht
    rw [h] at ht
    cases ht

/-- Behind the closing bracket the containers around it go on. -/
theorem resume_closer {b : Bracket} (hws : Blank ws) :
    resume (b :: brackets) (ws ++ b.closer :: s) = resume brackets s := by
  -- a closing bracket is neither a blank nor a comma
  have hblank : isBlank b.closer = false := by cases b <;> rfl
  have hcomma : b.closer ≠ ',' := by cases b <;> decide
  rw [resume, resume, closeBrackets, skipBlank_append hws, skipBlank_cons hblank]
  dsimp only
  rw [if_neg hcomma, if_pos rfl]

/-- Behind a comma another value is due, in an object behind its key. -/
theorem resume_comma (b : Bracket) (hws : Blank ws)
    (h : b = .object → skipKey s = .ok rest) (h' : b = .list → s = rest) :
    resume (b :: brackets) (ws ++ ',' :: s) = skipOpen (b :: brackets) rest := by
  rw [resume, closeBrackets, skipBlank_append hws, skipBlank_cons (by decide)]
  dsimp only
  rw [if_pos rfl]
  cases b with
  | list => rw [h' rfl]
  | object =>
    dsimp only
    rw [h rfl]
    rfl

/-- A key is passed over, and the colon behind it. -/
theorem skipKey_append {k wk : List Char} (hws : Blank ws) (hk : IsText k) (hwk : Blank wk) :
    skipKey (ws ++ '"' :: (k ++ '"' :: (wk ++ ':' :: s))) = .ok s := by
  rw [skipKey, skipBlank_append hws, skipBlank_cons (by decide)]
  simp [skipChar, skipWord, ok_bind, skipText_of_isText hk, skipColon, hwk,
    skipBlank_cons (c := ':') (by decide)]

/-! ## Values -/

/-- Blanks before a value are passed over. -/
theorem skipOpen_append (hws : Blank ws) : skipOpen brackets (ws ++ s) = skipOpen brackets s := by
  have hstart : skipStart (ws ++ s) = skipStart s := by
    rw [skipStart, skipStart, skipBlank_append hws]
  rw [skipOpen, skipOpen, hstart]

/-- Blanks before a value may be dropped. -/
theorem skipOpen_skipBlank : skipOpen brackets (skipBlank s) = skipOpen brackets s := by
  obtain ⟨ws, hws, hs⟩ := exists_blank_append s
  conv => rhs; rw [← hs, skipOpen_append hws]

/-- Blanks before a key may be dropped. -/
theorem skipKey_skipBlank : skipKey (skipBlank s) = skipKey s := by
  obtain ⟨ws, hws, hs⟩ := exists_blank_append s
  conv => rhs; rw [← hs]
  rw [skipKey, skipKey, skipBlank_append hws]

/-- A value that is no container is complete where it ends. -/
theorem skipOpen_of_skipScalar (h : skipScalar (c :: s) = .ok rest) (hblank : isBlank c = false)
    (hlist : c ≠ '[') (hobject : c ≠ '{') :
    skipOpen brackets (c :: s) = resume brackets rest := by
  apply skipOpen_of_complete
  -- neither bracket opens a container
  rw [skipStart, skipBlank_cons hblank]
  split
  · rename_i t heq
    exact absurd (List.cons.inj heq).1 hlist
  · rename_i t heq
    exact absurd (List.cons.inj heq).1 hobject
  · rw [h]
    rfl

/-- An empty list is passed over. -/
theorem skipOpen_emptyList (hws : Blank ws) :
    skipOpen brackets ('[' :: (ws ++ ']' :: rest)) = resume brackets rest := by
  apply skipOpen_of_complete
  simp [skipStart, hws, skipBlank_cons (c := '[') rfl, skipBlank_cons (c := ']') rfl]

/-- An empty object is passed over. -/
theorem skipOpen_emptyObject (hws : Blank ws) :
    skipOpen brackets ('{' :: (ws ++ '}' :: rest)) = resume brackets rest := by
  apply skipOpen_of_complete
  simp [skipStart, hws, skipBlank_cons (c := '{') rfl, skipBlank_cons (c := '}') rfl]

/-- Behind the bracket of a list that is not empty its first item is due. -/
theorem skipOpen_list {t : List Char} (h : skipBlank s = c :: t) (hc : c ≠ ']') :
    skipOpen brackets ('[' :: s) = skipOpen (.list :: brackets) s := by
  rw [← skipOpen_skipBlank (s := s), h]
  apply skipOpen_of_container
  simp [skipStart, skipBlank_cons (c := '[') rfl, h, hc]

/-- Behind the brace of an object that is not empty the value of its first member is due. -/
theorem skipOpen_object {t r : List Char} (h : skipBlank s = '"' :: t) (hkey : skipKey s = .ok r) :
    skipOpen brackets ('{' :: s) = skipOpen (.object :: brackets) r := by
  apply skipOpen_of_container
  rw [← skipKey_skipBlank, h] at hkey
  simp [skipStart, skipBlank_cons (c := '{') rfl, h, hkey, Except.map]

/-- Numbers start with a sign or a digit. -/
theorem exists_cons_of_isNumeral (h : IsNumeral s) :
    ∃ c t, s = c :: t ∧ (c == '-' || c.isDigit) = true := by
  cases h with
  | mk hsign hwhole hfraction hexponent =>
    rcases hsign with rfl | rfl
    · obtain ⟨c, t, rfl, hc⟩ := hwhole.1.exists_cons
      exact ⟨c, _, rfl, by rw [hc, Bool.or_true]⟩
    · exact ⟨'-', _, rfl, rfl⟩

/-- What starts a number differs from what starts none. -/
theorem ne_of_startsNumeral {d : Char} (h : (c == '-' || c.isDigit) = true)
    (hd : (d == '-' || d.isDigit) = false) : c ≠ d := by
  rintro rfl
  rw [h] at hd
  cases hd

/-- What passing over a part of a text comes to: a value is followed by what the containers around
it make of what follows; items and members are followed by that behind their container. -/
def Passed : Part → List Char → Prop
  | .value, s => (∃ c t, s = c :: t ∧ isBlank c = false ∧ c ≠ ']') ∧
      ∀ brackets rest, Ends rest → skipOpen brackets (s ++ rest) = resume brackets rest
  | .items, s => (∃ c t, skipBlank s = c :: t ∧ c ≠ ']') ∧
      ∀ brackets rest, skipOpen (.list :: brackets) (s ++ ']' :: rest) = resume brackets rest
  | .members, s => (∃ t, skipBlank s = '"' :: t) ∧
      ∀ brackets rest, ∃ r, skipKey (s ++ '}' :: rest) = .ok r ∧
        skipOpen (.object :: brackets) r = resume brackets rest

/-- A value that is no container is passed over if it is read to its end. -/
theorem passed_of_skipScalar (hblank : isBlank c = false) (hlist : c ≠ '[') (hcloser : c ≠ ']')
    (hobject : c ≠ '{') (h : ∀ rest, Ends rest → skipScalar (c :: (s ++ rest)) = .ok rest) :
    Passed .value (c :: s) :=
  ⟨⟨c, s, rfl, hblank, hcloser⟩, fun _ rest hrest =>
    skipOpen_of_skipScalar (h rest hrest) hblank hlist hobject⟩

/-- A number is passed over. -/
theorem passed_numeral (h : IsNumeral s) : Passed .value s := by
  obtain ⟨c, t, rfl, hc⟩ := exists_cons_of_isNumeral h
  have hne (d : Char) (hd : (d == '-' || d.isDigit) = false) := ne_of_startsNumeral hc hd
  -- the first character is neither a bracket nor a blank, nor the letter of a word
  refine passed_of_skipScalar ?_ (hne _ rfl) (hne _ rfl) (hne _ rfl) fun rest hrest => ?_
  · simp [isBlank, hne ' ' rfl, hne '\n' rfl, hne '\t' rfl, hne '\r' rfl]
  · obtain ⟨n, hn⟩ := Numeral.scan_of_isNumeral .malformed h hrest
    rw [List.cons_append] at hn
    rw [skipScalar.eq_6 _ _ (hne _ rfl) (hne _ rfl) (hne _ rfl) (hne _ rfl), if_pos hc, hn]
    rfl

/-- Every well-formed part of a text is passed over. -/
theorem passed_of_isJson {part : Part} (h : IsJson part s) : Passed part s := by
  -- Induction on the grammar: brackets are opened by the value that starts with them, and closed by
  -- what follows its last item or member.
  induction h with
  | null => exact passed_of_skipScalar rfl (by decide) (by decide) (by decide) fun _ _ => rfl
  | true => exact passed_of_skipScalar rfl (by decide) (by decide) (by decide) fun _ _ => rfl
  | false => exact passed_of_skipScalar rfl (by decide) (by decide) (by decide) fun _ _ => rfl
  | numeral h => exact passed_numeral h
  | @text s h =>
    refine passed_of_skipScalar rfl (by decide) (by decide) (by decide) fun rest _ => ?_
    rw [List.append_assoc, List.singleton_append]
    exact skipText_of_isText h
  | @emptyList ws h =>
    refine ⟨⟨'[', _, rfl, rfl, by decide⟩, fun brackets rest _ => ?_⟩
    simpa using skipOpen_emptyList h
  | @list s h ih =>
    -- the items close the list
    obtain ⟨⟨c, t, hs, hc⟩, hitems⟩ := ih
    refine ⟨⟨'[', _, rfl, rfl, by decide⟩, fun brackets rest _ => ?_⟩
    rw [List.cons_append, List.append_assoc, List.singleton_append,
      skipOpen_list (skipBlank_append_of_eq_cons hs _) hc]
    exact hitems brackets rest
  | @emptyObject ws h =>
    refine ⟨⟨'{', _, rfl, rfl, by decide⟩, fun brackets rest _ => ?_⟩
    simpa using skipOpen_emptyObject h
  | @object s h ih =>
    -- the value of the first member is due behind its key, and the members close the object
    obtain ⟨⟨t, hs⟩, hmembers⟩ := ih
    refine ⟨⟨'{', _, rfl, rfl, by decide⟩, fun brackets rest _ => ?_⟩
    obtain ⟨r, hkey, hr⟩ := hmembers brackets rest
    rw [List.cons_append, List.append_assoc, List.singleton_append,
      skipOpen_object (skipBlank_append_of_eq_cons hs _) hkey]
    exact hr
  | @item ws s ws' hws h hws' ih =>
    -- the last value is followed by the closing bracket
    obtain ⟨⟨c, t, rfl, hblank, hc⟩, hvalue⟩ := ih
    refine ⟨⟨c, _, by rw [skipBlank_append hws, List.cons_append, skipBlank_cons hblank], hc⟩,
      fun brackets rest => ?_⟩
    have hends : Ends (ws' ++ ']' :: rest) := Ends.append (by simp) hws'
    rw [List.append_assoc, List.append_assoc, skipOpen_append hws, hvalue _ _ hends]
    exact resume_closer hws'
  | @items ws s ws' u hws h hws' hu ih ihu =>
    -- a value is followed by a comma, behind which the items after it are due
    obtain ⟨⟨c, t, rfl, hblank, hc⟩, hvalue⟩ := ih
    refine ⟨⟨c, _, by rw [skipBlank_append hws, List.cons_append, skipBlank_cons hblank], hc⟩,
      fun brackets rest => ?_⟩
    have hends : Ends (ws' ++ ',' :: (u ++ ']' :: rest)) := Ends.append (by simp) hws'
    simp only [List.append_assoc, List.cons_append] at hvalue ⊢
    rw [skipOpen_append hws, hvalue _ _ hends, resume_comma .list hws' nofun fun _ => rfl]
    exact ihu.2 brackets rest
  | @member ws k wk wv s ws' hws hk hwk hwv h hws' ih =>
    -- the key, and then as for the last item
    refine ⟨⟨_, by rw [skipBlank_append hws, skipBlank_cons rfl]⟩, fun brackets rest => ?_⟩
    have hends : Ends (ws' ++ '}' :: rest) := Ends.append (by simp) hws'
    simp only [List.append_assoc, List.cons_append]
    refine ⟨_, skipKey_append hws hk hwk, ?_⟩
    rw [skipOpen_append hwv, ih.2 _ _ hends]
    exact resume_closer hws'
  | @members ws k wk wv s ws' u hws hk hwk hwv h hws' hu ih ihu =>
    -- the key, the value, and the key of the next member behind the comma
    refine ⟨⟨_, by rw [skipBlank_append hws, skipBlank_cons rfl]⟩, fun brackets rest => ?_⟩
    have hends : Ends (ws' ++ ',' :: (u ++ '}' :: rest)) := Ends.append (by simp) hws'
    obtain ⟨r, hkey, hr⟩ := ihu.2 brackets rest
    simp only [List.append_assoc, List.cons_append]
    refine ⟨_, skipKey_append hws hk hwk, ?_⟩
    rw [skipOpen_append hwv, ih.2 _ _ hends, resume_comma .object hws' (fun _ => hkey) nofun]
    exact hr

/-- A well-formed value is passed over to its end, with the blanks before it. -/
theorem skipValue_of_isJson (h : IsJson .value s) (hws : Blank ws) (hrest : Ends rest) :
    skipValue (ws ++ (s ++ rest)) = .ok rest := by
  rw [skipValue, skipOpen_append hws, (passed_of_isJson h).2 _ _ hrest]
  rfl

end ConfigArea.Json
