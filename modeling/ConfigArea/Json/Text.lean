import ConfigArea.Outcome

/-!
# Characters and texts of JSON

The lowest level of reading JSON: blanks, literal words and quoted texts. Reading goes from left to
right over the characters that are left, and the first fault met is the one reported.

A quoted text is read in two ways. As a value its escapes are decoded, and a surrogate must be one
half of a pair. A text that nobody asked for is only passed over: its escapes must be well formed.

* `length_readEscape`, `length_skipText`: what is left after an escape or a text is shorter
-/

namespace ConfigArea.Json

/-- What is wrong with a JSON text. -/
inductive Fault where
  /-- it ends too soon -/
  | ended
  /-- it is not JSON -/
  | malformed
  /-- it is JSON of another type, out of range, or with a missing or repeated member -/
  | mismatch
  deriving DecidableEq

/-- Whether a character may stand between tokens. -/
def isBlank (c : Char) : Bool :=
  c == ' ' || c == '\n' || c == '\t' || c == '\r'

/-- Pass over blanks. -/
def skipBlank (s : List Char) : List Char :=
  s.dropWhile isBlank

/-- Pass over the given characters. -/
def skipWord : (word : List Char) → List Char → Except Fault (List Char)
  | [], s => .ok s
  | _ :: _, [] => .error .ended
  | w :: word, c :: s => if w = c then skipWord word s else .error .malformed

/-- The value of a hexadecimal digit. -/
def hexDigit? (c : Char) : Option Nat :=
  if '0' ≤ c ∧ c ≤ '9' then some (c.toNat - '0'.toNat)
  else if 'a' ≤ c ∧ c ≤ 'f' then some (c.toNat - 'a'.toNat + 10)
  else if 'A' ≤ c ∧ c ≤ 'F' then some (c.toNat - 'A'.toNat + 10)
  else none

/-- The number that four hexadecimal digits stand for. -/
def hexUnit? (a b c d : Char) : Option Nat := do
  let a ← hexDigit? a
  let b ← hexDigit? b
  let c ← hexDigit? c
  let d ← hexDigit? d
  return ((a * 16 + b) * 16 + c) * 16 + d

/-- Whether fewer than four bytes are left. -/
def fewerThanFourBytes (s : List Char) : Bool :=
  s.foldl (fun n c => n + c.utf8Size) 0 < 4

/-- The number that the next four characters stand for. With fewer than four bytes left the text
has ended, whatever they are. -/
def readUnit (s : List Char) : Except Fault (Nat × List Char) :=
  match s with
  | a :: b :: c :: d :: r =>
    match hexUnit? a b c d with
    | some n => .ok (n, r)
    | none => .error .malformed
  | s => .error (if fewerThanFourBytes s then .ended else .malformed)

/-- Pass over one character, which must be `c`. -/
def skipChar (c : Char) : List Char → Except Fault (List Char) :=
  skipWord [c]

/-- The character that an escape of one letter stands for. -/
def escapeLetter? : Char → Option Char
  | '"' => some '"'
  | '\\' => some '\\'
  | '/' => some '/'
  | 'b' => some '\x08'
  | 'f' => some '\x0c'
  | 'n' => some '\n'
  | 'r' => some '\r'
  | 't' => some '\t'
  | _ => none

/-- Whether a UTF-16 unit is the first half of a pair. -/
def isHighSurrogate (n : Nat) : Bool :=
  0xd800 ≤ n && n ≤ 0xdbff

/-- Whether a UTF-16 unit is the second half of a pair. -/
def isLowSurrogate (n : Nat) : Bool :=
  0xdc00 ≤ n && n ≤ 0xdfff

/-- The character of an escaped UTF-16 unit, or of a pair of them. -/
def readUnits (s : List Char) : Except Fault (Char × List Char) := do
  let (high, s) ← readUnit s
  -- a second half cannot come first
  if isLowSurrogate high then .error .malformed
  else if isHighSurrogate high then
    -- the other half has to follow at once
    let s ← skipChar '\\' s
    let s ← skipChar 'u' s
    let (low, s) ← readUnit s
    if isLowSurrogate low then
      .ok (.ofNat (0x10000 + (high - 0xd800) * 0x400 + (low - 0xdc00)), s)
    else .error .malformed
  else .ok (.ofNat high, s)

/-- The character of an escape, from the character after the backslash on. -/
def readEscape : List Char → Except Fault (Char × List Char)
  | [] => .error .ended
  | 'u' :: s => readUnits s
  | c :: s =>
    match escapeLetter? c with
    | some d => .ok (d, s)
    | none => .error .malformed

/-- Pass over an escape, from the character after the backslash on. -/
def skipEscape : List Char → Except Fault (List Char)
  | [] => .error .ended
  | 'u' :: s => (readUnit s).map (·.2)
  | c :: s => if (escapeLetter? c).isSome then .ok s else .error .malformed

/-- What is left after a word is shorter by the length of the word. -/
theorem length_skipWord {w s r : List Char} (h : skipWord w s = .ok r) :
    r.length + w.length = s.length := by
  fun_induction skipWord w s with
  | case1 => simp_all
  | case2 => simp at h
  | case3 word c s ih => simp only [List.length_cons]; have := ih h; omega
  | case4 => simp at h

/-- What is left after the digits of a unit is shorter. -/
theorem length_readUnit {s r : List Char} {n : Nat} (h : readUnit s = .ok (n, r)) :
    r.length < s.length := by
  rw [readUnit.eq_def] at h
  split at h
  · split at h
    · simp only [Except.ok.injEq, Prod.mk.injEq] at h
      simp only [List.length_cons, ← h.2]
      omega
    · simp at h
  · simp at h

/-- What is left after a unit or a pair of units is shorter. -/
theorem length_readUnits {s r : List Char} {c : Char} (h : readUnits s = .ok (c, r)) :
    r.length < s.length := by
  simp only [readUnits, bind_eq_ok] at h
  obtain ⟨⟨high, s₁⟩, h₁, h⟩ := h
  have l₁ := length_readUnit h₁
  split at h
  · simp at h
  · -- a unit that is the first half of a pair, or a character of its own
    split at h
    · simp only [bind_eq_ok] at h
      obtain ⟨s₂, h₂, s₃, h₃, ⟨low, s₄⟩, h₄, h⟩ := h
      have l₂ := length_skipWord h₂
      have l₃ := length_skipWord h₃
      have l₄ := length_readUnit h₄
      split at h
      · simp only [Except.ok.injEq, Prod.mk.injEq] at h
        rw [← h.2]
        omega
      · simp at h
    · simp only [Except.ok.injEq, Prod.mk.injEq] at h
      rwa [← h.2]

/-- What is left after an escape is shorter. -/
theorem length_readEscape {s r : List Char} {c : Char} (h : readEscape s = .ok (c, r)) :
    r.length < s.length := by
  rw [readEscape.eq_def] at h
  split at h
  · simp at h
  · -- a character by its number
    have := length_readUnits h
    simp only [List.length_cons]
    omega
  · -- a character by its letter
    split at h
    · simp only [Except.ok.injEq, Prod.mk.injEq] at h
      simp only [List.length_cons, ← h.2]
      omega
    · simp at h

/-- What is left after an escape that is passed over is shorter. -/
theorem length_skipEscape {s r : List Char} (h : skipEscape s = .ok r) : r.length < s.length := by
  rw [skipEscape.eq_def] at h
  -- the four digits of a unit, or one letter
  split at h
  · simp at h
  · obtain ⟨p, hp, rfl⟩ := map_eq_ok.1 h
    have := length_readUnit (n := p.1) hp
    simp only [List.length_cons]
    omega
  · split at h
    · simp only [Except.ok.injEq] at h
      simp only [List.length_cons, ← h]
      omega
    · simp at h

/-- Read a text from behind its opening quote on; `acc` holds what was read so far, last character
first. -/
def readText (acc : List Char) (s : List Char) : Except Fault (String × List Char) :=
  match s with
  | [] => .error .ended
  | '"' :: s => .ok (.ofList acc.reverse, s)
  | '\\' :: s =>
    match _h : readEscape s with
    | .error e => .error e
    | .ok (c, s) => readText (c :: acc) s
  | c :: s => if c.toNat < 0x20 then .error .malformed else readText (c :: acc) s
termination_by s.length
decreasing_by
  · have := length_readEscape _h
    simp only [List.length_cons]
    omega
  · simp

/-- Pass over a text from behind its opening quote on. -/
def skipText (s : List Char) : Except Fault (List Char) :=
  match s with
  | [] => .error .ended
  | '"' :: s => .ok s
  | '\\' :: s =>
    match _h : skipEscape s with
    | .error e => .error e
    | .ok s => skipText s
  | c :: s => if c.toNat < 0x20 then .error .malformed else skipText s
termination_by s.length
decreasing_by
  · have := length_skipEscape _h
    simp only [List.length_cons]
    omega
  · simp

/-- What is left after a text that is read is shorter. -/
theorem length_readText {acc s r : List Char} {t : String} (h : readText acc s = .ok (t, r)) :
    r.length < s.length := by
  fun_induction readText acc s with
  | case1 => simp at h
  | case2 => simp_all
  | case3 => simp at h
  | case4 acc s c s' he ih =>
    -- an escape, then the rest of the text
    have := ih h
    have := length_readEscape he
    simp only [List.length_cons]
    omega
  | case5 => simp at h
  | case6 acc c s hq hb hc ih =>
    -- a character that stands for itself, then the rest of the text
    have := ih h
    simp only [List.length_cons]
    omega

/-- What is left after a text that is passed over is shorter. -/
theorem length_skipText {s r : List Char} (h : skipText s = .ok r) : r.length < s.length := by
  -- what is left is taken from behind a quote, an escape or a character
  fun_induction skipText s with
  | case1 => simp at h
  | case2 s => simp_all
  | case3 s e he => simp at h
  | case4 s r' he ih =>
    have := ih h
    have := length_skipEscape he
    simp only [List.length_cons]
    omega
  | case5 => simp at h
  | case6 c s hq hb hc ih =>
    have := ih h
    simp only [List.length_cons]
    omega

/-- What is left after blanks is not longer. -/
theorem length_skipBlank_le (s : List Char) : (skipBlank s).length ≤ s.length :=
  (List.dropWhile_suffix _).length_le

end ConfigArea.Json
