import ConfigArea.Json.Number

/-!
# Values that nobody asked for

A member that no one knows is passed over: its value has to be well formed and is not read. Nesting
may be of any depth, so the containers that are open are kept in a list, innermost first.

* `length_skipValue`: what is left after a value is shorter
-/

namespace ConfigArea.Json

/-- A container that is open. -/
inductive Bracket where
  | list
  | object
  deriving DecidableEq

/-- The character that closes a container. -/
def Bracket.closer : Bracket → Char
  | list => ']'
  | object => '}'

/-- Pass over the colon between a key and its value. -/
def skipColon (s : List Char) : Except Fault (List Char) :=
  skipChar ':' (skipBlank s)

/-- Pass over a key and its colon. -/
def skipKey (s : List Char) : Except Fault (List Char) := do
  let s ← skipChar '"' (skipBlank s)
  let s ← skipText s
  skipColon s

/-- Pass over a value that is no container. -/
def skipScalar : List Char → Except Fault (List Char)
  | [] => .error .ended
  | 'n' :: s => skipWord ['u', 'l', 'l'] s
  | 't' :: s => skipWord ['r', 'u', 'e'] s
  | 'f' :: s => skipWord ['a', 'l', 's', 'e'] s
  | '"' :: s => skipText s
  | c :: s =>
    if c == '-' || c.isDigit then (Numeral.scan .malformed (c :: s)).map (·.2)
    else .error .malformed

/-- Close the containers that end after a value, given those that are open. Either all are closed,
or a comma announces another value in the innermost one left open. -/
def closeBrackets : (brackets : List Bracket) → List Char →
    Except Fault (Option (List Bracket) × List Char)
  | [], s => .ok (none, s)
  | b :: brackets, s =>
    match skipBlank s with
    | [] => .error .ended
    | c :: s =>
      -- behind a comma another value is due
      if c = ',' then
        match b with
        | .list => .ok (some (b :: brackets), s)
        | .object => (skipKey s).map fun s => (some (b :: brackets), s)
      else if c = b.closer then closeBrackets brackets s
      else .error .malformed

/-- What is left after a colon is shorter. -/
theorem length_skipColon {s r : List Char} (h : skipColon s = .ok r) : r.length < s.length := by
  have := length_skipWord h
  have := length_skipBlank_le s
  simp only [List.length_cons, List.length_nil] at *
  omega

/-- What is left after a key and its colon is shorter. -/
theorem length_skipKey {s r : List Char} (h : skipKey s = .ok r) : r.length < s.length := by
  simp only [skipKey, bind_eq_ok] at h
  obtain ⟨s₁, h₁, s₂, h₂, h₃⟩ := h
  have := length_skipWord h₁
  have := length_skipText h₂
  have := length_skipColon h₃
  have := length_skipBlank_le s
  omega

/-- What is left after a value that is no container is shorter. -/
theorem length_skipScalar {s r : List Char} (h : skipScalar s = .ok r) : r.length < s.length := by
  rw [skipScalar.eq_def] at h
  -- the words, a text, and a numeral, which starts with a sign or a digit
  split at h
  · simp at h
  · have := length_skipWord h
    simp only [List.length_cons]
    omega
  · have := length_skipWord h
    simp only [List.length_cons]
    omega
  · have := length_skipWord h
    simp only [List.length_cons]
    omega
  · have := length_skipText h
    simp only [List.length_cons]
    omega
  · split at h
    · obtain ⟨p, hp, rfl⟩ := map_eq_ok.1 h
      exact Numeral.length_scan (n := p.1) hp
    · simp at h

/-- What is left after the ends of containers is not longer. -/
theorem length_closeBrackets_le {brackets : List Bracket} {s r : List Char}
    {o : Option (List Bracket)} (h : closeBrackets brackets s = .ok (o, r)) :
    r.length ≤ s.length := by
  induction brackets generalizing s with
  | nil =>
    simp only [closeBrackets, Except.ok.injEq, Prod.mk.injEq] at h
    exact h.2 ▸ Nat.le_refl _
  | cons b brackets ih =>
    have hs := length_skipBlank_le s
    rw [closeBrackets] at h
    split at h
    · simp at h
    · rename_i c t ht
      rw [ht, List.length_cons] at hs
      split at h
      · split at h
        · simp only [Except.ok.injEq, Prod.mk.injEq] at h
          rw [← h.2]
          omega
        · obtain ⟨u, hu, he⟩ := map_eq_ok.1 h
          have := length_skipKey hu
          simp only [Prod.mk.injEq] at he
          rw [← he.2]
          omega
      · -- a comma, behind which an object has its next key
        split at h
        · have := ih h
          omega
        · simp at h

/-- What a value leaves: the containers that it opens, or else what follows it. -/
inductive Opened where
  /-- a value is due in the innermost container -/
  | container (bracket : Bracket)
  /-- the value is complete -/
  | complete

/-- Pass over a value, or over the start of a container up to its first value. -/
def skipStart (s : List Char) : Except Fault (Opened × List Char) :=
  match skipBlank s with
  | '[' :: s =>
    match skipBlank s with
    | ']' :: s => .ok (.complete, s)
    | s => .ok (.container .list, s)
  | '\x7b' :: s =>
    match skipBlank s with
    | '\x7d' :: s => .ok (.complete, s)
    | s => (skipKey s).map fun s => (.container .object, s)
  | s => (skipScalar s).map fun s => (.complete, s)

/-- What is left after a value or after the start of a container is shorter. -/
theorem length_skipStart {s r : List Char} {o : Opened} (h : skipStart s = .ok (o, r)) :
    r.length < s.length := by
  have hs := length_skipBlank_le s
  rw [skipStart] at h
  split at h
  · -- a list, which ends at once or goes on with its first value
    rename_i t ht
    have hb := length_skipBlank_le t
    rw [ht, List.length_cons] at hs
    split at h
    · rename_i u hu
      simp only [Except.ok.injEq, Prod.mk.injEq] at h
      rw [hu, List.length_cons, h.2] at hb
      omega
    · simp only [Except.ok.injEq, Prod.mk.injEq] at h
      rw [h.2] at hb
      omega
  · -- an object, which ends at once or goes on with its first key
    rename_i t ht
    have hb := length_skipBlank_le t
    rw [ht, List.length_cons] at hs
    split at h
    · rename_i u hu
      simp only [Except.ok.injEq, Prod.mk.injEq] at h
      rw [hu, List.length_cons, h.2] at hb
      omega
    · obtain ⟨u, hu, he⟩ := map_eq_ok.1 h
      have := length_skipKey hu
      simp only [Prod.mk.injEq] at he
      rw [← he.2]
      omega
  · -- a value that is no container
    obtain ⟨u, hu, he⟩ := map_eq_ok.1 h
    have := length_skipScalar hu
    simp only [Prod.mk.injEq] at he
    rw [← he.2]
    omega

/-- Pass over a value inside the containers that are open, and over all that is left of them. -/
def skipOpen (brackets : List Bracket) (s : List Char) : Except Fault (List Char) :=
  match _h : skipStart s with
  | .error e => .error e
  -- a container was opened: its first value is due
  | .ok (.container b, s) => skipOpen (b :: brackets) s
  | .ok (.complete, s) =>
    match _h' : closeBrackets brackets s with
    | .error e => .error e
    | .ok (none, s) => .ok s
    | .ok (some brackets, s) => skipOpen brackets s
termination_by s.length
decreasing_by
  · exact length_skipStart _h
  · exact Nat.lt_of_le_of_lt (length_closeBrackets_le _h') (length_skipStart _h)

/-- Pass over a value. -/
def skipValue (s : List Char) : Except Fault (List Char) :=
  skipOpen [] s

/-- What is left after a value and all that is open around it is shorter. -/
theorem length_skipOpen {brackets : List Bracket} {s r : List Char}
    (h : skipOpen brackets s = .ok r) : r.length < s.length := by
  fun_induction skipOpen brackets s with
  | case1 => simp at h
  | case2 brackets s b t ht ih => exact Nat.lt_trans (ih h) (length_skipStart ht)
  | case3 => simp at h
  -- behind a value the brackets around it are closed, and what is left is no longer
  | case4 brackets s t ht u hu =>
    simp only [Except.ok.injEq] at h
    exact h ▸ Nat.lt_of_le_of_lt (length_closeBrackets_le hu) (length_skipStart ht)
  | case5 brackets s t ht brackets' u hu ih =>
    exact Nat.lt_trans (ih h)
      (Nat.lt_of_le_of_lt (length_closeBrackets_le hu) (length_skipStart ht))

/-- What is left after a value is shorter. -/
theorem length_skipValue {s r : List Char} (h : skipValue s = .ok r) : r.length < s.length :=
  length_skipOpen h

end ConfigArea.Json
