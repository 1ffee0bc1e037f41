import ConfigArea.Json.Skip

/-!
# Readers

A reader takes a value of a known type from the characters that are left. It always takes a
character at least, which is part of its type, so that lists and objects are read without any bound
on their length.

A value of another type than the one wanted is read far enough to see whether it is JSON at all
(`refuse`).
-/

namespace ConfigArea.Json

/-- Reads a value from the characters that are left, and gives it with those left after it. -/
structure Reader (α : Type) where
  run : List Char → Except Fault (α × List Char)
  length_run : ∀ {s a r}, run s = .ok (a, r) → r.length < s.length

/-- Read a value and apply a function to it. -/
def Reader.map {α β : Type} (f : α → β) (reader : Reader α) : Reader β where
  run s := (reader.run s).map fun (a, s) => (f a, s)
  length_run h := by
    obtain ⟨⟨a, r⟩, ha, he⟩ := map_eq_ok.1 h
    simp only [Prod.mk.injEq] at he
    exact he.2 ▸ reader.length_run ha

/-- The fault of a value that is not of the type wanted: what is wrong with its first token, or else
its type. -/
def refuse (s : List Char) : Fault :=
  let after {α : Type} (token : Except Fault α) : Fault :=
    match token with
    | .error e => e
    | .ok _ => .mismatch
  match s with
  | 'n' :: s => after (skipWord ['u', 'l', 'l'] s)
  | 't' :: s => after (skipWord ['r', 'u', 'e'] s)
  | 'f' :: s => after (skipWord ['a', 'l', 's', 'e'] s)
  | '"' :: s => after (readText [] s)
  | '[' :: _ => .mismatch
  | '{' :: _ => .mismatch
  | c :: _ => if c == '-' || c.isDigit then after (readNumeral s) else .malformed
  | [] => .ended

/-- A value that starts with the character that is not a blank, or the fault of there being none. -/
def skipToValue (s : List Char) : Except Fault (Char × List Char) :=
  match skipBlank s with
  | [] => .error .ended
  | c :: s => .ok (c, s)

/-- What is left after the start of a value is shorter. -/
theorem length_skipToValue {s r : List Char} {c : Char} (h : skipToValue s = .ok (c, r)) :
    r.length < s.length := by
  have hs := length_skipBlank_le s
  rw [skipToValue] at h
  split at h
  · simp at h
  · rename_i d t ht
    simp only [Except.ok.injEq, Prod.mk.injEq] at h
    rw [ht, h.2, List.length_cons] at hs
    exact hs

/-- The value of a numeral as a natural number below `bound`. -/
def Numeral.below? (n : Numeral) (bound : Nat) : Option Nat :=
  n.natural?.filter (· < bound)

/-- Read a natural number below `bound`. -/
def readNat (bound : Nat) : Reader Nat where
  run s := do
    let (c, s) ← skipToValue s
    if c == '-' || c.isDigit then
      let (n, s) ← readNumeral (c :: s)
      match n.below? bound with
      | some value => .ok (value, s)
      | none => .error .mismatch
    else .error (refuse (c :: s))
  length_run {s a r} h := by
    simp only [bind_eq_ok] at h
    obtain ⟨⟨c, t⟩, ht, h⟩ := h
    have := length_skipToValue ht
    split at h
    · simp only [bind_eq_ok] at h
      obtain ⟨⟨n, u⟩, hu, h⟩ := h
      have := length_readNumeral hu
      rw [List.length_cons] at this
      -- what is left is left behind the numeral
      split at h
      · simp only [Except.ok.injEq, Prod.mk.injEq] at h
        rw [← h.2]
        omega
      · simp at h
    · simp at h

/-- Read a number of eight bits. -/
def readUInt8 : Reader UInt8 :=
  (readNat 0x100).map .ofNat

/-- Read a number of 32 bits. -/
def readUInt32 : Reader UInt32 :=
  (readNat 0x100000000).map .ofNat

/-- Read a number of 64 bits. -/
def readUInt64 : Reader UInt64 :=
  (readNat 0x10000000000000000).map .ofNat

/-- Read a text. -/
def readString : Reader String where
  run s := do
    let (c, s) ← skipToValue s
    if c = '"' then readText [] s else .error (refuse (c :: s))
  length_run h := by
    simp only [bind_eq_ok] at h
    obtain ⟨⟨c, t⟩, ht, h⟩ := h
    have := length_skipToValue ht
    split at h
    · exact Nat.lt_trans (length_readText h) this
    · simp at h

/-- Pass over null. -/
def skipNull (s : List Char) : Except Fault (List Char) := do
  let (c, s) ← skipToValue s
  if c = 'n' then skipWord ['u', 'l', 'l'] s else .error (refuse (c :: s))

/-- What is left after null is shorter. -/
theorem length_skipNull {s r : List Char} (h : skipNull s = .ok r) : r.length < s.length := by
  simp only [skipNull, bind_eq_ok] at h
  obtain ⟨⟨c, t⟩, ht, h⟩ := h
  have := length_skipToValue ht
  split at h
  · have hw := length_skipWord h
    dsimp only at hw
    omega
  · simp at h

/-- Read a value that may be null. -/
def readOption {α : Type} (value : Reader α) : Reader (Option α) where
  run s :=
    if (skipBlank s).head? = some 'n' then (skipNull s).map fun s => (none, s)
    else (value.map some).run s
  length_run h := by
    split at h
    · obtain ⟨t, ht, he⟩ := map_eq_ok.1 h
      simp only [Prod.mk.injEq] at he
      exact he.2 ▸ length_skipNull ht
    · exact (value.map some).length_run h

/-! ## Lists -/

/-- What follows inside the brackets of a list or object. -/
inductive Next where
  /-- the closing bracket, with the characters after it -/
  | closed (rest : List Char)
  /-- another value -/
  | value (rest : List Char)

/-- The characters that are left. -/
def Next.rest : Next → List Char
  | closed rest => rest
  | value rest => rest

/-- What follows the bracket that opens a list or object. -/
def afterOpening (closer : Char) (s : List Char) : Except Fault Next := do
  let (c, s) ← skipToValue s
  return if c = closer then .closed s else .value (c :: s)

/-- What follows a value: a comma must announce another one. -/
def afterValue (closer : Char) (s : List Char) : Except Fault Next := do
  let (c, s) ← skipToValue s
  if c = closer then return .closed s
  else if c = ',' then
    -- a comma must not stand before the closing bracket
    let (c, s) ← skipToValue s
    if c = closer then .error .malformed else return .value (c :: s)
  else .error .malformed

/-- What is left after a bracket that opens is not longer, with the start of the first value put
back. -/
theorem length_afterOpening_le {closer : Char} {s : List Char} {next : Next}
    (h : afterOpening closer s = .ok next) : next.rest.length ≤ s.length := by
  simp only [afterOpening, bind_eq_ok, pure, Except.pure, Except.ok.injEq] at h
  obtain ⟨⟨c, t⟩, ht, h⟩ := h
  have := length_skipToValue ht
  split at h <;> (rw [← h]; simp only [Next.rest, List.length_cons]; omega)

/-- What is left after a value and its comma is shorter, with the start of the next value put
back. -/
theorem length_afterValue {closer : Char} {s : List Char} {next : Next}
    (h : afterValue closer s = .ok next) : next.rest.length < s.length := by
  simp only [afterValue, bind_eq_ok] at h
  obtain ⟨⟨c, t⟩, ht, h⟩ := h
  have := length_skipToValue ht
  split at h
  · simp only [pure, Except.pure, Except.ok.injEq] at h
    rwa [← h]
  · -- a comma, behind which another value starts
    split at h
    · simp only [bind_eq_ok] at h
      obtain ⟨⟨d, u⟩, hu, h⟩ := h
      have := length_skipToValue hu
      split at h
      · simp at h
      · simp only [pure, Except.pure, Except.ok.injEq] at h
        rw [← h, Next.rest, List.length_cons]
        omega
    · simp at h

/-- Read the items after a first one, up to the closing bracket; `acc` holds those read so far, last
first. -/
def readItems {α : Type} (item : Reader α) (acc : List α) (s : List Char) :
    Except Fault (List α × List Char) :=
  match _h : afterValue ']' s with
  | .error e => .error e
  | .ok (.closed s) => .ok (acc.reverse, s)
  | .ok (.value s) =>
    match _h' : item.run s with
    | .error e => .error e
    | .ok (a, s) => readItems item (a :: acc) s
termination_by s.length
decreasing_by exact Nat.lt_trans (item.length_run _h') (length_afterValue _h)

/-- What is left after the items of a list is shorter. -/
theorem length_readItems {α : Type} {item : Reader α} {acc as : List α} {s r : List Char}
    (h : readItems item acc s = .ok (as, r)) : r.length < s.length := by
  fun_induction readItems item acc s with
  | case1 => simp at h
  | case2 acc s t ht =>
    simp only [Except.ok.injEq, Prod.mk.injEq] at h
    exact h.2 ▸ length_afterValue ht
  | case3 => simp at h
  | case4 acc s t ht a u hu ih =>
    -- a comma, an item, and the items after it
    have := ih h
    have := item.length_run hu
    have hv := length_afterValue ht
    dsimp only [Next.rest] at hv
    omega

/-- Read a list. -/
def readList {α : Type} (item : Reader α) : Reader (List α) where
  run s := do
    let (c, s) ← skipToValue s
    if c = '[' then
      match ← afterOpening ']' s with
      | .closed s => .ok ([], s)
      | .value s => do
        let (a, s) ← item.run s
        readItems item [a] s
    else .error (refuse (c :: s))
  length_run h := by
    simp only [bind_eq_ok] at h
    obtain ⟨⟨c, t⟩, ht, h⟩ := h
    have := length_skipToValue ht
    split at h
    · simp only [bind_eq_ok] at h
      obtain ⟨next, hn, h⟩ := h
      have hl := length_afterOpening_le hn
      -- an empty list, or a first item and the others
      split at h
      · simp only [Except.ok.injEq, Prod.mk.injEq] at h
        dsimp only [Next.rest] at hl
        rw [← h.2]
        omega
      · simp only [bind_eq_ok] at h
        obtain ⟨⟨a, u⟩, hu, h⟩ := h
        have := item.length_run hu
        have hi := length_readItems h
        dsimp only [Next.rest] at hi hl
        omega
    · simp at h

/-! ## Documents -/

/-- Read a text that holds one value and nothing else. -/
def Reader.readDocument {α : Type} (value : Reader α) (text : String) : Except Fault α := do
  let (a, s) ← value.run text.toList
  if (skipBlank s).isEmpty then .ok a else .error .malformed

end ConfigArea.Json
