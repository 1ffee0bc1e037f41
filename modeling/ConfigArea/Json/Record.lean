import ConfigArea.Json.Reader

/-!
# Records

A record is written as an object, whose members may come in any order and among unknown ones, or as
the list of its fields in their order. Reading starts from a record without fields and applies what
it reads to it.
-/

namespace ConfigArea.Json

/-- A field of a record, read as a change of the record. -/
structure Field (α : Type) where
  name : String
  /-- whether an object must have the member -/
  isRequired : Bool
  change : Reader (α → α)

/-- A field that an object must have. -/
def Field.required {α β : Type} (name : String) (value : Reader β) (put : β → α → α) : Field α :=
  ⟨name, true, value.map put⟩

/-- A field that an object may leave out. -/
def Field.optional {α β : Type} (name : String) (value : Reader β) (put : β → α → α) : Field α :=
  ⟨name, false, value.map put⟩

/-- How a record is read. -/
structure Record (α : Type) where
  /-- the record before any field is read -/
  blank : α
  /-- in the order of the list form -/
  fields : List (Field α)
  /-- whether the list form may leave out fields at its end -/
  mayStopEarly : Bool

/-- What is known of a record while the members of an object are read. -/
structure Progress (α : Type) where
  value : α
  /-- the names of the known members read, last first -/
  seen : List String

namespace Record

variable {α : Type}

/-- Read the bracket that closes the list form. -/
def readEnd (a : α) (s : List Char) : Except Fault (α × List Char) := do
  let (c, s) ← skipToValue s
  if c = ']' then .ok (a, s) else .error .malformed

/-- Read the fields that come after `next` in the list form. -/
def readFields (mayStopEarly : Bool) : List (Field α) → α → Next → Except Fault (α × List Char)
  | [], a, .closed s => .ok (a, s)
  -- there are more values than fields
  | [], _, .value _ => .error .malformed
  | _ :: _, a, .closed s => if mayStopEarly then .ok (a, s) else .error .mismatch
  | [f], a, .value s => do
    let (change, s) ← f.change.run s
    readEnd (change a) s
  | f :: g :: fields, a, .value s => do
    let (change, s) ← f.change.run s
    readFields mayStopEarly (g :: fields) (change a) (← afterValue ']' s)

/-- Read a member. That a known one comes twice is told from its key; an unknown one is passed
over. -/
def readMember (fields : List (Field α)) (p : Progress α) (s : List Char) :
    Except Fault (Progress α × List Char) := do
  let s ← skipChar '"' s
  let (key, s) ← readText [] s
  match fields.find? (·.name == key) with
  | none => do
    let s ← skipColon s
    let s ← skipValue s
    return (p, s)
  | some f =>
    -- the repetition is told before the colon and the value are looked at
    if p.seen.contains key then .error .mismatch
    else do
      let s ← skipColon s
      let (change, s) ← f.change.run s
      return (⟨change p.value, key :: p.seen⟩, s)

/-- What is left after a member is shorter. -/
theorem length_readMember {fields : List (Field α)} {p q : Progress α} {s r : List Char}
    (h : readMember fields p s = .ok (q, r)) : r.length < s.length := by
  simp only [readMember, bind_eq_ok] at h
  obtain ⟨t, ht, ⟨key, u⟩, hu, h⟩ := h
  have h₁ := length_skipWord ht
  have h₂ := length_readText hu
  split at h
  · -- an unknown member, which is passed over
    simp only [bind_eq_ok, pure, Except.pure, Except.ok.injEq, Prod.mk.injEq] at h
    obtain ⟨v, hv, w, hw, -, rfl⟩ := h
    have h₃ := length_skipColon hv
    have h₄ := length_skipValue hw
    omega
  · -- a known one, which must not come twice
    split at h
    · simp at h
    · simp only [bind_eq_ok, pure, Except.pure, Except.ok.injEq, Prod.mk.injEq] at h
      obtain ⟨v, hv, ⟨change, w⟩, hw, -, rfl⟩ := h
      have h₃ := length_skipColon hv
      have h₄ := Reader.length_run _ hw
      dsimp only at h₃ ⊢
      omega

/-- Read the members after a first one, up to the closing brace. -/
def readMembers (fields : List (Field α)) (p : Progress α) (s : List Char) :
    Except Fault (Progress α × List Char) :=
  match _h : afterValue '}' s with
  | .error e => .error e
  | .ok (.closed s) => .ok (p, s)
  | .ok (.value s) =>
    match _h' : readMember fields p s with
    | .error e => .error e
    | .ok (p, s) => readMembers fields p s
termination_by s.length
decreasing_by exact Nat.lt_trans (length_readMember _h') (length_afterValue _h)

/-- Read the members of an object from behind its opening brace on. -/
def readObject (fields : List (Field α)) (blank : α) (s : List Char) :
    Except Fault (Progress α × List Char) := do
  match ← afterOpening '}' s with
  | .closed s => .ok (⟨blank, []⟩, s)
  | .value s =>
    let (p, s) ← readMember fields ⟨blank, []⟩ s
    readMembers fields p s

/-- Whether all members that an object must have were read. -/
def isComplete (fields : List (Field α)) (seen : List String) : Bool :=
  fields.all fun f => !f.isRequired || seen.contains f.name

/-- What is left after the end of a list is shorter. -/
theorem length_readEnd {a b : α} {s r : List Char} (h : readEnd a s = .ok (b, r)) :
    r.length < s.length := by
  simp only [readEnd, bind_eq_ok] at h
  obtain ⟨⟨c, t⟩, ht, h⟩ := h
  have := length_skipToValue ht
  split at h
  · simp only [Except.ok.injEq, Prod.mk.injEq] at h
    rwa [← h.2]
  · simp at h

/-- What is left after the fields of a record in the form of a list is not longer. -/
theorem length_readFields_le {mayStopEarly : Bool} {fields : List (Field α)} {a b : α}
    {next : Next} {r : List Char} (h : readFields mayStopEarly fields a next = .ok (b, r)) :
    r.length ≤ next.rest.length := by
  fun_induction readFields mayStopEarly fields a next with
  | case1 => simp_all [Next.rest]
  | case2 => simp at h
  | case3 => simp_all [Next.rest]
  | case4 => simp at h
  | case5 f a s =>
    -- the last field, and the bracket that closes the list
    simp only [bind_eq_ok] at h
    obtain ⟨⟨change, t⟩, ht, h⟩ := h
    have h₁ := f.change.length_run ht
    have h₂ := length_readEnd h
    dsimp only [Next.rest] at h₂ ⊢
    omega
  | case6 f g fields a s ih =>
    -- a field, and what its comma announces
    simp only [bind_eq_ok] at h
    obtain ⟨⟨change, t⟩, ht, next, hn, h⟩ := h
    have h₁ := f.change.length_run ht
    have h₂ := ih _ _ h
    have h₃ := length_afterValue hn
    dsimp only at h₃
    simp only [Next.rest] at h₁ ⊢
    omega

/-- What is left after the members of an object is shorter. -/
theorem length_readMembers {fields : List (Field α)} {p q : Progress α} {s r : List Char}
    (h : readMembers fields p s = .ok (q, r)) : r.length < s.length := by
  fun_induction readMembers fields p s with
  | case1 => simp at h
  | case2 p s t ht =>
    simp only [Except.ok.injEq, Prod.mk.injEq] at h
    exact h.2 ▸ length_afterValue ht
  | case3 => simp at h
  | case4 p s t ht p' u hu ih =>
    exact Nat.lt_trans (ih h) (Nat.lt_trans (length_readMember hu) (length_afterValue ht))

/-- What is left after an object is not longer than what its opening brace leaves. -/
theorem length_readObject_le {fields : List (Field α)} {blank : α} {q : Progress α}
    {s r : List Char} (h : readObject fields blank s = .ok (q, r)) : r.length ≤ s.length := by
  simp only [readObject, bind_eq_ok] at h
  obtain ⟨next, hn, h⟩ := h
  have hl := length_afterOpening_le hn
  -- an empty object, or a first member and the others
  split at h
  · simp only [Except.ok.injEq, Prod.mk.injEq] at h
    exact h.2 ▸ hl
  · simp only [bind_eq_ok] at h
    obtain ⟨⟨p, t⟩, ht, h⟩ := h
    exact Nat.le_of_lt
      (Nat.lt_of_lt_of_le (Nat.lt_trans (length_readMembers h) (length_readMember ht)) hl)

/-- Read a record. -/
def reader (r : Record α) : Reader α where
  run s := do
    let (c, s) ← skipToValue s
    if c = '[' then readFields r.mayStopEarly r.fields r.blank (← afterOpening ']' s)
    else if c = '{' then
      let (p, s) ← readObject r.fields r.blank s
      if isComplete r.fields p.seen then .ok (p.value, s) else .error .mismatch
    else .error (refuse (c :: s))
  length_run h := by
    simp only [bind_eq_ok] at h
    obtain ⟨⟨c, t⟩, ht, h⟩ := h
    have h₀ := length_skipToValue ht
    -- a list of fields, or an object with members
    split at h
    · simp only [bind_eq_ok] at h
      obtain ⟨next, hn, h⟩ := h
      exact Nat.lt_of_le_of_lt
        (Nat.le_trans (length_readFields_le h) (length_afterOpening_le hn)) h₀
    · split at h
      · simp only [bind_eq_ok] at h
        obtain ⟨⟨p, u⟩, hu, h⟩ := h
        have := length_readObject_le hu
        split at h
        · simp only [Except.ok.injEq, Prod.mk.injEq] at h
          rw [← h.2]
          exact Nat.lt_of_le_of_lt this h₀
        · simp at h
      · simp at h

end Record

end ConfigArea.Json
