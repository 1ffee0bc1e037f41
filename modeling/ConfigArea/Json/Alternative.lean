import ConfigArea.Json.Reader

/-!
# Alternatives

A value that is one of several alternatives is written as the name of that alternative, or as an
object with the name as its only key; what the alternative holds is the value behind the key, and
null where it holds nothing. A key is a text, so anything else in its place is not JSON at all, not
a value of another type.
-/

namespace ConfigArea.Json

/-- One of the alternatives that a value may be. -/
inductive Alternative (α : Type) where
  /-- known by its name alone -/
  | plain (value : α)
  /-- with something behind its name -/
  | holding (reader : Reader α)

namespace Alternative

variable {α : Type}

/-- Read what stands behind the name in an object. -/
def readContent (s : List Char) : Alternative α → Except Fault (α × List Char)
  | plain value => (skipNull s).map fun s => (value, s)
  | holding reader => reader.run s

/-- Read an alternative in the form of an object, from behind the opening brace on. -/
def readObject (alternatives : List (String × Alternative α)) (s : List Char) :
    Except Fault (α × List Char) := do
  let s ← skipChar '"' (skipBlank s)
  let (name, s) ← readText [] s
  -- an unknown name is told before the value behind it is looked at
  match alternatives.lookup name with
  | none => .error .mismatch
  | some alternative => do
    let s ← skipColon s
    let (value, s) ← alternative.readContent s
    let s ← skipChar '}' (skipBlank s)
    return (value, s)

/-- Read the name of a plain alternative, from behind the opening quote on. -/
def readName (alternatives : List (String × Alternative α)) (s : List Char) :
    Except Fault (α × List Char) := do
  let (name, s) ← readText [] s
  match alternatives.lookup name with
  | some (.plain value) => .ok (value, s)
  | _ => .error .mismatch

/-- What is left after what an alternative holds is shorter. -/
theorem length_readContent {alternative : Alternative α} {s r : List Char} {a : α}
    (h : alternative.readContent s = .ok (a, r)) : r.length < s.length := by
  cases alternative with
  | plain value =>
    obtain ⟨t, ht, he⟩ := map_eq_ok.1 h
    simp only [Prod.mk.injEq] at he
    exact he.2 ▸ length_skipNull ht
  | holding reader => exact reader.length_run h

/-- What is left after an alternative in the form of an object is shorter. -/
theorem length_readObject {alternatives : List (String × Alternative α)} {s r : List Char} {a : α}
    (h : readObject alternatives s = .ok (a, r)) : r.length < s.length := by
  simp only [readObject, bind_eq_ok] at h
  -- each part, from the quote before the name to the closing brace, takes some characters or none
  obtain ⟨p, hp, ⟨name, t⟩, ht, h⟩ := h
  have hs := length_skipBlank_le s
  have h₀ := length_skipWord hp
  have h₁ := length_readText ht
  split at h
  · simp at h
  · simp only [bind_eq_ok, pure, Except.pure, Except.ok.injEq, Prod.mk.injEq] at h
    obtain ⟨u, hu, ⟨b, v⟩, hv, w, hw, -, rfl⟩ := h
    have h₂ := length_skipColon hu
    have h₃ := length_readContent hv
    have h₄ := length_skipWord hw
    have h₅ := length_skipBlank_le v
    dsimp only at h₂ h₄
    omega

/-- What is left after the name of an alternative is shorter. -/
theorem length_readName {alternatives : List (String × Alternative α)} {s r : List Char} {a : α}
    (h : readName alternatives s = .ok (a, r)) : r.length < s.length := by
  simp only [readName, bind_eq_ok] at h
  obtain ⟨⟨name, t⟩, ht, h⟩ := h
  have h₁ := length_readText ht
  split at h
  · simp only [Except.ok.injEq, Prod.mk.injEq] at h
    exact h.2 ▸ h₁
  · simp at h

end Alternative

/-- Read one of several alternatives. -/
def readAlternative {α : Type} (alternatives : List (String × Alternative α)) : Reader α where
  run s := do
    let (c, s) ← skipToValue s
    if c = '"' then Alternative.readName alternatives s
    else if c = '{' then Alternative.readObject alternatives s
    else .error .malformed
  length_run h := by
    simp only [bind_eq_ok] at h
    obtain ⟨⟨c, t⟩, ht, h⟩ := h
    have h₀ := length_skipToValue ht
    split at h
    · exact Nat.lt_trans (Alternative.length_readName h) h₀
    · split at h
      · exact Nat.lt_trans (Alternative.length_readObject h) h₀
      · simp at h

end ConfigArea.Json
