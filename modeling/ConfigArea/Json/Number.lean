import ConfigArea.Json.Text

/-!
# Numbers of JSON

A number is read as a numeral, the digits of its parts, before anyone asks for its value. Where a
value is wanted the numeral must not be too large for a double, even if the value wanted is an
integer; a numeral that is only passed over may have any size.

The value of a numeral is taken from its leading digits, as many as fit into 64 bits, and a power of
ten. It is too large if the double nearest to the digits, times the double nearest to the power,
rounds to infinity.

* `length_scan`: what is left after a numeral is shorter
-/

namespace ConfigArea.Json

/-- The parts of a number. -/
structure Numeral where
  negative : Bool
  /-- the digits before the point -/
  whole : List Char
  /-- the digits after the point, none if there is no point -/
  fraction : List Char
  /-- the power of ten, if one is written -/
  exponent : Option Int

/-- Read digits, one at least; `atEnd` is the fault of a text that ends before them. -/
def scanDigits (atEnd : Fault) (s : List Char) : Except Fault (List Char × List Char) :=
  match s with
  | [] => .error atEnd
  | c :: _ =>
    if c.isDigit then .ok (s.takeWhile Char.isDigit, s.dropWhile Char.isDigit)
    else .error .malformed

/-- The number that digits stand for. -/
def digitsValue (ds : List Char) : Nat :=
  ds.foldl (fun n c => n * 10 + (c.toNat - '0'.toNat)) 0

namespace Numeral

/-- Read the digits before the point. A zero stands alone. -/
def scanWhole (atEnd : Fault) (s : List Char) : Except Fault (List Char × List Char) :=
  match s with
  | '0' :: c :: _ => if c.isDigit then .error .malformed else scanDigits atEnd s
  | s => scanDigits atEnd s

/-- Read the point and the digits after it, if there is a point. -/
def scanFraction (atEnd : Fault) : List Char → Except Fault (List Char × List Char)
  | '.' :: s => scanDigits atEnd s
  | s => .ok ([], s)

/-- Read the power of ten without the letter before it. -/
def scanPower (atEnd : Fault) : List Char → Except Fault (Int × List Char)
  | '-' :: s => (scanDigits atEnd s).map fun (ds, s) => (-digitsValue ds, s)
  | '+' :: s => (scanDigits atEnd s).map fun (ds, s) => (digitsValue ds, s)
  | s => (scanDigits atEnd s).map fun (ds, s) => (digitsValue ds, s)

/-- Read the power of ten, if there is one. -/
def scanExponent (atEnd : Fault) : List Char → Except Fault (Option Int × List Char)
  | 'e' :: s => (scanPower atEnd s).map fun (p, s) => (some p, s)
  | 'E' :: s => (scanPower atEnd s).map fun (p, s) => (some p, s)
  | s => .ok (none, s)

/-- Read the digits and the power of a numeral whose sign is known. -/
def scanUnsigned (atEnd : Fault) (negative : Bool) (s : List Char) :
    Except Fault (Numeral × List Char) := do
  let (whole, s) ← scanWhole atEnd s
  let (fraction, s) ← scanFraction atEnd s
  let (exponent, s) ← scanExponent atEnd s
  return (⟨negative, whole, fraction, exponent⟩, s)

/-- Read a numeral; `atEnd` is the fault of a text that ends where a digit is due. -/
def scan (atEnd : Fault) : List Char → Except Fault (Numeral × List Char)
  | '-' :: s => scanUnsigned atEnd true s
  | s => scanUnsigned atEnd false s

/-- Extend `n` by digits as long as it fits into 64 bits; the digits left over. -/
def gather (n : Nat) : List Char → Nat × List Char
  | [] => (n, [])
  | c :: ds =>
    let m := n * 10 + (c.toNat - '0'.toNat)
    if m < 0x10000000000000000 then gather m ds else (n, c :: ds)

/-- The numeral as leading digits and a power of ten. -/
def parts (n : Numeral) : Nat × Int :=
  let (whole, dropped) := gather 0 n.whole
  let (significand, unused) := gather whole n.fraction
  (significand, dropped.length - (n.fraction.length - unused.length) + n.exponent.getD 0)

/-- The natural number that the numeral is, if it is written as one and fits into 64 bits. -/
def natural? (n : Numeral) : Option Nat :=
  match gather 0 n.whole with
  | (value, []) =>
    if !n.negative && n.fraction.isEmpty && n.exponent.isNone then some value else none
  | _ => none

/-- The nearest number with 53 significant bits; of two the even one. -/
def round53 (n : Nat) : Nat :=
  if n.log2 < 53 then n
  else
    let unit := Nat.pow 2 (n.log2 - 52)
    let down := n / unit
    -- more than half a unit goes up, and just half of it where that makes the number even
    let up := unit < 2 * (n % unit) || (unit == 2 * (n % unit) && down % 2 == 1)
    (if up then down + 1 else down) * unit

/-- Half a step above the largest double: what is not below it rounds to infinity. -/
def roundsToInfinity : Nat :=
  Nat.pow 2 1024 - Nat.pow 2 970

/-- Whether the numeral is too large for a double. -/
def overflows (n : Numeral) : Bool :=
  let (significand, power) := n.parts
  -- a power below zero makes a number of 64 bits smaller, and ten to the 309th is too large itself
  significand != 0 && 0 ≤ power &&
    (308 < power || roundsToInfinity ≤ round53 significand * round53 (Nat.pow 10 power.toNat))

end Numeral

/-- Read a number whose value is wanted. -/
def readNumeral (s : List Char) : Except Fault (Numeral × List Char) := do
  let (n, s) ← Numeral.scan .ended s
  if n.overflows then .error .malformed else .ok (n, s)

/-- What is left after digits is shorter. -/
theorem length_scanDigits {atEnd : Fault} {s ds r : List Char}
    (h : scanDigits atEnd s = .ok (ds, r)) : r.length < s.length := by
  rw [scanDigits.eq_def] at h
  split at h
  · simp at h
  · rename_i c t
    split at h
    · rename_i hc
      simp only [List.dropWhile_cons, hc, if_true, Except.ok.injEq, Prod.mk.injEq] at h
      rw [← h.2, List.length_cons]
      -- the digits behind the first one are left out of what is left
      exact Nat.lt_succ_of_le (List.dropWhile_suffix _).length_le
    · simp at h

namespace Numeral

/-- What is left after the digits before the point is shorter. -/
theorem length_scanWhole {atEnd : Fault} {s ds r : List Char}
    (h : scanWhole atEnd s = .ok (ds, r)) : r.length < s.length := by
  rw [scanWhole.eq_def] at h
  split at h
  · split at h
    · simp at h
    · exact length_scanDigits h
  · exact length_scanDigits h

/-- What is left after the digits behind the point is not longer. -/
theorem length_scanFraction_le {atEnd : Fault} {s ds r : List Char}
    (h : scanFraction atEnd s = .ok (ds, r)) : r.length ≤ s.length := by
  rw [scanFraction.eq_def] at h
  split at h
  · have := length_scanDigits h
    simp only [List.length_cons]
    omega
  · simp only [Except.ok.injEq, Prod.mk.injEq] at h
    exact h.2 ▸ Nat.le_refl _

/-- What is left after a power of ten is shorter. -/
theorem length_scanPower {atEnd : Fault} {s r : List Char} {p : Int}
    (h : scanPower atEnd s = .ok (p, r)) : r.length < s.length := by
  rw [scanPower.eq_def] at h
  split at h <;>
    (obtain ⟨⟨ds, t⟩, hd, ht⟩ := map_eq_ok.1 h
     have := length_scanDigits hd
     simp only [Prod.mk.injEq] at ht
     simp only [List.length_cons, ← ht.2]
     omega)

/-- What is left after an exponent is not longer. -/
theorem length_scanExponent_le {atEnd : Fault} {s r : List Char} {p : Option Int}
    (h : scanExponent atEnd s = .ok (p, r)) : r.length ≤ s.length := by
  rw [scanExponent.eq_def] at h
  -- an `e` of either kind, or nothing
  split at h
  · obtain ⟨⟨q, t⟩, hd, ht⟩ := map_eq_ok.1 h
    have := length_scanPower hd
    simp only [Prod.mk.injEq] at ht
    simp only [List.length_cons, ← ht.2]
    omega
  · obtain ⟨⟨q, t⟩, hd, ht⟩ := map_eq_ok.1 h
    have := length_scanPower hd
    simp only [Prod.mk.injEq] at ht
    simp only [List.length_cons, ← ht.2]
    omega
  · simp only [Except.ok.injEq, Prod.mk.injEq] at h
    exact h.2 ▸ Nat.le_refl _

/-- What is left after a numeral without a sign is shorter. -/
theorem length_scanUnsigned {atEnd : Fault} {negative : Bool} {s r : List Char} {n : Numeral}
    (h : scanUnsigned atEnd negative s = .ok (n, r)) : r.length < s.length := by
  simp only [scanUnsigned, bind_eq_ok, pure, Except.pure, Except.ok.injEq, Prod.mk.injEq] at h
  obtain ⟨⟨_, s₁⟩, h₁, ⟨_, s₂⟩, h₂, ⟨_, s₃⟩, h₃, -, h₄⟩ := h
  have l₁ := length_scanWhole h₁
  have l₂ := length_scanFraction_le h₂
  have l₃ := length_scanExponent_le h₃
  dsimp only at l₂ l₃ h₄
  rw [← h₄]
  omega

/-- What is left after a numeral is shorter. -/
theorem length_scan {atEnd : Fault} {s r : List Char} {n : Numeral}
    (h : scan atEnd s = .ok (n, r)) : r.length < s.length := by
  rw [scan.eq_def] at h
  split at h
  · have := length_scanUnsigned h
    simp only [List.length_cons]
    omega
  · exact length_scanUnsigned h

end Numeral

/-- What is left after a numeral whose value is wanted is shorter. -/
theorem length_readNumeral {s r : List Char} {n : Numeral} (h : readNumeral s = .ok (n, r)) :
    r.length < s.length := by
  simp only [readNumeral, bind_eq_ok] at h
  obtain ⟨⟨m, t⟩, ht, h⟩ := h
  have := Numeral.length_scan ht
  split at h
  · simp at h
  · simp only [Except.ok.injEq, Prod.mk.injEq] at h
    rwa [← h.2]

end ConfigArea.Json
