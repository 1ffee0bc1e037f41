/-!
# Bounded search

The first index of a range at which something is found. Every scan of the library (landmarks,
string ends, occurrences of a pattern, candidate pages) is one of these two searches, so what they
say about first hits and misses is proved once, here.

* `firstSome_eq_some_iff`, `firstSome_eq_none_iff`: hits and misses of a search for a value
* `firstIndex_eq_some_iff`, `firstIndex_eq_none_iff`: the same for the least index with a property
-/

namespace ConfigArea

variable {α : Type _}

/-- The first value among `f start`, `f (start + 1)`, …, `f (start + count - 1)`. -/
@[specialize] def firstSome (f : Nat → Option α) (start : Nat) : (count : Nat) → Option α
  | 0 => none
  | count + 1 =>
    match f start with
    | some a => some a
    | none => firstSome f (start + 1) count

/-- The least `i` with `start ≤ i < stop` and `p i`. -/
@[inline] def firstIndex (p : Nat → Bool) (start stop : Nat) : Option Nat :=
  firstSome (fun i => if p i then some i else none) start (stop - start)

/-- A hit is the value at an index of the range before which there is no value. -/
theorem firstSome_eq_some_iff {f : Nat → Option α} {start count : Nat} {a : α} :
    firstSome f start count = some a ↔
      ∃ i, start ≤ i ∧ i < start + count ∧ f i = some a ∧
        ∀ j, start ≤ j → j < i → f j = none := by
  induction count generalizing start with
  | zero => simp only [firstSome, reduceCtorEq, false_iff, not_exists]; omega
  | succ count ih =>
    rw [firstSome]
    cases h : f start with
    | some b =>
      -- the first index has a value, so nothing before the hit is left to check
      constructor
      · intro hb
        exact ⟨start, Nat.le_refl _, by omega, h.trans hb, fun j hj hj' => by omega⟩
      · rintro ⟨i, hi, -, hia, hmin⟩
        rcases Nat.lt_or_eq_of_le hi with hlt | rfl
        · exact absurd (hmin start (Nat.le_refl _) hlt) (by simp [h])
        · exact h.symm.trans hia
    | none =>
      -- the first index has none, so a hit of the rest is a hit of the whole
      rw [ih]
      constructor
      · rintro ⟨i, hi, hi', hia, hmin⟩
        refine ⟨i, by omega, by omega, hia, fun j hj hj' => ?_⟩
        rcases Nat.lt_or_eq_of_le hj with hlt | rfl
        · exact hmin j hlt hj'
        · exact h
      · rintro ⟨i, hi, hi', hia, hmin⟩
        have hne : start ≠ i := by rintro rfl; simp [h] at hia
        exact ⟨i, by omega, by omega, hia, fun j hj hj' => hmin j (by omega) hj'⟩

/-- A miss means that no index of the range has a value. -/
theorem firstSome_eq_none_iff {f : Nat → Option α} {start count : Nat} :
    firstSome f start count = none ↔ ∀ i, start ≤ i → i < start + count → f i = none := by
  induction count generalizing start with
  | zero => simp only [firstSome, true_iff]; omega
  | succ count ih =>
    rw [firstSome]
    cases h : f start with
    | some b =>
      simp only [reduceCtorEq, false_iff]
      exact fun hall => by simpa [h] using hall start (Nat.le_refl _) (by omega)
    | none =>
      rw [ih]
      refine ⟨fun hall i hi hi' => ?_, fun hall i hi hi' => hall i (by omega) (by omega)⟩
      -- the index is the first one, or it is among those after it
      rcases Nat.lt_or_eq_of_le hi with hlt | rfl
      · exact hall i hlt (by omega)
      · exact h

/-- A search is decided by the values on its range. -/
theorem firstSome_congr {f g : Nat → Option α} {start count : Nat}
    (h : ∀ i, start ≤ i → i < start + count → f i = g i) :
    firstSome f start count = firstSome g start count := by
  induction count generalizing start with
  | zero => rfl
  | succ count ih =>
    rw [firstSome, firstSome, h start (Nat.le_refl _) (by omega),
      ih fun i hi hi' => h i (by omega) (by omega)]

/-- Searching for images is searching, and taking the image of what is found. -/
theorem firstSome_map {β : Type _} {f : Nat → Option α} {g : α → β} {start count : Nat} :
    firstSome (fun i => (f i).map g) start count = (firstSome f start count).map g := by
  induction count generalizing start with
  | zero => rfl
  | succ count ih =>
    rw [firstSome, firstSome]
    cases f start with
    | some a => rfl
    | none => exact ih

/-- The index found has the property, and it is the least one that does. -/
theorem firstIndex_eq_some_iff {p : Nat → Bool} {start stop i : Nat} :
    firstIndex p start stop = some i ↔
      start ≤ i ∧ i < stop ∧ p i = true ∧ ∀ j, start ≤ j → j < i → p j = false := by
  rw [firstIndex, firstSome_eq_some_iff]
  constructor
  · -- the index that the search ends with is the one that it gives
    rintro ⟨k, hk, hk', hki, hmin⟩
    by_cases hp : p k = true
    · obtain rfl : k = i := by simpa [hp] using hki
      exact ⟨hk, by omega, hp, fun j hj hj' => by simpa using hmin j hj hj'⟩
    · simp [hp] at hki
  · rintro ⟨hi, hi', hp, hmin⟩
    exact ⟨i, hi, by omega, by simp [hp], fun j hj hj' => by simp [hmin j hj hj']⟩

/-- A miss means that no index of the range has the property. -/
theorem firstIndex_eq_none_iff {p : Nat → Bool} {start stop : Nat} :
    firstIndex p start stop = none ↔ ∀ i, start ≤ i → i < stop → p i = false := by
  rw [firstIndex, firstSome_eq_none_iff]
  refine ⟨fun h i hi hi' => ?_, fun h i hi hi' => by simp [h i hi (by omega)]⟩
  simpa using h i hi (by omega)

/-- A search starts with the first index of its range. -/
theorem firstIndex_of_lt {p : Nat → Bool} {start stop : Nat} (h : start < stop) :
    firstIndex p start stop = if p start then some start else firstIndex p (start + 1) stop := by
  obtain ⟨count, rfl⟩ : ∃ count, stop = start + 1 + count := ⟨stop - start - 1, by omega⟩
  rw [firstIndex, show start + 1 + count - start = count + 1 by omega, firstSome, firstIndex,
    Nat.add_sub_cancel_left]
  split <;> split <;> simp_all

/-- A search is decided by the property on its range. -/
theorem firstIndex_congr {p q : Nat → Bool} {start stop : Nat}
    (h : ∀ i, start ≤ i → i < stop → p i = q i) :
    firstIndex p start stop = firstIndex q start stop := by
  apply firstSome_congr
  intro i hi hi'
  rw [h i hi (by omega)]

/-- A hit stays one in any range that still holds it, whatever is behind it. -/
theorem firstIndex_eq_some_of_agree {p q : Nat → Bool} {start stop stop' i : Nat}
    (h : firstIndex p start stop = some i) (hlt : i < stop')
    (hpq : ∀ j, start ≤ j → j ≤ i → p j = q j) : firstIndex q start stop' = some i := by
  obtain ⟨hle, -, hp, hmin⟩ := firstIndex_eq_some_iff.1 h
  refine firstIndex_eq_some_iff.2 ⟨hle, hlt, ?_, fun j hj hj' => ?_⟩
  · rw [← hpq i hle (Nat.le_refl _), hp]
  · rw [← hpq j hj (Nat.le_of_lt hj'), hmin j hj hj']

/-- A range that lies `n` further on is searched as the range itself is for the property `n`
further on. -/
theorem firstIndex_add {p : Nat → Bool} {start stop n : Nat} :
    firstIndex p (start + n) (stop + n) =
      (firstIndex (fun i => p (i + n)) start stop).map (· + n) := by
  -- what the shifted search finds is told by the search at smaller indices
  cases h : firstIndex (fun i => p (i + n)) start stop with
  | none =>
    rw [firstIndex_eq_none_iff] at h
    apply firstIndex_eq_none_iff.2
    intro i hi hi'
    have := h (i - n) (by omega) (by omega)
    rwa [Nat.sub_add_cancel (by omega)] at this
  | some i =>
    obtain ⟨hi, hi', hp, hmin⟩ := firstIndex_eq_some_iff.1 h
    rw [Option.map_some, firstIndex_eq_some_iff]
    refine ⟨by omega, by omega, hp, fun j hj hj' => ?_⟩
    have := hmin (j - n) (by omega) (by omega)
    rwa [Nat.sub_add_cancel (by omega)] at this

end ConfigArea
