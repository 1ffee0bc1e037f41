import ConfigArea.Detection
import ConfigArea.Outcome

/-!
# Stages of detection

Detection reads the landmarks off the kinds of the words, guesses the byte order, walks the entries
and checks the pointers. This file says of each stage when it succeeds and with what, and puts the
stages together.

## Key results

- `landmarks_eq_ok_iff`, `guess_eq_ok_iff`, `walk_eq_ok_iff`: success of each stage
- `mem_reached_iff`: which entries the walk looks at
- `examine_eq_ok_iff`: a region is accepted exactly where every stage succeeds
-/

namespace ConfigArea

/-! ## The link-time address -/

/-- The link-time address is the pointer without its offset in the page. -/
theorem toNat_linkBase (p : UInt32) : (linkBase p).toNat = p.toNat - p.toNat % 4096 := by
  -- the difference does not wrap around
  have h : p % 4096 ≤ p := by
    rw [UInt32.le_iff_toNat_le, UInt32.toNat_mod]
    exact Nat.mod_le _ _
  rw [linkBase, UInt32.toNat_sub_of_le _ _ h, UInt32.toNat_mod]
  rfl

/-- What is above the link-time address is the offset in the page. -/
theorem toNat_sub_linkBase (p : UInt32) : (p - linkBase p).toNat = p.toNat % 4096 := by
  have := Nat.mod_le p.toNat 4096
  rw [UInt32.toNat_sub_of_le _ _ (by rw [UInt32.le_iff_toNat_le, toNat_linkBase]; omega),
    toNat_linkBase]
  omega

namespace Detection

variable {word : Nat → Word} {order : ByteOrder}

/-! ## Landmarks -/

/-- The landmarks are found exactly where the first word is a pointer, and each search has a hit. -/
theorem landmarks_eq_ok_iff {horizon : Nat} {m : Landmarks} :
    landmarks word horizon = .ok m ↔
      4 ≤ horizon ∧ (word 0).kind = .pointer ∧
        firstIndex (fun i => (word i).kind == .tag) 1 (horizon / 4) = some m.start ∧
        firstIndex (fun i => (word i).kind == .zero) (m.start + 1) (horizon / 4) =
          some m.null := by
  obtain ⟨s, z⟩ := m
  unfold landmarks
  split
  · -- there is no first word, or it is not a pointer
    rename_i hno
    simp only [reduceCtorEq, false_iff]
    intro h
    obtain ⟨h₄, hp, _⟩ := h
    exact hno.elim (fun h => by omega) (fun h => h hp)
  · rename_i h
    simp only [not_or, Decidable.not_not] at h
    cases hs : firstIndex (fun i => (word i).kind == .tag) 1 (horizon / 4) with
    | none => simp
    -- no word looks like a tag
    | some start =>
      dsimp only
      cases hz : firstIndex (fun i => (word i).kind == .zero) (start + 1) (horizon / 4) with
      | none =>
        -- the start that the right side names is the one that was found
        simp only [reduceCtorEq, Option.some.injEq, false_iff]
        intro h
        obtain ⟨_, _, hs', hz'⟩ := h
        subst hs'
        rw [hz] at hz'
        cases hz'
      | some null =>
        simp only [Except.ok.injEq, Landmarks.mk.injEq, Option.some.injEq]
        -- both searches have a hit, and there is one first hit of each
        constructor
        · intro h
          obtain ⟨hs', hz'⟩ := h
          subst hs' hz'
          exact ⟨by omega, h.2, rfl, hz⟩
        · intro h
          obtain ⟨_, _, hs', hz'⟩ := h
          subst hs'
          rw [hz] at hz'
          exact ⟨rfl, Option.some.inj hz'⟩

/-- What the landmarks say about the words: the array starts behind the table pointer, and no word
is zero from its start to the null that ends it. -/
structure Landmarks.Marks (m : Landmarks) (word : Nat → Word) (horizon : Nat) : Prop where
  start_pos : 1 ≤ m.start
  start_lt : m.start < m.null
  null_lt : 4 * (m.null + 1) ≤ horizon
  start_kind : (word m.start).kind = .tag
  null_kind : (word m.null).kind = .zero
  kind_ne : ∀ i, m.start ≤ i → i < m.null → (word i).kind ≠ .zero

/-- Landmarks that are found mark the words as they should. -/
theorem marks_of_landmarks {horizon : Nat} {m : Landmarks} (h : landmarks word horizon = .ok m) :
    m.Marks word horizon := by
  obtain ⟨-, -, hs, hz⟩ := landmarks_eq_ok_iff.1 h
  obtain ⟨hs₁, -, hs, -⟩ := firstIndex_eq_some_iff.1 hs
  obtain ⟨hz₁, hz₂, hz, hmin⟩ := firstIndex_eq_some_iff.1 hz
  simp only [beq_iff_eq, beq_eq_false_iff_ne] at hs hz hmin
  refine ⟨hs₁, hz₁, by omega, hs, hz, fun i hi hi' => ?_⟩
  -- the first word of the array is a tag, the others come before the first zero
  rcases Nat.lt_or_eq_of_le hi with hlt | rfl
  · exact hmin i hlt hi'
  · rw [hs]
    decide

/-! ## The guess -/

/-- With a terminator whose tag is not zero only its place can stop the guess. -/
theorem guess_eq_ok_iff {m : Landmarks} (h : (word m.terminator).kind ≠ .zero) :
    guess word m = .ok order ↔
      (m.terminator - m.start) % 2 = 0 ∧
        order = if (word m.terminator).value .host ≤ Tag.lastRaw then .host
          else ByteOrder.host.swapped := by
  have htag : (word m.terminator).value .host ≠ 0 := fun h₀ => h (Word.value_eq_zero_iff.1 h₀)
  unfold guess
  split
  · -- the terminator is not in the place of a tag
    rename_i hodd
    simp [hodd]
  · -- the tag is not zero, so it only has to be compared with the last one
    rename_i heven
    simp only [if_neg htag, ← UInt32.not_le]
    split
    · rename_i hle
      simp only [Except.ok.injEq, eq_comm (a := order), iff_and_self]
      intro; omega
    · rename_i hle
      simp only [Decidable.not_not] at hle
      simp only [Except.ok.injEq, if_pos hle, eq_comm (a := order), iff_and_self]
      intro; omega

/-! ## The walk -/

/-- The entries a walk looks at: those up to the first with the terminator's tag. -/
def reached (word : Nat → Word) (order : ByteOrder) (i : Nat) : (count : Nat) → List Slot
  | 0 => []
  | count + 1 =>
    slotAt word order i ::
      if (slotAt word order i).tag = Tag.lastRaw then [] else reached word order (i + 2) count

/-- The walk succeeds where no entry that it looks at has a tag above the terminator's. -/
theorem walk_eq_ok_iff {i count : Nat} {slots : List Slot} :
    walk word order i count = .ok slots ↔
      slots = reached word order i count ∧ ∀ s ∈ slots, s.tag ≤ Tag.lastRaw := by
  induction count generalizing i slots with
  | zero =>
    -- no entries are left, so none is refused
    simp only [walk, reached, Except.ok.injEq, eq_comm (b := slots), iff_self_and]
    intro h
    subst h
    intro s hs
    cases hs
  | succ count ih =>
    simp only [walk, reached]
    split
    · -- the tag is refused
      rename_i hlt
      simp only [reduceCtorEq, false_iff]
      intro h
      obtain ⟨hs, hall⟩ := h
      subst hs
      exact UInt32.not_le.2 hlt (hall _ List.mem_cons_self)
    · rename_i hle
      split
      · -- the walk ends here
        rename_i hlast
        simp only [Except.ok.injEq, eq_comm (b := slots), iff_self_and]
        intro h
        subst h
        intro s hs
        rw [List.mem_singleton.1 hs]
        exact UInt32.not_lt.1 hle
      · -- the walk goes on behind this entry
        rw [map_eq_ok]
        constructor
        · intro h
          obtain ⟨rest, hrest, hs⟩ := h
          subst hs
          obtain ⟨rfl, hall⟩ := ih.1 hrest
          refine ⟨rfl, fun s hs => ?_⟩
          rcases List.mem_cons.1 hs with rfl | hs
          · exact UInt32.not_lt.1 hle
          · exact hall s hs
        · intro h
          obtain ⟨hs, hall⟩ := h
          subst hs
          exact ⟨_, ih.2 ⟨rfl, fun s hs => hall s (List.mem_cons_of_mem _ hs)⟩, rfl⟩

/-- An entry is looked at exactly if no entry before it has the terminator's tag. -/
theorem mem_reached_iff {i count : Nat} {s : Slot} :
    s ∈ reached word order i count ↔
      ∃ k, k < count ∧ s = slotAt word order (i + 2 * k) ∧
        ∀ j, j < k → (word (i + 2 * j)).value order ≠ Tag.lastRaw := by
  -- Induction on the number of entries left: entry `k + 1` of this array is entry `k` of the rest.
  induction count generalizing i with
  | zero => simp [reached]
  | succ count ih =>
    rw [reached, List.mem_cons]
    constructor
    · intro h
      rcases h with rfl | h
      · -- the first entry, which has none before it
        exact ⟨0, by omega, rfl, fun j hj => by omega⟩
      · split at h
        · cases h
        · -- one of the rest, which is looked at because the first is not the last
          rename_i hne
          obtain ⟨k, hk, rfl, hmin⟩ := ih.1 h
          refine ⟨k + 1, by omega, by rw [show i + 2 + 2 * k = i + 2 * (k + 1) by omega], ?_⟩
          intro j hj
          cases j with
          | zero => exact hne
          | succ j =>
            rw [show i + 2 * (j + 1) = i + 2 + 2 * j by omega]
            exact hmin j (by omega)
    · intro h
      obtain ⟨k, hk, hs, hmin⟩ := h
      cases k with
      | zero => exact .inl hs
      | succ k =>
        -- the first entry does not end the walk, so the rest is walked
        have hne : (slotAt word order i).tag ≠ Tag.lastRaw := hmin 0 (by omega)
        rw [if_neg hne]
        refine .inr (ih.2 ⟨k, by omega, ?_, fun j hj => ?_⟩)
        · rw [hs, show i + 2 * (k + 1) = i + 2 + 2 * k by omega]
        · rw [show i + 2 + 2 * j = i + 2 * (j + 1) by omega]
          exact hmin (j + 1) (by omega)

/-! ## All stages -/

/-- A payload pointer reaches into the region if it lies above the base, and by no more than the
size. -/
theorem reaches_iff {base pointer : UInt32} {size : Nat} :
    reaches base size pointer = true ↔
      base.toNat < pointer.toNat ∧ pointer.toNat - base.toNat ≤ size := by
  rw [reaches, Bool.and_eq_true, decide_eq_true_eq, decide_eq_true_eq, UInt32.lt_iff_toNat_lt]
  apply and_congr_right
  intro h
  rw [UInt32.toNat_sub_of_le _ _ (UInt32.le_iff_toNat_le.2 (by omega))]

/-- A region is accepted exactly where every stage succeeds, and the verdict is what they found. -/
theorem examine_eq_ok_iff {horizon size : Nat} {v : Verdict} :
    examine word horizon size = .ok v ↔
      landmarks word horizon = .ok v.landmarks ∧ guess word v.landmarks = .ok v.order ∧
        walk word v.order v.landmarks.start
          ((v.landmarks.terminator - v.landmarks.start) / 2) = .ok v.slots ∧
        v.linkBase = linkBase ((word 0).value v.order) ∧
        ((word 0).value v.order).toNat % 4096 = 4 * v.landmarks.start ∧
        ∀ s ∈ v.slots, reaches v.linkBase size s.payload := by
  obtain ⟨o, base, m, slots⟩ := v
  -- one equation for each stage, and two checks behind them
  simp only [examine, bind_eq_ok, toNat_sub_linkBase]
  constructor
  · intro h
    -- what was bound is what the verdict says, and neither check has thrown
    obtain ⟨m', hm, o', ho, slots', hslots, h⟩ := h
    split at h
    · cases h
    · rename_i haddress
      split at h
      · cases h
      · rename_i hfind
        simp only [pure, Except.pure, Except.ok.injEq, Verdict.mk.injEq] at h
        obtain ⟨rfl, rfl, rfl, rfl⟩ := h
        refine ⟨hm, ho, hslots, rfl, by omega, fun s hs => ?_⟩
        simpa using List.find?_eq_none.1 hfind s hs
  · intro h
    -- each stage goes on with what the one before it gave, and neither check throws
    obtain ⟨hm, ho, hslots, hbase, haddress, hall⟩ := h
    refine ⟨m, hm, o, ho, slots, hslots, ?_⟩
    have hfind : slots.find? (fun s => !reaches base size s.payload) = none :=
      List.find?_eq_none.2 fun s hs => by simp [hall s hs]
    have hbase : base = linkBase ((word 0).value o) := hbase
    subst hbase
    rw [if_neg (by simpa using haddress), hfind]
    rfl

/-- The entries of a verdict lie in the array, before its terminator. -/
theorem exists_slotAt_of_mem {horizon size : Nat} {v : Verdict} {s : Slot}
    (h : examine word horizon size = .ok v) (hs : s ∈ v.slots) :
    ∃ i, v.landmarks.start ≤ i ∧ i + 2 ≤ v.landmarks.terminator ∧ s = slotAt word v.order i := by
  obtain ⟨-, -, hslots, -⟩ := examine_eq_ok_iff.1 h
  rw [(walk_eq_ok_iff.1 hslots).1] at hs
  obtain ⟨k, hk, hs, -⟩ := mem_reached_iff.1 hs
  exact ⟨v.landmarks.start + 2 * k, by omega, by omega, hs⟩

end Detection

/-- The order that detection tells is the one of the verdict. -/
theorem detect_eq_ok_iff {horizon : Nat} {region : ByteArray} {o : ByteOrder} :
    detect horizon region = .ok o ↔
      ∃ v, examineRegion horizon region = .ok v ∧ v.order = o :=
  map_eq_ok

end ConfigArea
