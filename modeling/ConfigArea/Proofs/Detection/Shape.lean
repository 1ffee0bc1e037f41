import ConfigArea.Proofs.Detection.Stages
import Mathlib.Order.Bounds.Basic
import Mathlib.Algebra.Ring.Parity

/-!
# The shape of an area

Detection is a sequence of guesses and checks. This file replaces it by one condition on the words
of a region: which word is the table pointer, where the entry array starts and ends, which order
its terminator tells, and what every entry of the array has to satisfy.

## Key results

- `detect_eq_ok_iff_shape`: detection accepts exactly the regions of that shape, in that order
-/

namespace ConfigArea

namespace Detection

/-- The slot whose tag is word `i` is looked at in an array from `start` to `null`: `i` lies a whole
number of slots behind `start`, before the terminator, and no slot before it has the last tag. -/
def Walked (word : Nat → Word) (o : ByteOrder) (start null i : Nat) : Prop :=
  ∃ k, i = start + 2 * k ∧ i < null - 1 ∧
    ∀ j, j < k → (word (start + 2 * j)).value o ≠ Tag.lastRaw

/-- The `count` words of which a region of `size` bytes shows itself to be an area in the order
`o`, with its entry array from word `start` to the null at word `null`. -/
structure Shape (word : Nat → Word) (count size : Nat) (o : ByteOrder) (start null : Nat) :
    Prop where
  count_pos : 0 < count
  head : 2 ≤ (word 0).setBytes
  start_least : IsLeast {i | 1 ≤ i ∧ i < count ∧ (word i).setBytes = 1} start
  null_least : IsLeast {i | start < i ∧ i < count ∧ (word i).setBytes = 0} null
  odd : Odd (null - start)
  order : o = if (word (null - 1)).value .little ≤ 16 then .little else .big
  tag_le : ∀ i, Walked word o start null i → (word i).value o ≤ 16
  payload_mem : ∀ i, Walked word o start null i →
    (linkBase ((word 0).value o)).toNat < ((word (i + 1)).value o).toNat ∧
      ((word (i + 1)).value o).toNat - (linkBase ((word 0).value o)).toNat ≤ size
  address : ((word 0).value o).toNat - (linkBase ((word 0).value o)).toNat = 4 * start

variable {word : Nat → Word} {o : ByteOrder}

/-- A search for an index finds the least one with the property. -/
theorem firstIndex_eq_some_iff_isLeast {p : Nat → Bool} {lo hi i : Nat} :
    firstIndex p lo hi = some i ↔ IsLeast {j | lo ≤ j ∧ j < hi ∧ p j = true} i := by
  rw [firstIndex_eq_some_iff]
  constructor
  · intro h
    -- no index with the property comes before the hit
    obtain ⟨hlo, hhi, hp, hmin⟩ := h
    refine ⟨⟨hlo, hhi, hp⟩, fun j ⟨hj, _, hpj⟩ => ?_⟩
    by_contra hlt
    rw [hmin j hj (by omega)] at hpj
    cases hpj
  · intro h
    obtain ⟨⟨hlo, hhi, hp⟩, hmin⟩ := h
    -- what comes before a least index lacks the property
    refine ⟨hlo, hhi, hp, fun j hj hj' => ?_⟩
    by_contra hne
    have := hmin ⟨hj, by omega, by simpa using hne⟩
    omega

/-- The entries of the walk are those of the array that are looked at. -/
theorem mem_reached_iff_walked {m : Landmarks} {s : Slot}
    (heven : (m.terminator - m.start) % 2 = 0) :
    s ∈ reached word o m.start ((m.terminator - m.start) / 2) ↔
      ∃ i, Walked word o m.start m.null i ∧ s = slotAt word o i := by
  have hterm : m.terminator = m.null - 1 := rfl
  rw [mem_reached_iff]
  constructor
  · intro h
    -- the entry with number `k` starts at word `m.start + 2 * k`
    obtain ⟨k, hk, hs, hmin⟩ := h
    exact ⟨m.start + 2 * k, ⟨k, rfl, by omega, hmin⟩, hs⟩
  · intro h
    obtain ⟨i, ⟨k, hi, hlt, hmin⟩, hs⟩ := h
    subst hi
    exact ⟨k, by omega, hs, hmin⟩

/-- The verdict on a region of that shape. -/
theorem shape_of_examine {horizon size : Nat} {v : Verdict}
    (h : examine word horizon size = .ok v) :
    Shape word (horizon / 4) size v.order v.landmarks.start v.landmarks.null := by
  obtain ⟨hm, ho, hslots, hbase, haddress, hreach⟩ := examine_eq_ok_iff.1 h
  have marks := marks_of_landmarks hm
  obtain ⟨hfour, hhead, hs, hz⟩ := landmarks_eq_ok_iff.1 hm
  have hterm : v.landmarks.terminator = v.landmarks.null - 1 := rfl
  have hlt := marks.start_lt
  -- the terminator comes before the null, so it is not null itself
  have hkind := marks.kind_ne v.landmarks.terminator (by omega) (by omega)
  obtain ⟨heven, horder⟩ := (guess_eq_ok_iff hkind).1 ho
  obtain ⟨hreached, htags⟩ := walk_eq_ok_iff.1 hslots
  -- what holds of every entry of the walk holds of every word that is walked
  have hmem : ∀ i, Walked word v.order v.landmarks.start v.landmarks.null i →
      slotAt word v.order i ∈ v.slots := by
    intro i hi
    rw [hreached]
    exact (mem_reached_iff_walked heven).2 ⟨i, hi, rfl⟩
  -- a search for a kind is one for a number of set bytes
  rw [firstIndex_eq_some_iff_isLeast] at hs hz
  simp only [beq_iff_eq, Word.kind_eq_tag_iff, Word.kind_eq_zero_iff] at hs hz
  exact {
    count_pos := by omega
    head := Word.kind_eq_pointer_iff.1 hhead
    start_least := hs
    null_least := hz
    odd := Nat.odd_iff.2 (by omega)
    order := horder
    tag_le := fun i hi => htags _ (hmem i hi)
    payload_mem := fun i hi => by
      rw [← hbase]
      exact reaches_iff.1 (hreach _ (hmem i hi))
    -- the offset in the page is what the checks compared
    address := by
      rw [toNat_linkBase]
      have := Nat.mod_le ((word 0).value v.order).toNat 4096
      omega }

/-- A region of that shape passes every stage. -/
theorem examine_of_shape {horizon size start null : Nat}
    (h : Shape word (horizon / 4) size o start null) :
    ∃ v, examine word horizon size = .ok v ∧ v.order = o := by
  let m : Landmarks := ⟨start, null⟩
  have hcount := h.count_pos
  have hlt : start < null := h.null_least.1.1
  have hodd := Nat.odd_iff.1 h.odd
  -- the stages one after the other
  have hm : landmarks word horizon = .ok m := by
    rw [landmarks_eq_ok_iff, firstIndex_eq_some_iff_isLeast, firstIndex_eq_some_iff_isLeast]
    simp only [beq_iff_eq, Word.kind_eq_tag_iff, Word.kind_eq_zero_iff, Word.kind_eq_pointer_iff]
    exact ⟨by omega, h.head, h.start_least, h.null_least⟩
  have hterm : m.terminator = null - 1 := rfl
  have hstart : m.start = start := rfl
  have hnull : m.null = null := rfl
  have heven : (m.terminator - m.start) % 2 = 0 := by omega
  have hkind := (marks_of_landmarks hm).kind_ne m.terminator (by omega) (by omega)
  have ho : guess word m = .ok o := (guess_eq_ok_iff hkind).2 ⟨heven, h.order⟩
  -- a tag that is refused would be one of a slot that is walked
  have hwalk : walk word o start ((m.terminator - m.start) / 2) =
      .ok (reached word o start ((m.terminator - m.start) / 2)) := by
    refine walk_eq_ok_iff.2 ⟨rfl, fun s hs => ?_⟩
    obtain ⟨i, hi, rfl⟩ := (mem_reached_iff_walked heven).1 hs
    exact h.tag_le i hi
  refine ⟨⟨o, linkBase ((word 0).value o), m, _⟩,
    examine_eq_ok_iff.2 ⟨hm, ho, hwalk, rfl, ?_, ?_⟩, rfl⟩
  · -- the table pointer addresses the array
    have haddress := h.address
    rw [toNat_linkBase] at haddress
    have := Nat.mod_le ((word 0).value o).toNat 4096
    dsimp only
    omega
  · -- every payload is reached
    intro s hs
    obtain ⟨i, hi, rfl⟩ := (mem_reached_iff_walked heven).1 hs
    exact reaches_iff.2 (h.payload_mem i hi)

end Detection

/-- Detection accepts a region in an order exactly if the complete words of the part that it may
scan have the shape of an area in that order. -/
theorem detect_eq_ok_iff_shape {horizon : Nat} {region : ByteArray} {o : ByteOrder} :
    detect horizon region = .ok o ↔
      ∃ start null, Detection.Shape (fun i => region.wordAt (4 * i))
        (min horizon region.size / 4) region.size o start null := by
  rw [detect_eq_ok_iff]
  -- the landmarks are those of the verdict
  constructor
  · intro h
    obtain ⟨v, hv, ho⟩ := h
    subst ho
    exact ⟨_, _, Detection.shape_of_examine hv⟩
  · intro h
    obtain ⟨start, null, h⟩ := h
    exact Detection.examine_of_shape h

end ConfigArea
