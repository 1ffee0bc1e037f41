import ConfigArea.Proofs.Detection.Shape
import Mathlib.Order.Interval.Set.Defs
import Mathlib.Order.Nat

/-!
# Why a region is rejected

Detection goes through its checks in a fixed order and stops at the first that fails. This file says
by the words of a region alone which one that is and what it reports: the first landmark that is
missing, or the first entry whose tag or payload cannot be, with where it is and what stands there.
One of the failures is never told: the word before the null that ends the array is no null itself,
so where the terminator's tag is zero it is the tag that ends the array, and the null lies where a
tag should be.

## Key results

- `landmarks_of_headed`, `guess_of_even`, `walk_of_badTag`: where each stage stops
- `find?_reached_of_isLeast`: the first entry with a property, of those that are looked at
- `exists_rejected_or_shape`: there is a reason to reject the words, or they have the shape of an
  area
- `detect_eq_error_iff_rejected`: every way in which detection fails
-/

namespace ConfigArea.Detection

/-- The words behind the table pointer that look like tags, among the first `count`. -/
def tagWords (word : Nat → Word) (count : Nat) : Set Nat :=
  {i | 1 ≤ i ∧ i < count ∧ (word i).setBytes = 1}

/-- The null words behind word `start`, among the first `count`. -/
def nullWords (word : Nat → Word) (count start : Nat) : Set Nat :=
  {i | start < i ∧ i < count ∧ (word i).setBytes = 0}

/-- The first of `count` words looks like a pointer. -/
structure Headed (word : Nat → Word) (count : Nat) : Prop where
  count_pos : 0 < count
  head : 2 ≤ (word 0).setBytes

/-- Among `count` words the array starts at word `start` and ends at the null at word `null`. -/
structure Marked (word : Nat → Word) (count start null : Nat) : Prop extends
    Headed word count where
  start_least : IsLeast (tagWords word count) start
  null_least : IsLeast (nullWords word count start) null

/-- The array is one of whole entries, and its terminator tells the order `o`. -/
structure Ordered (word : Nat → Word) (count start null : Nat) (o : ByteOrder) : Prop extends
    Marked word count start null where
  odd : Odd (null - start)
  order : o = if (word (null - 1)).value .little ≤ 16 then .little else .big

/-- The entries looked at whose tag is above that of the terminator. -/
def badTags (word : Nat → Word) (o : ByteOrder) (start null : Nat) : Set Nat :=
  {i | Walked word o start null i ∧ 16 < (word i).value o}

/-- The entries looked at whose payload pointer is not above the link-time address, or more than
`size` above it. -/
def strayPayloads (word : Nat → Word) (o : ByteOrder) (start null size : Nat) : Set Nat :=
  {i | Walked word o start null i ∧ ((word (i + 1)).value o).toNat ∉
    Set.Ioc (linkBase ((word 0).value o)).toNat ((linkBase ((word 0).value o)).toNat + size)}

/-- The reason for which a region of `size` bytes is rejected, of which the words in the first
`horizon` bytes are seen: the first thing that is not as it has to be. -/
inductive Rejected (word : Nat → Word) (horizon size : Nat) : DetectionFailure → Prop where
  | missingTablePointer : ¬Headed word (horizon / 4) →
      Rejected word horizon size (.missingTablePointer horizon)
  | missingArrayStart : Headed word (horizon / 4) → tagWords word (horizon / 4) = ∅ →
      Rejected word horizon size (.missingArrayStart horizon)
  | missingArrayEnd {start} : Headed word (horizon / 4) →
      IsLeast (tagWords word (horizon / 4)) start → nullWords word (horizon / 4) start = ∅ →
      Rejected word horizon size (.missingArrayEnd horizon)
  | misalignedTerminator {start null} : Marked word (horizon / 4) start null →
      Even (null - start) → Rejected word horizon size (.misalignedTerminator (4 * (null - 1)))
  | invalidTag {start null o i} : Ordered word (horizon / 4) start null o →
      IsLeast (badTags word o start null) i →
      Rejected word horizon size (.invalidTag (4 * i) ((word i).value o) o)
  | tablePointerMismatch {start null o} : Ordered word (horizon / 4) start null o →
      badTags word o start null = ∅ → ((word 0).value o).toNat % 4096 ≠ 4 * start →
      Rejected word horizon size (.tablePointerMismatch ((word 0).value o) (4 * start))
  | pointerOutOfRange {start null o i} : Ordered word (horizon / 4) start null o →
      badTags word o start null = ∅ → ((word 0).value o).toNat % 4096 = 4 * start →
      IsLeast (strayPayloads word o start null size) i →
      Rejected word horizon size (.pointerOutOfRange (4 * (i + 1)) ((word (i + 1)).value o)
        (linkBase ((word 0).value o)) size)

variable {word : Nat → Word} {o : ByteOrder} {horizon size : Nat} {e : DetectionFailure}

/-- The words from the start of the array to its terminator are those of whole slots. -/
theorem Ordered.even {count start null : Nat} (h : Ordered word count start null o) :
    (null - 1 - start) % 2 = 0 := by
  have hlt : start < null := h.null_least.1.1
  have hodd := Nat.odd_iff.1 h.odd
  omega

/-! ## Landmarks -/

/-- There is a first word, and it is a pointer, exactly where detection sees a table pointer. -/
theorem headed_iff : Headed word (horizon / 4) ↔ 4 ≤ horizon ∧ (word 0).kind = .pointer := by
  rw [Word.kind_eq_pointer_iff]
  constructor
  · intro h
    have := h.count_pos
    exact ⟨by omega, h.head⟩
  · intro h
    exact ⟨by omega, h.2⟩

/-- A search for an index misses where there is none with the property. -/
theorem firstIndex_eq_none_iff_eq_empty {p : Nat → Bool} {lo hi : Nat} :
    firstIndex p lo hi = none ↔ {j | lo ≤ j ∧ j < hi ∧ p j = true} = ∅ := by
  rw [firstIndex_eq_none_iff, Set.eq_empty_iff_forall_notMem]
  constructor
  · intro h j hj
    exact Bool.eq_false_iff.1 (h j hj.1 hj.2.1) hj.2.2
  · intro h j hlo hhi
    exact Bool.eq_false_iff.2 fun hp => h j ⟨hlo, hhi, hp⟩

/-- The words whose kind is a tag are those with one byte set. -/
theorem setOf_tag_eq {count : Nat} :
    {i | 1 ≤ i ∧ i < count ∧ ((word i).kind == .tag) = true} = tagWords word count := by
  simp only [beq_iff_eq, Word.kind_eq_tag_iff]
  rfl

/-- The words whose kind is zero are those with no byte set. -/
theorem setOf_null_eq {count start : Nat} :
    {i | start + 1 ≤ i ∧ i < count ∧ ((word i).kind == .zero) = true} =
      nullWords word count start := by
  simp only [beq_iff_eq, Word.kind_eq_zero_iff]
  rfl

/-- The search for the start of the array finds the first word that looks like a tag. -/
theorem firstIndex_tag_eq_some_iff {count start : Nat} :
    firstIndex (fun i => (word i).kind == .tag) 1 count = some start ↔
      IsLeast (tagWords word count) start := by
  rw [firstIndex_eq_some_iff_isLeast, setOf_tag_eq]

/-- The search for the start of the array misses where no word looks like a tag. -/
theorem firstIndex_tag_eq_none_iff {count : Nat} :
    firstIndex (fun i => (word i).kind == .tag) 1 count = none ↔ tagWords word count = ∅ := by
  rw [firstIndex_eq_none_iff_eq_empty, setOf_tag_eq]

/-- The search for the end of the array finds the first null behind its start. -/
theorem firstIndex_null_eq_some_iff {count start null : Nat} :
    firstIndex (fun i => (word i).kind == .zero) (start + 1) count = some null ↔
      IsLeast (nullWords word count start) null := by
  rw [firstIndex_eq_some_iff_isLeast, setOf_null_eq]

/-- The search for the end of the array misses where there is no null behind its start. -/
theorem firstIndex_null_eq_none_iff {count start : Nat} :
    firstIndex (fun i => (word i).kind == .zero) (start + 1) count = none ↔
      nullWords word count start = ∅ := by
  rw [firstIndex_eq_none_iff_eq_empty, setOf_null_eq]

/-- Without a table pointer nothing is searched for. -/
theorem landmarks_of_not_headed (h : ¬Headed word (horizon / 4)) :
    landmarks word horizon = .error (.missingTablePointer horizon) := by
  rw [headed_iff, not_and_or, Nat.not_le] at h
  exact if_pos h

/-- Behind a table pointer the start of the array is searched for, and behind that its end. -/
theorem landmarks_of_headed (h : Headed word (horizon / 4)) :
    landmarks word horizon =
      match firstIndex (fun i => (word i).kind == .tag) 1 (horizon / 4) with
      | none => .error (.missingArrayStart horizon)
      | some start =>
        match firstIndex (fun i => (word i).kind == .zero) (start + 1) (horizon / 4) with
        | none => .error (.missingArrayEnd horizon)
        | some null => .ok ⟨start, null⟩ := by
  rw [headed_iff] at h
  exact if_neg (not_or.2 ⟨Nat.not_lt.2 h.1, fun hne => hne h.2⟩)

/-- The landmarks found are the first tag and the first null behind it. -/
theorem landmarks_of_marked {start null : Nat} (h : Marked word (horizon / 4) start null) :
    landmarks word horizon = .ok ⟨start, null⟩ := by
  rw [landmarks_of_headed h.toHeaded, firstIndex_tag_eq_some_iff.2 h.start_least]
  dsimp only
  rw [firstIndex_null_eq_some_iff.2 h.null_least]

/-! ## The guess -/

/-- A null in the place of a tag stops the guess. -/
theorem guess_of_even {start null : Nat} (h : Marked word (horizon / 4) start null)
    (heven : Even (null - start)) :
    guess word ⟨start, null⟩ = .error (.misalignedTerminator (4 * (null - 1))) := by
  have hlt : start < null := h.null_least.1.1
  rw [Nat.even_iff] at heven
  have hodd : (null - 1 - start) % 2 ≠ 0 := by omega
  exact if_pos hodd

/-- No word from the start of the array to its null is null, and so neither is the terminator's
tag. -/
theorem guess_of_ordered {start null : Nat} (h : Ordered word (horizon / 4) start null o) :
    guess word ⟨start, null⟩ = .ok o := by
  have hlt : start < null := h.null_least.1.1
  have hkind := (marks_of_landmarks (landmarks_of_marked h.toMarked)).kind_ne (null - 1)
    (show start ≤ null - 1 by omega) (show null - 1 < null by omega)
  exact (guess_eq_ok_iff hkind).2 ⟨h.even, h.order⟩

/-! ## The walk -/

/-- The first entry looked at with a property is that of the first index. -/
theorem find?_reached_eq_some {p : Slot → Bool} {i count k : Nat} (hk : k < count)
    (hp : p (slotAt word o (i + 2 * k)) = true)
    (hmin : ∀ j, j < k → (word (i + 2 * j)).value o ≠ Tag.lastRaw ∧
      p (slotAt word o (i + 2 * j)) = false) :
    (reached word o i count).find? p = some (slotAt word o (i + 2 * k)) := by
  -- Induction on the number of entries before it, none of which ends the walk.
  induction k generalizing i count with
  | zero =>
    -- the first entry has the property
    obtain ⟨count, rfl⟩ : ∃ c, count = c + 1 := ⟨count - 1, by omega⟩
    rw [reached]
    exact List.find?_cons_of_pos hp
  | succ k ih =>
    -- it has not, nor does it end the walk: the rest has the entry with number `k`
    obtain ⟨count, rfl⟩ : ∃ c, count = c + 1 := ⟨count - 1, by omega⟩
    obtain ⟨hne, hno⟩ := hmin 0 (by omega)
    have hne : (slotAt word o i).tag ≠ Tag.lastRaw := hne
    have hno : ¬p (slotAt word o i) = true := Bool.eq_false_iff.1 hno
    rw [reached, List.find?_cons_of_neg hno, if_neg hne,
      show i + 2 * (k + 1) = i + 2 + 2 * k by omega] at *
    apply ih (by omega) hp
    intro j hj
    rw [show i + 2 + 2 * j = i + 2 * (j + 1) by omega]
    exact hmin (j + 1) (by omega)

/-- The first entry of the array that is looked at and has a property `P`. -/
theorem find?_reached_of_isLeast {p : Slot → Bool} {P : Nat → Prop} {start null i : Nat}
    (hp : ∀ i, p (slotAt word o i) = true ↔ P i)
    (h : IsLeast {i | Walked word o start null i ∧ P i} i) (heven : (null - 1 - start) % 2 = 0) :
    (reached word o start ((null - 1 - start) / 2)).find? p = some (slotAt word o i) := by
  obtain ⟨⟨⟨k, rfl, hlt, hwalked⟩, hP⟩, hleast⟩ := h
  apply find?_reached_eq_some (by omega) ((hp _).2 hP)
  intro j hj
  refine ⟨hwalked j hj, Bool.eq_false_iff.2 fun hpj => ?_⟩
  -- an entry before it is looked at as well
  have hle := hleast ⟨⟨j, rfl, by omega, fun j' hj' => hwalked j' (by omega)⟩, (hp _).1 hpj⟩
  omega

/-- The walk is refused at the first entry with too large a tag. -/
theorem walk_of_find?_eq_some {i count : Nat} {s : Slot}
    (h : (reached word o i count).find? (fun s => Tag.lastRaw < s.tag) = some s) :
    walk word o i count = .error (.invalidTag s.offset s.tag o) := by
  -- Induction on the number of entries left, along with the walk itself.
  induction count generalizing i with
  | zero => cases h
  | succ count ih =>
    rw [reached, List.find?_cons] at h
    rw [walk]
    by_cases hinvalid : Tag.lastRaw < (slotAt word o i).tag
    · -- the first entry is the one, and the walk is refused at it
      simp only [hinvalid, decide_true, Option.some.injEq] at h
      subst h
      exact if_pos hinvalid
    · by_cases hlast : (slotAt word o i).tag = Tag.lastRaw
      · -- the walk ends at the first entry, which has no larger tag
        simp [hlast] at h
      · -- the entry is among the rest, and so is what the walk is refused at
        simp only [hinvalid, hlast, decide_false, if_false] at h ⊢
        rw [ih h]
        rfl

/-- The walk is refused at the first entry whose tag is above that of the terminator. -/
theorem walk_of_badTag {start null i : Nat} (h : Ordered word (horizon / 4) start null o)
    (hi : IsLeast (badTags word o start null) i) :
    walk word o start ((null - 1 - start) / 2) =
      .error (.invalidTag (4 * i) ((word i).value o) o) :=
  walk_of_find?_eq_some (find?_reached_of_isLeast (fun _ => decide_eq_true_iff) hi h.even)

/-- Where no entry looked at has such a tag the walk gives all of them. -/
theorem walk_of_no_badTag {start null : Nat} (h : Ordered word (horizon / 4) start null o)
    (hnone : badTags word o start null = ∅) :
    walk word o start ((null - 1 - start) / 2) =
      .ok (reached word o start ((null - 1 - start) / 2)) := by
  refine walk_eq_ok_iff.2 ⟨rfl, fun s hs => ?_⟩
  obtain ⟨i, hi, rfl⟩ := (mem_reached_iff_walked (m := ⟨start, null⟩) h.even).1 hs
  apply UInt32.not_lt.1
  intro hbad
  have hmem : i ∈ badTags word o start null := ⟨hi, hbad⟩
  rw [hnone] at hmem
  exact hmem

/-! ## The payloads -/

/-- A payload pointer leads out of the region if it is not above the base, or too far above it. -/
theorem not_reaches_iff {base pointer : UInt32} :
    (!reaches base size pointer) = true ↔
      pointer.toNat ∉ Set.Ioc base.toNat (base.toNat + size) := by
  rw [Bool.not_eq_true', ← Bool.not_eq_true, reaches_iff, Set.mem_Ioc]
  omega

/-- The first entry whose payload is not in the region is the one that is reported. -/
theorem find?_reached_of_strayPayload {start null i : Nat}
    (h : Ordered word (horizon / 4) start null o)
    (hi : IsLeast (strayPayloads word o start null size) i) :
    (reached word o start ((null - 1 - start) / 2)).find?
      (fun s => !reaches (linkBase ((word 0).value o)) size s.payload) =
        some (slotAt word o i) :=
  find?_reached_of_isLeast (fun _ => not_reaches_iff) hi h.even

/-! ## All stages -/

/-- What detection reports is the reason for which a region is rejected. -/
theorem examine_of_rejected (h : Rejected word horizon size e) :
    examine word horizon size = .error e := by
  rw [examine]
  -- one stage after the other, up to the one that the reason is about
  cases h with
  | missingTablePointer h =>
    rw [landmarks_of_not_headed h, error_bind]
  | missingArrayStart h hstart =>
    rw [landmarks_of_headed h, firstIndex_tag_eq_none_iff.2 hstart]
    rfl
  | missingArrayEnd h hstart hnull =>
    rw [landmarks_of_headed h, firstIndex_tag_eq_some_iff.2 hstart]
    dsimp only
    rw [firstIndex_null_eq_none_iff.2 hnull, error_bind]
  | misalignedTerminator h heven =>
    -- the landmarks are found, and no order can be told from them
    rw [landmarks_of_marked h, ok_bind, guess_of_even h heven, error_bind]
  | invalidTag h hi =>
    rw [landmarks_of_marked h.toMarked, ok_bind, guess_of_ordered h, ok_bind]
    dsimp only [Landmarks.terminator]
    rw [walk_of_badTag h hi, error_bind]
  | tablePointerMismatch h hnone haddress =>
    -- no tag is refused, so it is the address of the array that is compared
    rw [landmarks_of_marked h.toMarked, ok_bind, guess_of_ordered h, ok_bind]
    dsimp only [Landmarks.terminator]
    rw [walk_of_no_badTag h hnone, ok_bind, toNat_sub_linkBase, if_pos haddress]
    rfl
  | pointerOutOfRange h hnone haddress hi =>
    rw [landmarks_of_marked h.toMarked, ok_bind, guess_of_ordered h, ok_bind]
    dsimp only [Landmarks.terminator]
    rw [walk_of_no_badTag h hnone, ok_bind, toNat_sub_linkBase, if_neg (not_not.2 haddress)]
    simp only [find?_reached_of_strayPayload h hi]
    rfl

/-- A set of numbers is empty or has a least one. -/
theorem eq_empty_or_exists_isLeast (s : Set Nat) : s = ∅ ∨ ∃ i, IsLeast s i := by
  classical
  rcases Set.eq_empty_or_nonempty s with hempty | hnonempty
  · exact .inl hempty
  · exact .inr ⟨_, hnonempty.isLeast_natFind⟩

/-- Where nothing is missing and no entry is bad the words have the shape of an area. -/
theorem Ordered.shape {start null : Nat} (h : Ordered word (horizon / 4) start null o)
    (htags : badTags word o start null = ∅)
    (haddress : ((word 0).value o).toNat % 4096 = 4 * start)
    (hpayloads : strayPayloads word o start null size = ∅) :
    Shape word (horizon / 4) size o start null where
  count_pos := h.count_pos
  head := h.head
  start_least := h.start_least
  null_least := h.null_least
  odd := h.odd
  order := h.order
  tag_le := by
    intro i hi
    -- a larger tag would be a bad one
    apply UInt32.not_lt.1
    intro hbad
    exact Set.eq_empty_iff_forall_notMem.1 htags i ⟨hi, hbad⟩
  payload_mem := by
    intro i hi
    -- a payload elsewhere would be a stray one
    by_contra hstray
    refine Set.eq_empty_iff_forall_notMem.1 hpayloads i ⟨hi, fun hmem => hstray ?_⟩
    exact ⟨hmem.1, Nat.sub_le_iff_le_add'.2 hmem.2⟩
  address := by
    rw [toNat_linkBase]
    have := Nat.mod_le ((word 0).value o).toNat 4096
    omega

/-- The words of a region have the shape of an area, or there is a reason to reject it. -/
theorem exists_rejected_or_shape (word : Nat → Word) (horizon size : Nat) :
    (∃ e, Rejected word horizon size e) ∨
      ∃ o start null, Shape word (horizon / 4) size o start null := by
  -- in the order of the checks: where one fails there is the reason, else the next is looked at
  by_cases hhead : Headed word (horizon / 4)
  swap
  · exact .inl ⟨_, .missingTablePointer hhead⟩
  rcases eq_empty_or_exists_isLeast (tagWords word (horizon / 4)) with hstart | ⟨start, hstart⟩
  · exact .inl ⟨_, .missingArrayStart hhead hstart⟩
  rcases eq_empty_or_exists_isLeast (nullWords word (horizon / 4) start) with hnull | ⟨null, hnull⟩
  · exact .inl ⟨_, .missingArrayEnd hhead hstart hnull⟩
  have hmarked : Marked word (horizon / 4) start null := ⟨hhead, hstart, hnull⟩
  rcases Nat.even_or_odd (null - start) with heven | hodd
  · exact .inl ⟨_, .misalignedTerminator hmarked heven⟩
  -- the order is known from here on, and with it tags and pointers
  obtain ⟨o, hordered⟩ : ∃ o, Ordered word (horizon / 4) start null o := ⟨_, hmarked, hodd, rfl⟩
  rcases eq_empty_or_exists_isLeast (badTags word o start null) with htags | ⟨i, hi⟩
  swap
  · exact .inl ⟨_, .invalidTag hordered hi⟩
  by_cases haddress : ((word 0).value o).toNat % 4096 = 4 * start
  swap
  · exact .inl ⟨_, .tablePointerMismatch hordered htags haddress⟩
  rcases eq_empty_or_exists_isLeast (strayPayloads word o start null size) with
    hpayloads | ⟨i, hi⟩
  · exact .inr ⟨o, start, null, hordered.shape htags haddress hpayloads⟩
  · exact .inl ⟨_, .pointerOutOfRange hordered htags haddress hi⟩

/-- Detection fails exactly with the reason for which a region is rejected. -/
theorem examine_eq_error_iff_rejected :
    examine word horizon size = .error e ↔ Rejected word horizon size e := by
  constructor
  · -- some reason or the shape is there, and detection tells of whichever it is
    intro h
    rcases exists_rejected_or_shape word horizon size with
      ⟨e', hrejected⟩ | ⟨o, start, null, hshape⟩
    · rw [examine_of_rejected hrejected] at h
      cases h
      exact hrejected
    · -- a region of that shape is accepted
      obtain ⟨v, hv, -⟩ := examine_of_shape hshape
      rw [hv] at h
      cases h
  · exact examine_of_rejected

end ConfigArea.Detection

namespace ConfigArea

/-- Every failure of detection tells the truth, and the checks have a fixed order: detection fails
exactly with the first reason for which the words within the horizon are no area, where that is and
what stands there. A zero tag of a terminator is never told; where the first null of the array lies
in the place of a tag the terminator is said to be misaligned. -/
theorem detect_eq_error_iff_rejected (horizon : Nat) (region : ByteArray) :
    (∀ e, detect horizon region = .error e ↔
      Detection.Rejected (fun i => region.wordAt (4 * i)) (min horizon region.size) region.size e) ∧
    (∀ offset, detect horizon region ≠ .error (.zeroTerminatorTag offset)) ∧
    ∀ start null, Detection.Marked (fun i => region.wordAt (4 * i))
        (min horizon region.size / 4) start null → Even (null - start) →
      detect horizon region = .error (.misalignedTerminator (4 * (null - 1))) := by
  have hiff (e : DetectionFailure) : detect horizon region = .error e ↔
      Detection.Rejected (fun i => region.wordAt (4 * i)) (min horizon region.size)
        region.size e := by
    rw [detect, map_eq_error, examineRegion, Detection.examine_eq_error_iff_rejected]
  refine ⟨hiff, fun offset h => ?_, fun start null hmarked heven => ?_⟩
  · -- none of the reasons is of this kind
    cases (hiff _).1 h
  · exact (hiff _).2 (.misalignedTerminator hmarked heven)

/-- A region with one entry, whose terminator has the tag zero. -/
def regionWithZeroTerminator : ByteArray :=
  ⟨#[0x04, 0x20, 0x43, 0x80, 3, 0, 0, 0, 0x14, 0x20, 0x43, 0x80, 0, 0, 0, 0, 0, 0, 0, 0]⟩

/-- The zero tag is found as the null of the array, and the terminator is said to be misaligned. -/
theorem detect_regionWithZeroTerminator :
    Detection.Marked (fun i => regionWithZeroTerminator.wordAt (4 * i)) (min 16384 20 / 4) 1 3 ∧
      Even (3 - 1) ∧
      detect 16384 regionWithZeroTerminator = .error (.misalignedTerminator 8) := by
  have hmarked : Detection.Marked (fun i => regionWithZeroTerminator.wordAt (4 * i))
      (min 16384 20 / 4) 1 3 := by
    refine ⟨⟨by decide, by decide⟩, ⟨⟨by decide, by decide, by decide⟩, fun i hi => hi.1⟩,
      ⟨⟨by decide, by decide, by decide⟩, fun i hi => ?_⟩⟩
    -- word 2 lies before it and is not null
    obtain ⟨hlt, -, hnull⟩ := hi
    by_contra hle
    obtain rfl : i = 2 := by omega
    exact absurd hnull (by decide)
  have heven : Even (3 - 1) := by decide
  obtain ⟨-, -, hmisaligned⟩ := detect_eq_error_iff_rejected 16384 regionWithZeroTerminator
  exact ⟨hmarked, heven, hmisaligned 1 3 hmarked heven⟩

end ConfigArea
