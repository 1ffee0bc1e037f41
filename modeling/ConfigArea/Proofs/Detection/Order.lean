import ConfigArea.Proofs.Detection.Locality

/-!
# The byte order that detection tells

The kinds of the words are the same in either byte order, so nothing but the tag of the terminator
tells one from the other. It is read as the host would, and where that gives no tag the other order
is taken without a look at what the tag is there: a terminator that is no tag in either order does
not keep a region from being accepted. Where it is a tag in one of them, detection treats the two
orders alike.

## Key results

- `exists_terminator_of_detect`: the terminator of an accepted region is a tag in the order told if
  it is one in either, and always if that is the order of the host
- `detect_swapWords`: reversing the bytes of every word flips the order and changes nothing else
-/

namespace ConfigArea

/-! ## The terminator -/

namespace Detection

/-- The landmarks of `region` among the words that lie within the horizon. -/
def scan (horizon : Nat) (region : ByteArray) : Except DetectionFailure Landmarks :=
  landmarks (fun i => region.wordAt (4 * i)) (min horizon region.size)

/-- The landmarks of `region` are found, and the tag of its terminator, read in the order `o`, is
one from 1 to the last. -/
def HasTerminator (horizon : Nat) (region : ByteArray) (o : ByteOrder) : Prop :=
  ∃ m, scan horizon region = .ok m ∧
    1 ≤ ((region.wordAt (4 * m.terminator)).value o).toNat ∧
    ((region.wordAt (4 * m.terminator)).value o).toNat ≤ 16

variable {word : Nat → Word} {order : ByteOrder}

/-- Where the tag of the terminator is one in either order, that order is guessed. -/
theorem guess_of_tag {m : Landmarks} (heven : (m.terminator - m.start) % 2 = 0)
    (hpos : 1 ≤ ((word m.terminator).value order).toNat)
    (hle : ((word m.terminator).value order).toNat ≤ 16) : guess word m = .ok order := by
  -- a tag from 1 on is not zero
  have hkind : (word m.terminator).kind ≠ .zero := by
    intro h
    rw [← Word.value_eq_zero_iff (o := order), ← UInt32.toNat_inj, UInt32.toNat_zero] at h
    omega
  apply (guess_eq_ok_iff hkind).2
  refine ⟨heven, ?_⟩
  cases order with
  | little => exact (if_pos (UInt32.le_iff_toNat_le.2 hle)).symm
  | big =>
    -- a small number in one order is a large one in the other
    have hlarge := Word.lt_value_little hpos (by omega)
    have hno : ¬(word m.terminator).value .little ≤ 16 := by
      rw [UInt32.le_iff_toNat_le, show (16 : UInt32).toNat = 16 from rfl]
      omega
    exact (if_neg hno).symm

/-- The tag of the terminator of an accepted region is not zero. -/
theorem terminator_ne_zero {horizon size : Nat} {v : Verdict}
    (h : examine word horizon size = .ok v) :
    (word v.landmarks.terminator).value v.order ≠ 0 := by
  have marks := marks_of_landmarks (examine_eq_ok_iff.1 h).1
  have hlt := marks.start_lt
  have hterm : v.landmarks.terminator = v.landmarks.null - 1 := rfl
  intro h₀
  exact marks.kind_ne v.landmarks.terminator (by omega) (by omega) (Word.value_eq_zero_iff.1 h₀)

/-- An order in which the terminator of an accepted region has a tag is the one that is told. -/
theorem order_eq_of_tag {horizon size : Nat} {v : Verdict}
    (h : examine word horizon size = .ok v)
    (hpos : 1 ≤ ((word v.landmarks.terminator).value order).toNat)
    (hle : ((word v.landmarks.terminator).value order).toNat ≤ 16) : v.order = order := by
  have hguess := (examine_eq_ok_iff.1 h).2.1
  have hkind : (word v.landmarks.terminator).kind ≠ .zero := fun h₀ =>
    terminator_ne_zero h (Word.value_eq_zero_iff.2 h₀)
  have heven := ((guess_eq_ok_iff hkind).1 hguess).1
  exact Except.ok.inj (hguess.symm.trans (guess_of_tag heven hpos hle))

/-- The order of the host is told only where the terminator has a tag in it. -/
theorem terminator_le_of_host {horizon size : Nat} {v : Verdict}
    (h : examine word horizon size = .ok v) (hhost : v.order = .host) :
    ((word v.landmarks.terminator).value v.order).toNat ≤ 16 := by
  have hkind : (word v.landmarks.terminator).kind ≠ .zero := fun h₀ =>
    terminator_ne_zero h (Word.value_eq_zero_iff.2 h₀)
  have horder := ((guess_eq_ok_iff hkind).1 (examine_eq_ok_iff.1 h).2.1).2
  rw [hhost] at horder ⊢
  by_cases hle : (word v.landmarks.terminator).value .host ≤ Tag.lastRaw
  · exact UInt32.le_iff_toNat_le.1 hle
  · -- the other order would have been told
    rw [if_neg hle] at horder
    cases horder

end Detection

open Detection in
/-- The tag of the terminator of an accepted region, read in the order told, is not zero. It is one
up to the last exactly if it is in either order, and it always is where the order told is the
host's. -/
theorem exists_terminator_of_detect {horizon : Nat} {region : ByteArray} {o : ByteOrder}
    (h : detect horizon region = .ok o) :
    ∃ m, scan horizon region = .ok m ∧ (region.wordAt (4 * m.terminator)).value o ≠ 0 ∧
      (HasTerminator horizon region o ↔ ∃ o', HasTerminator horizon region o') ∧
      (o = .host → HasTerminator horizon region o) := by
  obtain ⟨v, hv, rfl⟩ := detect_eq_ok_iff.1 h
  have hm : scan horizon region = .ok v.landmarks := (examine_eq_ok_iff.1 hv).1
  have hne := terminator_ne_zero hv
  refine ⟨v.landmarks, hm, hne, ⟨fun h => ⟨_, h⟩, ?_⟩, ?_⟩
  · -- an order in which there is a tag is the one that is told
    intro h
    obtain ⟨o', m, hm', hpos, hle⟩ := h
    obtain rfl : v.landmarks = m := Except.ok.inj (hm.symm.trans hm')
    obtain rfl : v.order = o' := order_eq_of_tag hv hpos hle
    exact ⟨_, hm', hpos, hle⟩
  · -- the host's order is told because there is a tag in it
    intro hhost
    have hle := terminator_le_of_host hv hhost
    have hpos : ((region.wordAt (4 * v.landmarks.terminator)).value v.order).toNat ≠ 0 :=
      fun h₀ => hne (UInt32.toNat_inj.1 h₀)
    exact ⟨v.landmarks, hm, by omega, hle⟩

/-- A region in little-endian order with one entry, and two bytes behind its words. -/
def regionWithEntry : ByteArray :=
  ⟨#[0x04, 0x20, 0x43, 0x80, 3, 0, 0, 0, 0x14, 0x20, 0x43, 0x80, 16, 0, 0, 0, 0, 0, 0, 0, 7, 9]⟩

open Detection in
/-- The region with an entry is accepted, and has a terminator in the order told. -/
theorem exists_terminator_regionWithEntry :
    detect 16384 regionWithEntry = .ok .little ∧ HasTerminator 16384 regionWithEntry .little := by
  have hdetect : detect 16384 regionWithEntry = .ok .little := rfl
  obtain ⟨m, -, -, -, hhost⟩ := exists_terminator_of_detect hdetect
  exact ⟨hdetect, hhost rfl⟩

/-- A region in big-endian order without entries, and with the terminator 17. -/
def regionWithUnknownTerminator : ByteArray :=
  ⟨#[0x80, 0x43, 0x20, 0x04, 0, 0, 0, 17, 0, 0, 0, 0]⟩

open Detection in
/-- A terminator is accepted that has no known tag in the order told. -/
theorem detect_regionWithUnknownTerminator :
    detect 16384 regionWithUnknownTerminator = .ok .big ∧
      ((regionWithUnknownTerminator.wordAt 4).value .big).toNat = 17 ∧
      ¬HasTerminator 16384 regionWithUnknownTerminator .big := by
  have hscan : scan 16384 regionWithUnknownTerminator = .ok ⟨1, 2⟩ := rfl
  refine ⟨rfl, rfl, ?_⟩
  intro h
  obtain ⟨m, hm, -, hle⟩ := h
  -- the terminator is the word that was just read
  obtain rfl : ⟨1, 2⟩ = m := Except.ok.inj (hscan.symm.trans hm)
  exact absurd hle (by decide)

/-! ## Reversing the bytes of every word -/

/-- The bytes of every complete word reversed. What is left behind the last one stays. -/
def reverseWords : List UInt8 → List UInt8
  | b0 :: b1 :: b2 :: b3 :: rest => b3 :: b2 :: b1 :: b0 :: reverseWords rest
  | rest => rest

/-- Reversing the bytes of words keeps their number. -/
theorem length_reverseWords (l : List UInt8) : (reverseWords l).length = l.length := by
  fun_induction reverseWords l with
  | case1 b0 b1 b2 b3 rest ih => simp only [List.length_cons, ih]
  | case2 l h => rfl

/-- Inside a complete word the byte at a place is the one at the opposite place. -/
theorem getElem?_reverseWords {l : List UInt8} {i k : Nat} (hk : k < 4)
    (h : 4 * i + 4 ≤ l.length) : (reverseWords l)[4 * i + k]? = l[4 * i + (3 - k)]? := by
  -- Induction on the number of words before this one, along with the recursion on the bytes.
  fun_induction reverseWords l generalizing i with
  | case1 b0 b1 b2 b3 rest ih =>
    cases i with
    | zero =>
      have hk : k = 0 ∨ k = 1 ∨ k = 2 ∨ k = 3 := by omega
      rcases hk with rfl | rfl | rfl | rfl <;> rfl
    | succ i =>
      have hrest : 4 * i + 4 ≤ rest.length := by
        simp only [List.length_cons] at h
        omega
      rw [show 4 * (i + 1) + k = 4 * i + k + 1 + 1 + 1 + 1 by omega,
        show 4 * (i + 1) + (3 - k) = 4 * i + (3 - k) + 1 + 1 + 1 + 1 by omega]
      simp only [List.getElem?_cons_succ]
      exact ih hrest
  | case2 l hshort =>
    -- there is no complete word
    obtain ⟨b0, b1, b2, b3, rest, rfl⟩ : ∃ b0 b1 b2 b3 rest, l = b0 :: b1 :: b2 :: b3 :: rest := by
      match l, h with
      | b0 :: b1 :: b2 :: b3 :: rest, _ => exact ⟨b0, b1, b2, b3, rest, rfl⟩
    exact absurd rfl (hshort b0 b1 b2 b3 rest)

end ConfigArea

namespace ByteArray

open ConfigArea

/-- The bytes of every complete word reversed. What is left behind the last one stays. -/
def swapWords (b : ByteArray) : ByteArray :=
  ⟨⟨reverseWords b.data.toList⟩⟩

/-- A region whose words are swapped has the same size. -/
theorem size_swapWords (b : ByteArray) : b.swapWords.size = b.size :=
  length_reverseWords b.data.toList

/-- The byte at an offset, in the view as a list. -/
theorem byteAt_eq_getD (b : ByteArray) (i : Nat) : b.byteAt i = b.data.toList[i]?.getD 0 := by
  by_cases h : i < b.size
  · rw [byteAt_of_lt h, getElem_eq_getElem_data, Array.getElem?_toList,
      Array.getElem?_eq_getElem h, Option.getD_some]
  · have hnone : b.data.toList[i]? = none := List.getElem?_eq_none (Nat.not_lt.1 h)
    rw [byteAt_of_le (Nat.not_lt.1 h), hnone, Option.getD_none]

/-- Every complete word is swapped. -/
theorem wordAt_swapWords {b : ByteArray} {i : Nat} (h : 4 * i + 4 ≤ b.size) :
    b.swapWords.wordAt (4 * i) = (b.wordAt (4 * i)).swap := by
  have hbyte (k : Nat) (hk : k < 4) :
      b.swapWords.byteAt (4 * i + k) = b.byteAt (4 * i + (3 - k)) := by
    rw [byteAt_eq_getD, byteAt_eq_getD]
    exact congrArg (·.getD 0) (getElem?_reverseWords hk h)
  rw [wordAt, wordAt, hbyte 1 (by decide), hbyte 2 (by decide), hbyte 3 (by decide)]
  rw [show b.swapWords.byteAt (4 * i) = b.byteAt (4 * i + 3) from hbyte 0 (by decide)]
  rfl

end ByteArray

namespace ConfigArea

/-- The failure with the byte order that it names flipped. -/
def DetectionFailure.swapped : DetectionFailure → DetectionFailure
  | invalidTag offset tag order => .invalidTag offset tag order.swapped
  | e => e

namespace Detection

/-- The verdict with its byte order flipped. -/
def Verdict.swapped (v : Verdict) : Verdict :=
  { v with order := v.order.swapped }

variable {word : Nat → Word} {order : ByteOrder}

/-- The landmarks are told by the kinds of the words, which no order of their bytes changes. -/
theorem landmarks_swap {horizon : Nat} :
    landmarks (fun i => (word i).swap) horizon =
      carry DetectionFailure.swapped id (landmarks word horizon) := by
  simp only [landmarks, Word.kind_swap]
  split
  · rfl
  · split
    · rfl
    · split <;> rfl

/-- A swapped slot, read in the opposite order, is the slot. -/
@[simp] theorem slotAt_swap (i : Nat) :
    slotAt (fun i => (word i).swap) order.swapped i = slotAt word order i := by
  simp only [slotAt, Word.value_swap]

/-- The guess flips, if the terminator has a tag in one of the two orders. -/
theorem guess_swap {m : Landmarks} (hpos : 1 ≤ ((word m.terminator).value order).toNat)
    (hle : ((word m.terminator).value order).toNat ≤ 16) :
    guess (fun i => (word i).swap) m =
      carry DetectionFailure.swapped ByteOrder.swapped (guess word m) := by
  by_cases heven : (m.terminator - m.start) % 2 = 0
  · have hswap : guess (fun i => (word i).swap) m = .ok order.swapped :=
      guess_of_tag heven (by rwa [Word.value_swap]) (by rwa [Word.value_swap])
    rw [guess_of_tag heven hpos hle, hswap]
    rfl
  · -- the terminator is not looked at
    rw [guess, guess, if_pos heven, if_pos heven]
    rfl

/-- The walk over swapped words in the opposite order meets the same slots. -/
theorem walk_swap {i count : Nat} :
    walk (fun i => (word i).swap) order.swapped i count =
      carry DetectionFailure.swapped id (walk word order i count) := by
  induction count generalizing i with
  | zero => rfl
  | succ count ih =>
    rw [walk, walk, slotAt_swap, ih]
    split
    · rfl
    · split
      · rfl
      · -- no slot names an order
        apply map_carry
        intro slots
        rfl

/-- Detection sees the same in swapped words, in the opposite order, if the terminator has a tag in
one of the two. -/
theorem examine_swap {horizon size : Nat}
    (h : ∀ m, landmarks word horizon = .ok m →
      ∃ o, 1 ≤ ((word m.terminator).value o).toNat ∧ ((word m.terminator).value o).toNat ≤ 16) :
    examine (fun i => (word i).swap) horizon size =
      carry DetectionFailure.swapped Verdict.swapped (examine word horizon size) := by
  -- one stage after the other: each gives the same on both sides but for the order
  unfold examine
  rw [landmarks_swap]
  apply carry_id_bind
  intro m hm
  obtain ⟨o, hpos, hle⟩ := h m hm
  rw [guess_swap hpos hle]
  apply carry_bind
  intro order _
  rw [walk_swap]
  apply carry_id_bind
  intro slots _
  rw [Word.value_swap]
  -- the checks of the pointers compare the same numbers
  dsimp only
  split
  · rfl
  · split <;> rfl

/-- Detection sees the same in a region whose words are swapped. What is behind the last complete
word is not looked at. -/
theorem examineRegion_swapWords {horizon : Nat} {region : ByteArray}
    (h : ∀ m, scan horizon region = .ok m →
      ∃ o, 1 ≤ ((region.wordAt (4 * m.terminator)).value o).toNat ∧
        ((region.wordAt (4 * m.terminator)).value o).toNat ≤ 16) :
    examineRegion horizon region.swapWords =
      carry DetectionFailure.swapped Verdict.swapped (examineRegion horizon region) := by
  -- within the region every word that is looked at is complete, so it is reversed
  have hwords : examineRegion horizon region.swapWords =
      examine (fun i => (region.wordAt (4 * i)).swap) (min horizon region.size) region.size := by
    rw [examineRegion, ByteArray.size_swapWords]
    apply examine_congr
    intro i hi
    exact ByteArray.wordAt_swapWords (by omega)
  rw [hwords, examine_swap h, examineRegion]

end Detection

open Detection in
/-- If the bytes of every word of a region are reversed, detection gives the same answer with the
byte order flipped, in an order that it tells as in one that a failure names, and all else in a
failure is as it was. This holds where no landmarks are found, and where the tag of the terminator
is one in at least one of the two orders. -/
theorem detect_swapWords {horizon : Nat} {region : ByteArray}
    (h : (∃ e, scan horizon region = .error e) ∨ ∃ o, HasTerminator horizon region o) :
    detect horizon region.swapWords =
      ((detect horizon region).map ByteOrder.swapped).mapError DetectionFailure.swapped := by
  have hterm : ∀ m, scan horizon region = .ok m →
      ∃ o, 1 ≤ ((region.wordAt (4 * m.terminator)).value o).toNat ∧
        ((region.wordAt (4 * m.terminator)).value o).toNat ≤ 16 := by
    intro m hm
    rcases h with ⟨e, he⟩ | ⟨o, m', hm', hpos, hle⟩
    · -- no landmarks were found
      exact absurd (hm.symm.trans he) nofun
    · -- the landmarks found are those whose terminator has a tag
      obtain rfl : m' = m := Except.ok.inj (hm'.symm.trans hm)
      exact ⟨o, hpos, hle⟩
  rw [detect, detect, examineRegion_swapWords hterm]
  cases examineRegion horizon region <;> rfl

open Detection in
/-- The region with an entry, swapped, is accepted in the opposite order. The bytes behind its words
stay. -/
theorem detect_swapWords_regionWithEntry :
    HasTerminator 16384 regionWithEntry .little ∧
      detect 16384 regionWithEntry = .ok .little ∧
      regionWithEntry.swapWords = ⟨#[0x80, 0x43, 0x20, 0x04, 0, 0, 0, 3, 0x80, 0x43, 0x20, 0x14,
        0, 0, 0, 16, 0, 0, 0, 0, 7, 9]⟩ ∧
      detect 16384 regionWithEntry.swapWords = .ok .big := by
  have hterm : HasTerminator 16384 regionWithEntry .little :=
    ⟨⟨1, 4⟩, rfl, by decide, by decide⟩
  have hdetect : detect 16384 regionWithEntry = .ok .little := rfl
  refine ⟨hterm, hdetect, rfl, ?_⟩
  rw [detect_swapWords (.inr ⟨.little, hterm⟩), hdetect]
  rfl

end ConfigArea
