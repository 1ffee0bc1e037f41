import ConfigArea.Guarded.Detection
import ConfigArea.Proofs.Detection.Stages

/-!
# Detection goes through

No region stops detection, however it is cut and however far it may be scanned: the landmarks tell
that every index is inside and every difference is not below zero, and the size of the region that
no offset is too large. What detection gives is what it gives without guards.

## Key results

- `scan_gives`, `guess_gives`, `walk_gives`, `checkTablePointer_gives`, `checkPayloads_gives`: each
  stage goes through
- `detect_gives`: detection goes through
-/

namespace ConfigArea.Guarded

variable {word : Nat → Word} {horizon i count : Nat}

/-! ## The link-time address -/

/-- The link-time address does not lie above the pointer. -/
theorem linkBase_le (pointer : UInt32) : linkBase pointer ≤ pointer := by
  rw [UInt32.le_iff_toNat_le, toNat_linkBase]
  omega

/-- The link-time address is the pointer without its offset in the page. -/
theorem and_pageMask (pointer : UInt32) : pointer &&& pageMask = linkBase pointer := by
  apply UInt32.toNat_inj.1
  have hbits := toNat_and_not pointer.toBitVec (BitVec.ofNat 32 4095)
  rw [toNat_linkBase, ← Nat.and_two_pow_sub_one_eq_mod pointer.toNat 12]
  exact hbits

/-! ## The scan -/

/-- Once the array has started, the scan goes on to the first zero. -/
theorem scanFrom_some_gives {all : List ByteArray} {start : Nat}
    (h : i + count < 0x10000000000000000) :
    Gives (scanFrom horizon all (cells word i count) i (some start))
      (match firstIndex (fun i => (word i).kind == .zero) i (i + count) with
      | none => .error (.missingArrayEnd horizon)
      | some null => .ok ⟨all, start, null + 1⟩) := by
  -- Induction on the number of words that are left.
  induction count generalizing i with
  | zero => simp [firstIndex, firstSome, scanFrom, gives_throw]
  | succ count ih =>
    have ih := ih (i := i + 1) (by omega)
    rw [cells_succ, scanFrom, wordKind_toBytes, firstIndex_of_lt (by omega)]
    by_cases hk : (word i).kind = .zero
    · -- the word is the null that ends the array
      simp only [hk, beq_self_eq_true, if_true]
      exact .lift (add_of_lt (by omega)) (gives_pure _)
    · -- it is part of the array
      simp only [hk, beq_iff_eq, if_false]
      rw [show i + (count + 1) = i + 1 + count by omega]
      exact .lift (add_of_lt (by omega)) ih

/-- The scan goes on to the first tag, and from there to the first zero. -/
theorem scanFrom_none_gives {all : List ByteArray} (h : i + count < 0x10000000000000000) :
    Gives (scanFrom horizon all (cells word i count) i none)
      (match firstIndex (fun i => (word i).kind == .tag) i (i + count) with
      | none => .error (.missingArrayStart horizon)
      | some start =>
        match firstIndex (fun i => (word i).kind == .zero) (start + 1) (i + count) with
        | none => .error (.missingArrayEnd horizon)
        | some null => .ok ⟨all, start, null + 1⟩) := by
  induction count generalizing i with
  | zero => simp [firstIndex, firstSome, scanFrom, gives_throw]
  | succ count ih =>
    have ih := ih (i := i + 1) (by omega)
    -- where the array starts at this word, it ends at the first zero among the rest
    have hrest : Gives (scanFrom horizon all (cells word (i + 1) count) (i + 1) (some i)) _ :=
      scanFrom_some_gives (by omega)
    rw [cells_succ, scanFrom, wordKind_toBytes, firstIndex_of_lt (by omega),
      show i + (count + 1) = i + 1 + count by omega]
    by_cases hk : (word i).kind = .tag
    · -- the array starts here
      simp only [hk, beq_self_eq_true, if_true]
      exact .lift (add_of_lt (by omega)) hrest
    · -- it does not
      simp only [hk, beq_iff_eq, if_false]
      exact .lift (add_of_lt (by omega)) ih

/-- What a scan of `n` bytes keeps of the landmarks. -/
def Scan.ofLandmarks (word : Nat → Word) (n : Nat) (m : Detection.Landmarks) : Scan :=
  ⟨cells word 0 (n / 4), m.start, m.null + 1⟩

/-- The scan finds the landmarks. -/
theorem scan_gives (horizon : Nat) {region : ByteArray} (h : region.size < 0x8000000000000000) :
    Gives (scan horizon region)
      ((Detection.landmarks (fun i => region.wordAt (4 * i)) (min horizon region.size)).map
        (.ofLandmarks (fun i => region.wordAt (4 * i)) (min horizon region.size))) := by
  have hle : min horizon region.size ≤ region.size := Nat.min_le_right _ _
  rw [scan]
  refine .lift (slice_of_le (Nat.zero_le _) hle) ?_
  rw [words_extract hle]
  generalize min horizon region.size = n at hle
  rw [Detection.landmarks]
  cases hcount : n / 4 with
  | zero =>
    -- there is no complete word
    rw [if_pos (.inl (by omega))]
    exact gives_throw _
  | succ count =>
    rw [cells_succ]
    dsimp only
    rw [wordKind_toBytes]
    by_cases hk : (region.wordAt (4 * 0)).kind = .pointer
    · -- the first word is a pointer, and the scan goes on behind it
      have hlandmarks : ¬(n < 4 ∨ (region.wordAt (4 * 0)).kind ≠ .pointer) :=
        not_or.2 ⟨by omega, fun h => h hk⟩
      rw [if_pos hk, if_neg hlandmarks]
      refine (scanFrom_none_gives (by omega)).congr ?_
      rw [Nat.add_comm 1 count]
      -- the same two searches, and their results as the scan keeps them
      cases firstIndex (fun i => (region.wordAt (4 * i)).kind == .tag) 1 (count + 1) with
      | none => rfl
      | some start =>
        dsimp only
        cases firstIndex (fun i => (region.wordAt (4 * i)).kind == .zero) (start + 1)
          (count + 1) with
        | none => rfl
        | some null => simp [Except.map, Scan.ofLandmarks, hcount]
    · -- it is not
      rw [if_neg hk, if_pos (.inr hk)]
      exact gives_throw _

/-! ## The stages behind it -/

section Stages

variable {m : Detection.Landmarks} {n : Nat} {order : ByteOrder}

/-- Each complete word of the scan is there. -/
theorem word_ofLandmarks (h : 4 * i + 4 ≤ n) :
    (Scan.ofLandmarks word n m).word i = some (word i).toBytes :=
  getElem?_cells (by omega)

/-- The guess goes through, since the terminator lies between the start of the array and its end. -/
theorem guess_gives (hm : m.Marks word n) (hn : n < 0x8000000000000000) :
    Gives (guess (.ofLandmarks word n m)) (Detection.guess word m) := by
  have hlt := hm.start_lt
  have hnull := hm.null_lt
  have hterminator : m.terminator = m.null - 1 := rfl
  have hoffset : mul m.terminator 4 = some (4 * m.terminator) := by
    rw [mul_of_lt (by omega), Nat.mul_comm]
  rw [guess, Detection.guess]
  -- the terminator comes before the null, and the array before the terminator
  refine .lift (show sub (m.null + 1) 2 = some m.terminator from sub_of_le (by omega)) ?_
  refine .lift (show sub m.terminator m.start = _ from sub_of_le (by omega)) ?_
  refine .ite (fun _ => .lift hoffset (gives_throw _)) fun _ => ?_
  -- its word is there to be read
  refine .lift (word_ofLandmarks (by omega)) ?_
  refine .lift (wordValue_toBytes _) ?_
  refine .ite (fun _ => .lift hoffset (gives_throw _)) fun _ => ?_
  exact .ite (fun _ => gives_pure _) fun _ => gives_pure _

/-- The walk goes through, since its last entry is the terminator, whose payload is null. -/
theorem walk_gives (order : ByteOrder) (hm : m.Marks word n) (hn : n < 0x8000000000000000)
    (hi : m.start ≤ i) (hcount : i + 2 * count = m.terminator) (acc : List (Nat × UInt32)) :
    Gives (walk (.ofLandmarks word n m) order i acc)
      ((Detection.walk word order i count).map fun slots =>
        acc ++ slots.map fun s => (s.payloadOffset, s.payload)) := by
  have hlt := hm.start_lt
  have hnull := hm.null_lt
  have hterminator : m.terminator = m.null - 1 := rfl
  -- Induction on the number of entries before the terminator. What has been walked is kept in
  -- `acc`.
  induction count generalizing i acc with
  | zero =>
    -- the walk is at the terminator: its payload is inside, and null
    obtain rfl : i = m.null - 1 := by omega
    have hnext : m.null - 1 + 1 = m.null := by omega
    have hend : m.null < (Scan.ofLandmarks word n m).arrayEnd := Nat.lt_succ_self _
    rw [walk]
    refine .lift (add_of_lt (by omega)) ?_
    rw [hnext, if_pos hend]
    refine .lift (word_ofLandmarks (by omega)) ?_
    rw [wordKind_toBytes, if_pos hm.null_kind]
    simp [Detection.walk, Except.map, gives_pure]
  | succ count ih =>
    have ih := ih (i := i + 2) (by omega) (by omega)
    rw [walk, Detection.walk]
    -- an entry before it, which is named to keep what is read of it together
    generalize hslot : Detection.slotAt word order i = slot
    have hend : i + 1 < (Scan.ofLandmarks word n m).arrayEnd := by
      change i + 1 < m.null + 1
      omega
    have htag : wordValue (word i).toBytes order = some slot.tag := by rw [← hslot]; rfl
    have hpayload : wordValue (word (i + 1)).toBytes order = some slot.payload := by
      rw [← hslot]; rfl
    -- its offsets are those that a failure reports
    have htagOffset : mul i 4 = some slot.offset := by
      rw [mul_of_lt (by omega), Nat.mul_comm, ← hslot]
      rfl
    have hpayloadOffset : mul (i + 1) 4 = some slot.payloadOffset := by
      rw [mul_of_lt (by omega), Nat.mul_comm, ← hslot]
      rfl
    -- the payload is inside and not null, so the walk does not end here
    refine .lift (add_of_lt (by omega)) ?_
    rw [if_pos hend]
    refine .lift (word_ofLandmarks (by omega)) ?_
    rw [wordKind_toBytes, if_neg (hm.kind_ne _ (by omega) (by omega))]
    refine .lift (word_ofLandmarks (by omega)) ?_
    refine .lift htag ?_
    -- the tag is refused, ends the walk, or is followed by further entries
    by_cases hinvalid : Tag.lastRaw < slot.tag
    · simp only [hinvalid, if_true]
      exact .lift htagOffset (gives_throw _)
    simp only [hinvalid, if_false]
    refine .lift hpayloadOffset (.lift hpayload ?_)
    by_cases hlast : slot.tag = Tag.lastRaw
    · simp only [hlast, if_true]
      exact gives_pure _
    simp only [hlast, if_false]
    -- the next entry is two words on, and what is walked from there is added
    refine .lift (advance_of_lt (by omega)) ((ih _).congr ?_)
    cases Detection.walk word order (i + 2) count with
    | error e => rfl
    | ok slots => simp [Except.map]

/-- The link-time address lies at or below the table pointer. -/
theorem checkTablePointer_gives (order : ByteOrder) (hm : m.Marks word n)
    (hn : n < 0x8000000000000000) :
    Gives (checkTablePointer (.ofLandmarks word n m) order)
      (if ((word 0).value order - linkBase ((word 0).value order)).toNat ≠ 4 * m.start then
        .error (.tablePointerMismatch ((word 0).value order) (4 * m.start))
      else .ok (linkBase ((word 0).value order))) := by
  have hlt := hm.start_lt
  have hnull := hm.null_lt
  rw [checkTablePointer]
  refine .lift (word_ofLandmarks (by omega)) ?_
  refine .lift (wordValue_toBytes _) ?_
  -- the pointer without its offset in the page is the link-time address, below the pointer
  rw [and_pageMask]
  refine .lift (show mul m.start 4 = _ from mul_of_lt (by omega)) ?_
  refine .lift (sub32_of_le (linkBase_le _)) ?_
  rw [Nat.mul_comm]
  exact .ite (fun _ => gives_throw _) fun _ => gives_pure _

/-- A pointer that is not above the link-time address is refused before they are subtracted. -/
theorem checkPayloads_gives (base : UInt32) (size : Nat) (slots : List Slot) :
    Gives (checkPayloads base size (slots.map fun s => (s.payloadOffset, s.payload)))
      (match slots.find? fun s => !Detection.reaches base size s.payload with
      | some s => .error (.pointerOutOfRange s.payloadOffset s.payload base size)
      | none => .ok ()) := by
  -- Induction on the entries: the first one that does not reach into the region is reported.
  induction slots with
  | nil => exact gives_pure ()
  | cons s slots ih =>
    rw [List.map_cons, checkPayloads, List.find?_cons]
    by_cases hbase : s.payload ≤ base
    · -- the pointer is not above the base
      have hreaches : Detection.reaches base size s.payload = false := by
        simp [Detection.reaches, UInt32.not_lt.2 hbase]
      rw [if_pos hbase, hreaches]
      exact gives_throw _
    rw [if_neg hbase]
    refine .lift (sub32_of_le (UInt32.le_of_lt (UInt32.not_le.1 hbase))) ?_
    by_cases hsize : size < (s.payload - base).toNat
    · -- it is too far above it
      have hreaches : Detection.reaches base size s.payload = false := by
        simp [Detection.reaches, hsize]
      rw [if_pos hsize, hreaches]
      exact gives_throw _
    · -- it reaches into the region, and the other entries are checked
      have hreaches : Detection.reaches base size s.payload = true := by
        simp [Detection.reaches, UInt32.not_le.1 hbase, Nat.not_lt.1 hsize]
      rw [if_neg hsize, hreaches]
      exact ih

end Stages

/-- The order that an examination finds, stage by stage. -/
theorem map_order_examine (word : Nat → Word) (n size : Nat) :
    (Detection.examine word n size).map (·.order) =
      (Detection.landmarks word n >>= fun m =>
        Detection.guess word m >>= fun order =>
        Detection.walk word order m.start ((m.terminator - m.start) / 2) >>= fun slots =>
        (if ((word 0).value order - linkBase ((word 0).value order)).toNat ≠ 4 * m.start then
          .error (.tablePointerMismatch ((word 0).value order) (4 * m.start))
        else .ok (linkBase ((word 0).value order))) >>= fun base =>
        (match slots.find? fun s => !Detection.reaches base size s.payload with
        | some s => .error (.pointerOutOfRange s.payloadOffset s.payload base size)
        | none => .ok ()) >>= fun _ => .ok order) := by
  rw [Detection.examine]
  -- a failure of a stage is one of the whole, and a result is handed to the next stage
  cases Detection.landmarks word n with
  | error e => rfl
  | ok m =>
    rw [ok_bind, ok_bind]
    cases Detection.guess word m with
    | error e => rfl
    | ok order =>
      rw [ok_bind, ok_bind]
      cases Detection.walk word order m.start ((m.terminator - m.start) / 2) with
      | error e => rfl
      | ok slots =>
        rw [ok_bind, ok_bind]
        -- the table pointer is compared, and then the payloads
        dsimp only
        split
        · rfl
        · rw [ok_bind]
          cases slots.find? fun s => !Detection.reaches _ size s.payload <;> rfl

/-- Detection goes through. -/
theorem detect_gives (horizon : Nat) {region : ByteArray} (h : region.size < 0x8000000000000000) :
    Gives (detect horizon region) (ConfigArea.detect horizon region) := by
  rw [ConfigArea.detect, examineRegion, detect]
  have hn : min horizon region.size < 0x8000000000000000 := by omega
  have hscan := scan_gives horizon h
  generalize (fun i => region.wordAt (4 * i)) = word at *
  rw [map_order_examine]
  cases hm : Detection.landmarks word (min horizon region.size) with
  | error e => exact (hm ▸ hscan : Gives _ (Except.map _ (.error e))).error_bind
  | ok m =>
    refine (hm ▸ hscan : Gives _ (Except.map _ (.ok m))).ok_bind ?_
    -- the landmarks bound all indices of the stages behind them
    have hmarks := Detection.marks_of_landmarks hm
    have hlt := hmarks.start_lt
    have hnull := hmarks.null_lt
    have hterminator : m.terminator = m.null - 1 := rfl
    refine (guess_gives hmarks hn).bind fun order ho => ?_
    -- a guess that succeeds tells that the array is one of whole entries
    have heven := ((Detection.guess_eq_ok_iff (hmarks.kind_ne _ (by omega) (by omega))).1 ho).1
    have hcount : m.start + 2 * ((m.terminator - m.start) / 2) = m.terminator := by omega
    have hwalk := walk_gives order hmarks hn (Nat.le_refl _) hcount []
    cases hw : Detection.walk word order m.start ((m.terminator - m.start) / 2) with
    | error e => exact (hw ▸ hwalk : Gives _ (Except.map _ (.error e))).error_bind
    | ok slots =>
      refine (hw ▸ hwalk : Gives _ (Except.map _ (.ok slots))).ok_bind ?_
      -- at last the two checks of pointers, in their order
      refine (checkTablePointer_gives order hmarks hn).bind fun base _ => ?_
      refine (checkPayloads_gives base region.size slots).bind fun _ _ => ?_
      refine .lift (show mul m.start 4 = _ from mul_of_lt (by omega)) ?_
      exact gives_pure _

end ConfigArea.Guarded
