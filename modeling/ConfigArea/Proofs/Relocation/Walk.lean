import ConfigArea.Proofs.Detection.Stages
import ConfigArea.Relocation

/-!
# The walk of relocation

Detection walks the entries by the index of their words within the part of the region that it may
scan. Relocation walks them again, by their offsets in the buffer, and decodes the payload of each
one before it reads the next. This file shows that the second walk follows the first.

`Passes` is the walk of relocation with the payloads left aside: the entries that it passes, and
the one at which it ends.

## Key results

- `entries_of_passes`: decoding the entries is decoding those that the walk passes, in order
- `passes_of_reached`: the walk passes what detection looked at, and ends where detection did
- `resolve_eq_error_iff`: a payload that detection let pass dangles only at the end of the region
- `relocate_follows_detect`: what relocation can meet once detection has accepted the region
-/

namespace ConfigArea

/-- The entry in a buffer in which it lies `n` bytes further on. -/
def Slot.shift (n : Nat) (s : Slot) : Slot :=
  { s with offset := s.offset + n }

/-- Where an entry lies does not decide whether it ends the array. -/
@[simp] theorem Slot.ending?_shift (n : Nat) (s : Slot) : (s.shift n).ending? = s.ending? := rfl

/-- An entry does not end the array if it has a payload, and a tag below the terminator's. -/
theorem Slot.ending?_eq_none_iff {s : Slot} :
    s.ending? = none ↔ s.payload ≠ 0 ∧ s.tag.toNat < 16 := by
  unfold ending?
  simp only [ne_eq, ← UInt32.toNat_inj, UInt32.lt_iff_toNat_lt,
    show Tag.lastRaw.toNat = 16 from rfl]
  split
  · simp [*]
  · split
    · -- the tag is the terminator's
      simp only [reduceCtorEq, false_iff]
      omega
    · split
      · -- the tag is above it
        simp only [reduceCtorEq, false_iff]
        omega
      · rename_i h₀ h₁ h₂
        exact ⟨fun _ => ⟨h₀, by omega⟩, fun _ => rfl⟩

/-- What ends the array, but not at an unknown tag, has a null payload or the terminator's tag. -/
theorem Slot.ending?_eq_some {s : Slot} {reason : Ending} (h : s.ending? = some reason)
    (hreason : reason ≠ .unknownTag) : s.payload = 0 ∨ s.tag = Tag.lastRaw := by
  unfold ending? at h
  -- a null payload, the tag of the terminator, an unknown tag, and no end
  split at h
  · rename_i h₀
    exact .inl h₀
  · split at h
    · rename_i hlast
      exact .inr hlast
    · split at h
      · exact absurd (Option.some.inj h).symm hreason
      · cases h

namespace Area

/-- The walk over the entries from `offset` on passes the entries `passed` and ends, for the given
reason, at the entry `stop`. -/
inductive Passes (a : Area) : (offset : Nat) → (passed : List Slot) → (stop : Slot) →
    (reason : Ending) → Prop where
  | ends {offset stop reason} : a.slot offset = .ok stop → stop.ending? = some reason →
      Passes a offset [] stop reason
  | next {offset s passed stop reason} : a.slot offset = .ok s → s.ending? = none →
      Passes a (offset + 8) passed stop reason → Passes a offset (s :: passed) stop reason

/-- Decoding the entries of the array is decoding those that the walk passes, one after the other,
up to the first whose payload fails. -/
theorem entries_of_passes {a : Area} {offset : Nat} {passed : List Slot} {stop : Slot}
    {reason : Ending} (h : a.Passes offset passed stop reason) :
    a.entries offset = passed.mapM a.entry := by
  -- Induction on the walk: each case follows one step of `entries` with what the walk has read.
  induction h with
  | ends hread hend =>
    rw [entries_eq_bind, hread, ok_bind, hend]
    rfl
  | @next offset s passed stop reason hread hgo _ ih =>
    rw [entries_eq_bind, hread, ok_bind, hgo, List.mapM_cons, ih]
    dsimp only
    -- the payload decides whether the rest is decoded
    cases a.entry s with
    | error e => rfl
    | ok x => cases passed.mapM a.entry <;> rfl

/-- Decoding an area that starts with a pointer to the walk is decoding what the walk passes. -/
theorem decode_of_passes {a : Area} {head : UInt32} {first : Nat} {passed : List Slot} {stop : Slot}
    {reason : Ending} (hread : a.read a.start = .ok head)
    (hresolve : a.resolve a.start head = .ok first) (h : a.Passes first passed stop reason) :
    a.decode = (passed.mapM a.entry).map fun entries =>
      ⟨a.order, a.linkBase, a.start, a.bytes.size - a.start, first, entries⟩ := by
  unfold decode
  rw [hread, ok_bind, hresolve, ok_bind, entries_of_passes h]
  cases passed.mapM a.entry <;> rfl

/-! ## From words to offsets -/

/-- The words that detection saw, where the area has them: word `i` lies in the area, at the place
that follows from where the area starts. -/
def Shows (a : Area) (word : Nat → Word) (count : Nat) : Prop :=
  ∀ i, i < count → a.start + 4 * i + 4 ≤ a.bytes.size ∧
    a.bytes.wordAt (a.start + 4 * i) = word i

/-- A region of a buffer, taken for an area, shows the words that detection saw. -/
theorem shows_ofBuffer {order : ByteOrder} {buffer : ByteArray} {offset size count : Nat}
    (hfit : offset + size ≤ buffer.size) (hcount : 4 * count ≤ size) :
    (ofBuffer order buffer offset size).Shows
      (fun i => (buffer.extract offset (offset + size)).wordAt (4 * i)) count := by
  intro i hi
  dsimp only [ofBuffer]
  rw [ByteArray.size_extract, ByteArray.wordAt_extract (by omega),
    ByteArray.wordAt_extract (by omega), Nat.zero_add]
  exact ⟨by omega, rfl⟩

/-- An entry is read as detection reads it. -/
theorem slot_of_shows {a : Area} {word : Nat → Word} {count i : Nat} (h : a.Shows word count)
    (hi : i + 1 < count) :
    a.slot (a.start + 4 * i) = .ok ((Detection.slotAt word a.order i).shift a.start) := by
  obtain ⟨-, htag⟩ := h i (by omega)
  obtain ⟨hle, hpayload⟩ := h (i + 1) hi
  rw [slot_eq_ok_iff]
  refine ⟨by omega, ?_⟩
  rw [show a.start + 4 * i + 4 = a.start + 4 * (i + 1) by omega, htag, hpayload,
    Nat.add_comm a.start]
  rfl

open Detection in
/-- The walk passes the entries that detection looked at and ends as detection did: at the null
payload behind them, or at the last of them if it has the last tag. -/
theorem passes_of_reached {a : Area} {word : Nat → Word} {i n : Nat}
    (hshows : a.Shows word (i + 2 * n + 2))
    (hset : ∀ j, i ≤ j → j < i + 2 * n + 1 → (word j).kind ≠ .zero)
    (hnull : (word (i + 2 * n + 1)).kind = .zero)
    (htags : ∀ s ∈ reached word a.order i n, s.tag ≤ Tag.lastRaw) :
    ∃ passed stop reason, a.Passes (a.start + 4 * i) passed stop reason ∧
      (reason = .nullPayload ∧ passed = (reached word a.order i n).map (·.shift a.start) ∧
          stop = (slotAt word a.order (i + 2 * n)).shift a.start ∨
        reason = .lastTag ∧
          passed ++ [stop] = (reached word a.order i n).map (·.shift a.start)) := by
  -- Induction on the number of slots before the null payload: relocation has no such number, it
  -- stops because it reads what detection read.
  induction n generalizing i with
  | zero =>
    have hread := slot_of_shows hshows (i := i) (by omega)
    have hend : ((slotAt word a.order i).shift a.start).ending? = some .nullPayload :=
      if_pos (Word.value_eq_zero_iff.2 hnull)
    exact ⟨[], _, _, .ends hread hend, .inl ⟨rfl, rfl, rfl⟩⟩
  | succ n ih =>
    have hread := slot_of_shows hshows (i := i) (by omega)
    have hpayload : (slotAt word a.order i).payload ≠ 0 := fun h =>
      hset (i + 1) (by omega) (by omega) (Word.value_eq_zero_iff.1 h)
    have hle : (slotAt word a.order i).tag ≤ Tag.lastRaw := htags _ List.mem_cons_self
    by_cases hlast : (slotAt word a.order i).tag = Tag.lastRaw
    · -- both walks end here
      have hend : ((slotAt word a.order i).shift a.start).ending? = some .lastTag := by
        rw [Slot.ending?_shift, Slot.ending?, if_neg hpayload, if_pos hlast]
      refine ⟨[], _, _, .ends hread hend, .inr ⟨rfl, ?_⟩⟩
      rw [reached, if_pos hlast]
      rfl
    · -- both walks go on
      have hgo : ((slotAt word a.order i).shift a.start).ending? = none := by
        rw [Slot.ending?_shift, Slot.ending?, if_neg hpayload, if_neg hlast,
          if_neg (UInt32.not_lt.2 hle)]
      have hrest : reached word a.order i (n + 1) =
          slotAt word a.order i :: reached word a.order (i + 2) n := by
        rw [reached, if_neg hlast]
      have hn : i + 2 * (n + 1) = i + 2 + 2 * n := by omega
      obtain ⟨passed, stop, reason, hwalk, hends⟩ := ih (i := i + 2)
        (by rwa [← hn]) (fun j hj hj' => hset j (by omega) (by omega)) (by rwa [← hn])
        (fun s hs => htags s (by rw [hrest]; exact List.mem_cons_of_mem _ hs))
      rw [show a.start + 4 * (i + 2) = a.start + 4 * i + 8 by omega] at hwalk
      refine ⟨_, stop, reason, .next hread hgo hwalk, ?_⟩
      rw [hrest, List.map_cons, hn]
      rcases hends with ⟨hr, hp, hs⟩ | ⟨hr, hp⟩
      · exact .inl ⟨hr, by rw [hp], hs⟩
      · exact .inr ⟨hr, by rw [List.cons_append, hp]⟩

/-- What the walk passes does not end the array, and what it ends at does. -/
theorem Passes.ending? {a : Area} {offset : Nat} {passed : List Slot} {stop : Slot}
    {reason : Ending} (h : a.Passes offset passed stop reason) :
    (∀ s ∈ passed, s.ending? = none) ∧ stop.ending? = some reason := by
  induction h with
  | ends _ hend => exact ⟨fun _ hs => absurd hs List.not_mem_nil, hend⟩
  | next _ hgo _ ih =>
    refine ⟨fun s hs => ?_, ih.2⟩
    rcases List.mem_cons.1 hs with rfl | hs
    · exact hgo
    · exact ih.1 s hs

/-! ## Pointers -/

/-- Resolving a pointer, in exact arithmetic. -/
theorem resolve_eq (a : Area) (cell : Nat) (pointer : UInt32) :
    a.resolve cell pointer =
      if a.linkBase.toNat ≤ pointer.toNat ∧
          a.start + (pointer.toNat - a.linkBase.toNat) < a.bytes.size then
        .ok (a.start + (pointer.toNat - a.linkBase.toNat))
      else .error (.danglingPointer cell pointer) := by
  unfold resolve
  by_cases hle : a.linkBase ≤ pointer
  · have hle' := UInt32.le_iff_toNat_le.1 hle
    simp only [UInt32.toNat_sub_of_le _ _ hle, hle, hle', true_and]
  · rw [if_neg (fun h => hle h.1), if_neg (fun h => hle (UInt32.le_iff_toNat_le.2 h.1))]

/-- A pointer leads to the offset that is as far behind the start as the pointer is above the
base. -/
theorem resolve_eq_ok_iff {a : Area} {cell target : Nat} {pointer : UInt32} :
    a.resolve cell pointer = .ok target ↔
      a.linkBase.toNat ≤ pointer.toNat ∧ target < a.bytes.size ∧
        target = a.start + (pointer.toNat - a.linkBase.toNat) := by
  rw [resolve_eq]
  split
  · simp only [Except.ok.injEq]
    omega
  · simp only [reduceCtorEq, false_iff]
    omega

/-- A pointer dangles if it is below the base, or leads past the end. -/
theorem resolve_eq_error_iff {a : Area} {cell : Nat} {pointer : UInt32} {e : DecodingFailure} :
    a.resolve cell pointer = .error e ↔
      e = .danglingPointer cell pointer ∧ (pointer.toNat < a.linkBase.toNat ∨
        a.bytes.size ≤ a.start + (pointer.toNat - a.linkBase.toNat)) := by
  rw [resolve_eq]
  split
  · simp only [reduceCtorEq, false_iff]
    omega
  · simp only [Except.error.injEq, eq_comm (b := e), iff_self_and]
    omega

/-- The ways in which the record at `target` fails that an entry with a given tag points to. -/
inductive RecordFails (a : Area) (target : Nat) : Tag → DecodingFailure → Prop where
  | reservations {e} : a.reservations target = .error e → RecordFails a target .moduleMemory e
  | version {t} : Version.read a.bytes target = .error t →
      RecordFails a target .versionInfo (.ofTruncated t)
  | deviceTree {subrev t} : a.deviceTree subrev target = .error t →
      RecordFails a target (.deviceTree subrev) (.ofTruncated t)

/-- A payload fails exactly where the record that its tag asks for does. -/
theorem payload_eq_error_iff {a : Area} {tag : Tag} {target : Nat} {e : DecodingFailure} :
    a.payload tag target = .error e ↔ a.RecordFails target tag e := by
  constructor
  · intro h
    unfold payload at h
    split at h
    · exact .reservations (map_eq_error.1 h)
    · obtain ⟨t, ht, rfl⟩ := mapError_eq_error.1 (map_eq_error.1 h)
      exact .version ht
    · obtain ⟨t, ht, rfl⟩ := mapError_eq_error.1 (map_eq_error.1 h)
      exact .deviceTree ht
    · -- a tag without a record has nothing that fails
      cases h
  · intro h
    cases h with
    | reservations h => exact map_eq_error.2 h
    | version h => exact map_eq_error.2 (mapError_eq_error.2 ⟨_, h, rfl⟩)
    | deviceTree h => exact map_eq_error.2 (mapError_eq_error.2 ⟨_, h, rfl⟩)

/-! ## After detection -/

/-- The walk of relocation, which passes `passed` and ends at `stop`, follows the walk that led
detection to the verdict `v`. -/
structure Follows (a : Area) (v : Detection.Verdict) (passed : List Slot) (stop : Slot)
    (reason : Ending) : Prop where
  linkBase : a.linkBase = v.linkBase
  /-- the table pointer leads to the first entry -/
  head : a.read a.start = .ok a.head ∧
    a.resolve a.start a.head = .ok (a.start + 4 * v.landmarks.start)
  /-- the walk starts there, and no read of it fails -/
  walk : a.Passes (a.start + 4 * v.landmarks.start) passed stop reason
  /-- it ends at the null payload behind the entries that detection looked at, or at the last of
  them if that has the last tag -/
  ends : reason = .nullPayload ∧ passed = v.slots.map (·.shift a.start) ∧
      stop.offset = a.start + 4 * v.landmarks.terminator ∨
    reason = .lastTag ∧ passed ++ [stop] = v.slots.map (·.shift a.start)
  /-- all that it reads lies before the end of the array -/
  before_end : ∀ s ∈ passed ++ [stop], s.offset + 8 ≤ a.start + 4 * (v.landmarks.null + 1)
  /-- the entries that it passes have known tags, and payloads behind the start of the area -/
  passed_mem : ∀ s ∈ passed, (1 ≤ s.tag.toNat ∧ s.tag.toNat ≤ 15) ∧
    a.linkBase.toNat < s.payload.toNat ∧
    a.start + (s.payload.toNat - a.linkBase.toNat) ≤ a.bytes.size

variable {a : Area} {v : Detection.Verdict} {passed : List Slot} {stop : Slot} {reason : Ending}

open Detection in
/-- The walk of an area ends as the walk of detection did on the words that the area shows. -/
theorem exists_passes_of_examine {a : Area} {word : Nat → Word} {horizon size : Nat} {v : Verdict}
    (h : examine word horizon size = .ok v) (horder : a.order = v.order)
    (hshows : a.Shows word (v.landmarks.null + 1)) :
    ∃ passed stop reason, a.Passes (a.start + 4 * v.landmarks.start) passed stop reason ∧
      (reason = .nullPayload ∧ passed = v.slots.map (·.shift a.start) ∧
          stop.offset = a.start + 4 * v.landmarks.terminator ∨
        reason = .lastTag ∧ passed ++ [stop] = v.slots.map (·.shift a.start)) := by
  obtain ⟨hm, ho, hslots, -⟩ := examine_eq_ok_iff.1 h
  have marks := marks_of_landmarks hm
  have hlt := marks.start_lt
  have hterm : v.landmarks.terminator = v.landmarks.null - 1 := rfl
  -- the array is one of whole entries, whose number is the one that detection walked
  have heven := ((guess_eq_ok_iff (marks.kind_ne _ (by omega) (by omega))).1 ho).1
  obtain ⟨hreached, htags⟩ := walk_eq_ok_iff.1 hslots
  rw [← horder] at hreached
  -- the number of slots for which the landmarks leave room
  generalize hn : (v.landmarks.terminator - v.landmarks.start) / 2 = n at hreached
  have hnull : v.landmarks.start + 2 * n + 1 = v.landmarks.null := by omega
  obtain ⟨passed, stop, reason, hwalk, hends⟩ := passes_of_reached (a := a)
    (i := v.landmarks.start) (n := n) (by rwa [← hnull] at hshows)
    (fun j hj hj' => marks.kind_ne j hj (by omega)) (by rw [hnull]; exact marks.null_kind)
    (fun s hs => htags s (by rwa [hreached]))
  refine ⟨passed, stop, reason, hwalk, ?_⟩
  rw [hreached]
  -- at the null payload the place of the terminator is known
  refine hends.imp (fun h => ⟨h.1, h.2.1, ?_⟩) id
  rw [h.2.2]
  show 4 * (v.landmarks.start + 2 * n) + a.start = _
  omega

open Detection in
/-- The walk of an area follows the walk of detection on the words that the area shows. -/
theorem exists_follows_of_examine {a : Area} {word : Nat → Word} {horizon size : Nat}
    {v : Verdict} (h : examine word horizon size = .ok v) (horder : a.order = v.order)
    (hsize : a.bytes.size = a.start + size) (hshows : a.Shows word (v.landmarks.null + 1)) :
    ∃ passed stop reason, a.Follows v passed stop reason := by
  obtain ⟨hm, -, -, hbase, haddress, hreach⟩ := examine_eq_ok_iff.1 h
  have marks := marks_of_landmarks hm
  have hlt := marks.start_lt
  have hterm : v.landmarks.terminator = v.landmarks.null - 1 := rfl
  obtain ⟨hle, hword⟩ := hshows 0 (by omega)
  -- the first word is the pointer that detection compared, so the bases are the same
  have hhead : a.head = (word 0).value v.order := by
    unfold head
    rw [← hword, horder]
    rfl
  have hlink : a.linkBase = v.linkBase := by
    rw [linkBase, hhead, hbase]
  obtain ⟨passed, stop, reason, hwalk, hends⟩ := exists_passes_of_examine h horder hshows
  -- all that the walk meets was looked at before, but for the terminator
  have hmem : ∀ s ∈ passed ++ [stop],
      s.offset = a.start + 4 * v.landmarks.terminator ∧ s = stop ∨
        ∃ t ∈ v.slots, t.shift a.start = s := by
    intro s hs
    rcases hends with ⟨-, hp, hstop⟩ | ⟨-, hp⟩
    · rcases List.mem_append.1 hs with hs | hs
      · rw [hp] at hs
        exact .inr (List.mem_map.1 hs)
      · rw [List.mem_singleton.1 hs]
        exact .inl ⟨hstop, rfl⟩
    · rw [hp] at hs
      exact .inr (List.mem_map.1 hs)
  refine ⟨passed, stop, reason, hlink, ⟨?_, ?_⟩, hwalk, hends, fun s hs => ?_, fun s hs => ?_⟩
  · -- the table pointer is read
    exact read_eq_ok_iff.2 ⟨hle, rfl⟩
  · -- detection has compared the pointer with the place of the array
    rw [resolve_eq_ok_iff, hlink, hbase, hhead, toNat_linkBase]
    have := (hshows v.landmarks.start (by omega)).1
    have := Nat.mod_le ((word 0).value v.order).toNat 4096
    omega
  · -- what the walk meets lies before the end of the array
    rcases hmem s hs with ⟨ho, -⟩ | ⟨t, ht, rfl⟩
    · omega
    · obtain ⟨i, hi, hi', rfl⟩ := exists_slotAt_of_mem h ht
      show 4 * i + a.start + 8 ≤ _
      omega
  · -- an entry that is passed was looked at, with a known tag and a payload that reaches
    have hgo := hwalk.ending?.1 s hs
    rcases hmem s (List.mem_append_left _ hs) with ⟨-, rfl⟩ | ⟨t, ht, rfl⟩
    · rw [hwalk.ending?.2] at hgo
      cases hgo
    · obtain ⟨i, hi, hi', hslot⟩ := exists_slotAt_of_mem h ht
      -- no word of the array is zero, and an entry that is passed has a tag below the last
      have hpos : t.tag.toNat ≠ 0 := by
        intro h₀
        rw [hslot] at h₀
        exact marks.kind_ne i hi (by omega) (Word.value_eq_zero_iff.1 (UInt32.toNat_inj.1 h₀))
      have htag : t.tag.toNat < 16 := (Slot.ending?_eq_none_iff.1 hgo).2
      have hpayload := reaches_iff.1 (hreach t ht)
      rw [← hlink] at hpayload
      show (1 ≤ t.tag.toNat ∧ t.tag.toNat ≤ 15) ∧ a.linkBase.toNat < t.payload.toNat ∧
        a.start + (t.payload.toNat - a.linkBase.toNat) ≤ a.bytes.size
      omega

/-- The walk of relocation follows the walk of detection in every region that is accepted. -/
theorem exists_follows {horizon : Nat} {buffer : ByteArray} {offset size : Nat}
    {v : Detection.Verdict} (hfit : offset + size ≤ buffer.size)
    (h : examineRegion horizon (buffer.extract offset (offset + size)) = .ok v) :
    ∃ passed stop reason,
      (ofBuffer v.order buffer offset size).Follows v passed stop reason := by
  have hsize : (buffer.extract offset (offset + size)).size = size := by
    rw [ByteArray.size_extract]
    omega
  -- the area ends where the region does, so it has all words that detection saw
  have hend : (ofBuffer v.order buffer offset size).bytes.size = offset + size := by
    show (buffer.extract 0 (offset + size)).size = _
    rw [ByteArray.size_extract]
    omega
  have hnull := (Detection.marks_of_landmarks (Detection.examine_eq_ok_iff.1 h).1).null_lt
  rw [hsize] at hnull
  exact exists_follows_of_examine h rfl (by rw [hend, hsize]; rfl)
    (shows_ofBuffer hfit (Nat.le_trans hnull (Nat.min_le_right ..)))

/-- The walk ends at no tag that is unknown. -/
theorem Follows.reason_ne (h : a.Follows v passed stop reason) : reason ≠ .unknownTag := by
  rcases h.ends with ⟨hr, -⟩ | ⟨hr, -⟩ <;> simp [hr]

/-- Decoding the area is decoding the entries that the walk passes. -/
theorem Follows.decode_eq (h : a.Follows v passed stop reason) :
    a.decode = (passed.mapM a.entry).map fun entries =>
      ⟨a.order, a.linkBase, a.start, a.bytes.size - a.start,
        a.start + 4 * v.landmarks.start, entries⟩ :=
  decode_of_passes h.head.1 h.head.2 h.walk

/-- A payload that detection let pass dangles only where it addresses the end of the area. -/
theorem Follows.eq_end_of_resolve_eq_error (h : a.Follows v passed stop reason) {s : Slot}
    (hs : s ∈ passed) {cell : Nat} {e : DecodingFailure}
    (he : a.resolve cell s.payload = .error e) :
    e = .danglingPointer cell s.payload ∧
      s.payload.toNat = a.linkBase.toNat + (a.bytes.size - a.start) := by
  obtain ⟨rfl, hout⟩ := resolve_eq_error_iff.1 he
  obtain ⟨-, hlt, hle⟩ := h.passed_mem s hs
  exact ⟨rfl, by omega⟩

/-- Decoding the area fails only on a payload that addresses its end, or inside a record. -/
theorem Follows.exists_of_decode_eq_error (h : a.Follows v passed stop reason)
    {e : DecodingFailure} (he : a.decode = .error e) :
    ∃ s ∈ passed,
      (s.payload.toNat = a.linkBase.toNat + (a.bytes.size - a.start) ∧
        e = .danglingPointer s.payloadOffset s.payload) ∨
      ∃ target, a.resolve s.payloadOffset s.payload = .ok target ∧
        a.RecordFails target (.ofRaw s.tag) e := by
  rw [h.decode_eq, map_eq_error] at he
  obtain ⟨s, hs, he⟩ := exists_of_mapM_eq_error he
  -- either the pointer of the entry fails or the record at its end
  refine ⟨s, hs, ?_⟩
  rcases bind_eq_error.1 he with he | ⟨target, htarget, he⟩
  · obtain ⟨rfl, hend⟩ := h.eq_end_of_resolve_eq_error hs he
    exact .inl ⟨hend, rfl⟩
  · exact .inr ⟨target, htarget, payload_eq_error_iff.1 he⟩

end Area

/-- Once detection has accepted a region, the walk of relocation follows that of detection: the
table pointer leads to the first entry, the same entries are passed and the same one is last, and
decoding goes through them in order. A payload pointer dangles only if it addresses the end of the
region, so that relocation fails only on such a pointer or inside a record. -/
theorem relocate_follows_detect {horizon : Nat} {buffer : ByteArray} {offset size : Nat}
    {order : ByteOrder} (hfit : offset + size ≤ buffer.size)
    (h : detect horizon (buffer.extract offset (offset + size)) = .ok order) :
    ∃ (v : Detection.Verdict) (passed : List Slot) (stop : Slot) (reason : Ending) (a : Area),
      a = Area.ofBuffer order buffer offset size ∧
      examineRegion horizon (buffer.extract offset (offset + size)) = .ok v ∧
      a.Follows v passed stop reason ∧
      a.entries (offset + 4 * v.landmarks.start) = passed.mapM a.entry ∧
      (∀ s ∈ passed, ∀ e, a.resolve s.payloadOffset s.payload = .error e →
        e = .danglingPointer s.payloadOffset s.payload ∧
          s.payload.toNat = a.linkBase.toNat + size) ∧
      ∀ e, relocate horizon buffer offset size = .error e →
        ∃ s ∈ passed, ∃ d, e = .undecodable d ∧
          ((s.payload.toNat = a.linkBase.toNat + size ∧
              d = .danglingPointer s.payloadOffset s.payload) ∨
            ∃ target, a.resolve s.payloadOffset s.payload = .ok target ∧
              a.RecordFails target (.ofRaw s.tag) d) := by
  obtain ⟨v, hv, rfl⟩ := detect_eq_ok_iff.1 h
  obtain ⟨passed, stop, reason, hfollows⟩ := Area.exists_follows hfit hv
  -- the end of the area is the end of the region
  have hsize : (Area.ofBuffer v.order buffer offset size).bytes.size -
      (Area.ofBuffer v.order buffer offset size).start = size := by
    show (buffer.extract 0 (offset + size)).size - offset = size
    rw [ByteArray.size_extract]
    omega
  refine ⟨v, passed, stop, reason, _, rfl, hv, hfollows, Area.entries_of_passes hfollows.walk,
    fun s hs e he => ?_, fun e he => ?_⟩
  · -- a payload that dangles addresses it
    have := hfollows.eq_end_of_resolve_eq_error hs he
    rwa [hsize] at this
  · -- relocation fails where decoding does
    rw [relocate_of_detect hfit h, mapError_eq_error] at he
    obtain ⟨d, hd, rfl⟩ := he
    obtain ⟨s, hs, hfail⟩ := hfollows.exists_of_decode_eq_error hd
    rw [hsize] at hfail
    exact ⟨s, hs, d, rfl, hfail⟩

/-- A buffer with an area from offset 2 on, whose one entry addresses the end of the area. -/
def bufferWithEndPointer : ByteArray :=
  ⟨#[0x5a, 0x5a, 0x04, 0x20, 0x43, 0x80, 3, 0, 0, 0, 0x16, 0x20, 0x43, 0x80, 16, 0, 0, 0,
    0, 0, 0, 0, 7, 7]⟩

/-- The region is accepted, and the one payload that it has dangles at the end of the region. -/
theorem follows_bufferWithEndPointer :
    2 + 22 ≤ bufferWithEndPointer.size ∧
      detect 16384 (bufferWithEndPointer.extract 2 (2 + 22)) = .ok .little ∧
      relocate 16384 bufferWithEndPointer 2 22 =
        .error (.undecodable (.danglingPointer 10 0x80432016)) ∧
      ∃ v passed stop reason,
        (Area.ofBuffer .little bufferWithEndPointer 2 22).Follows v passed stop reason ∧
        ∃ s, s ∈ passed := by
  have hfit : 2 + 22 ≤ bufferWithEndPointer.size := by decide
  have hdetect : detect 16384 (bufferWithEndPointer.extract 2 (2 + 22)) = .ok .little := rfl
  have hwalk : (Area.ofBuffer .little bufferWithEndPointer 2 22).Passes 6 [⟨6, 3, 0x80432016⟩]
      ⟨14, 16, 0⟩ .nullPayload := .next rfl rfl (.ends rfl rfl)
  have hrelocate : relocate 16384 bufferWithEndPointer 2 22 =
      .error (.undecodable (.danglingPointer 10 0x80432016)) := by
    rw [relocate_of_detect hfit hdetect, Area.decode_of_passes rfl rfl hwalk]
    rfl
  obtain ⟨v, passed, stop, reason, a, rfl, -, hfollows, -, -, hfails⟩ :=
    relocate_follows_detect hfit hdetect
  -- a failure tells that there is an entry
  obtain ⟨s, hs, -⟩ := hfails _ hrelocate
  exact ⟨hfit, hdetect, hrelocate, v, passed, stop, reason, hfollows, s, hs⟩

end ConfigArea
