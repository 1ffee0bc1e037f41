import ConfigArea.Proofs.Relocation.Contents
import ConfigArea.Proofs.Relocation.Translation

/-!
# Why a region has no table

Decoding fails in one of six reads, at different depths of two nested walks. This file says by the
words and bytes of the region alone where decoding comes to and what it cannot read there, and shows
that relocation fails for exactly these reasons, so that each failure tells the truth about the
buffer: the pointer that it names is stored where it says and leads out of the region, and the bytes
that it misses are not there.

## Key results

- `Region.reservations_eq_error_iff`, `Region.payload_eq_error_iff`: what stops a record
- `Region.decode_eq_error_iff`: decoding fails at the first entry that cannot be decoded
- `Region.Fails.dangles`, `Region.Fails.truncates`: what a failure says about the buffer
- `relocate_eq_error_iff_fails`: every way in which relocation fails
-/

namespace ConfigArea

/-- Records of eight bytes stand one after the other from offset `i` up to offset `j`, where `P`
says what a record is. -/
inductive Reached {α : Type} (P : Nat → α → Prop) : (i j : Nat) → Prop where
  | here {i} : Reached P i i
  | past {i j x} : P i x → Reached P (i + 8) j → Reached P i j

namespace Reached

variable {α : Type} {P : Nat → α → Prop} {i : Nat}

/-- What is reached lies at or behind where one starts. -/
theorem le {j : Nat} (h : Reached P i j) : i ≤ j := by
  induction h with
  | here => exact Nat.le_refl _
  | past _ _ ih => omega

/-- What is reached is the first offset, or it is reached from behind the record that is there. -/
theorem exists_iff {Q : Nat → Prop} :
    (∃ j, Reached P i j ∧ Q j) ↔ Q i ∨ (∃ x, P i x) ∧ ∃ j, Reached P (i + 8) j ∧ Q j := by
  constructor
  · intro h
    obtain ⟨j, hreached, hj⟩ := h
    cases hreached with
    | here => exact .inl hj
    | past hx hrest => exact .inr ⟨⟨_, hx⟩, j, hrest, hj⟩
  · intro h
    rcases h with hi | ⟨⟨x, hx⟩, j, hrest, hj⟩
    · exact ⟨i, .here, hi⟩
    · exact ⟨j, .past hx hrest, hj⟩

end Reached

namespace Region

/-- The size that the device tree at offset `i` declares in its second word, which is big-endian. -/
def declaredSize (r : Region) (i : Nat) : Nat :=
  ((r.buffer.wordAt (i + 4)).value .big).toNat

/-- What stands at offset `i` of the array is an entry, and not the end of the array. -/
structure IsEntry (r : Region) (i : Nat) : Prop where
  inside : i + 8 ≤ r.stop
  pointer_ne : r.word (i + 4) ≠ 0
  tag_mem : 1 ≤ r.word i ∧ r.word i ≤ 15

/-- The walk over the entries comes to the one at offset `i`: it starts where the first word of the
region leads, and everything before that entry is an entry with its payload. -/
def Walked (r : Region) (i : Nat) : Prop :=
  Reached r.HasSlot (r.locate (r.word r.offset)) i ∧ r.IsEntry i

/-- A walk over reservations comes to offset `j`: the walk over the entries comes to one with the
tag 1, and from where that points everything before `j` is a reservation. -/
def WalkedRecord (r : Region) (j : Nat) : Prop :=
  ∃ i, r.Walked i ∧ r.word i = 1 ∧ r.Addresses (r.word (i + 4)) ∧
    Reached r.HasReservation (r.locate (r.word (i + 4))) j

/-- The record at offset `j` is no reservation and does not end the list of them. -/
inductive ReservationFails (r : Region) (j : Nat) : DecodingFailure → Prop where
  | pointer : r.stop < j + 4 → ReservationFails r j (.truncatedRecord j 4)
  | size : j + 4 ≤ r.stop → r.word j ≠ 0 → r.stop < j + 8 →
      ReservationFails r j (.truncatedRecord (j + 4) 4)
  | dangling {p : UInt32} : j + 8 ≤ r.stop → r.word j ≠ 0 → p.toNat = r.word j →
      ¬r.Addresses (r.word j) → ReservationFails r j (.danglingPointer j p)
  | name : j + 8 ≤ r.stop → r.word j ≠ 0 → r.Addresses (r.word j) →
      (∀ k, r.locate (r.word j) ≤ k → k < r.stop → r.buffer.byteAt k ≠ 0) →
      ReservationFails r j
        (.truncatedRecord (r.locate (r.word j)) (r.stop - r.locate (r.word j) + 1))

/-- What stands at offset `i` is not what an entry with the ordinal `tag` points to. -/
inductive PayloadFails (r : Region) (i : Nat) : (tag : Nat) → DecodingFailure → Prop where
  | reservations {j e} : Reached r.HasReservation i j → r.ReservationFails j e →
      PayloadFails r i 1 e
  | version : r.stop < i + 192 → PayloadFails r i 2 (.truncatedRecord i 192)
  | header {tag} : 5 ≤ tag → tag ≤ 14 → r.stop < i + 8 →
      PayloadFails r i tag (.truncatedRecord (i + 4) 4)
  | blob {tag} : 5 ≤ tag → tag ≤ 14 → i + 8 ≤ r.stop → r.stop < i + r.declaredSize i →
      PayloadFails r i tag (.truncatedRecord i (r.declaredSize i))

/-- The entry at offset `i` cannot be decoded: its pointer leads out of the region, or what it
points to is not what it should be. -/
inductive EntryFails (r : Region) (i : Nat) : DecodingFailure → Prop where
  | dangling {p : UInt32} : p.toNat = r.word (i + 4) → ¬r.Addresses (r.word (i + 4)) →
      EntryFails r i (.danglingPointer (i + 4) p)
  | payload {e} : r.Addresses (r.word (i + 4)) →
      r.PayloadFails (r.locate (r.word (i + 4))) (r.word i) e → EntryFails r i e

/-- Decoding comes to an entry that cannot be decoded. -/
def Fails (r : Region) (e : DecodingFailure) : Prop :=
  ∃ i, r.Walked i ∧ r.EntryFails i e

variable {r : Region}

/-! ## Fields -/

/-- The bytes of the region have the addresses from its base on, as many as it is long. -/
theorem addresses_iff {p : Nat} : r.Addresses p ↔ r.base ≤ p ∧ p < r.base + r.size := by
  unfold Addresses locate stop
  omega

/-- A number is missing where its four bytes go past the end of the region. -/
theorem read_eq_error_iff (hfit : r.stop ≤ r.buffer.size) {i : Nat} {e : DecodingFailure} :
    r.area.read i = .error e ↔ r.stop < i + 4 ∧ e = .truncatedRecord i 4 := by
  simp only [Area.read, mapError_eq_error, ByteArray.readU32_eq_error_iff, size_area hfit]
  constructor
  · intro h
    obtain ⟨t, ⟨hlt, rfl⟩, rfl⟩ := h
    exact ⟨hlt, rfl⟩
  · intro h
    exact ⟨⟨i, 4⟩, ⟨h.1, rfl⟩, h.2.symm⟩

/-- A pointer that addresses no byte of the region dangles. -/
theorem resolve_eq_error_iff (hfit : r.stop ≤ r.buffer.size) (hhead : r.offset + 4 ≤ r.stop)
    {cell : Nat} {pointer : UInt32} {e : DecodingFailure} :
    r.area.resolve cell pointer = .error e ↔
      e = .danglingPointer cell pointer ∧ ¬r.Addresses pointer.toNat := by
  rw [Area.resolve_eq_error_iff, toNat_linkBase_area hhead, size_area hfit, addresses_iff]
  apply and_congr_right
  intro _
  show _ ∨ r.offset + r.size ≤ r.offset + _ ↔ _
  omega

/-- A string has no end where no byte up to the end of the region is zero. -/
theorem readCString_eq_error_iff (hfit : r.stop ≤ r.buffer.size) {i : Nat} {t : Truncated} :
    r.area.bytes.readCString i = .error t ↔
      (∀ k, i ≤ k → k < r.stop → r.buffer.byteAt k ≠ 0) ∧ t = ⟨i, r.stop - i + 1⟩ := by
  rw [ByteArray.readCString_eq_error_iff, size_area hfit]
  refine and_congr_left fun _ => ?_
  refine forall_congr' fun k => forall_congr' fun _ => forall_congr' fun hk => ?_
  rw [byteAt_area hk]

/-! ## Records -/

/-- A record whose pointer is there and not null fails as a reservation. -/
theorem reservation_eq_error_iff (hfit : r.stop ≤ r.buffer.size) (hhead : r.offset + 4 ≤ r.stop)
    {i : Nat} {pointer : UInt32} {e : DecodingFailure} (hread : r.area.read i = .ok pointer)
    (hne : pointer ≠ 0) :
    r.area.reservation i pointer = .error e ↔ r.ReservationFails i e := by
  obtain ⟨hi, hpointer⟩ := (read_eq_ok_iff hfit).1 hread
  have hword : r.word i ≠ 0 := fun h₀ => hne (UInt32.toNat_inj.1 (hpointer.trans h₀))
  -- three steps, each with its own failure
  simp only [Area.reservation, bind_eq_error, mapError_eq_error, read_eq_ok_iff hfit,
    read_eq_error_iff hfit, resolve_eq_ok_iff hfit hhead, resolve_eq_error_iff hfit hhead,
    readCString_eq_error_iff hfit, hpointer]
  constructor
  · intro h
    -- the size is missing, the pointer dangles, or the name has no end
    rcases h with ⟨hlt, rfl⟩ | ⟨size, ⟨hle, -⟩, ⟨rfl, hout⟩ | ⟨target, ⟨haddr, rfl⟩, h⟩⟩
    · exact .size hi hword (by omega)
    · exact .dangling (by omega) hword hpointer hout
    · rcases h with ⟨t, ⟨hnone, rfl⟩, rfl⟩ | ⟨name, -, h⟩
      · exact .name (by omega) hword haddr hnone
      · cases h
  · intro h
    -- each failure is that of its own step, and the steps before it succeed
    cases h with
    | pointer hlt => omega
    | size _ _ hlt => exact .inl ⟨hlt, rfl⟩
    | dangling hle _ hp hout =>
      obtain rfl := UInt32.toNat_inj.1 (hp.trans hpointer.symm)
      exact .inr ⟨(r.buffer.wordAt (i + 4)).value r.order, ⟨hle, rfl⟩, .inl ⟨rfl, hout⟩⟩
    | name hle _ haddr hnone =>
      refine .inr ⟨(r.buffer.wordAt (i + 4)).value r.order, ⟨hle, rfl⟩, .inr ⟨_, ⟨haddr, rfl⟩, ?_⟩⟩
      exact .inl ⟨_, ⟨hnone, rfl⟩, rfl⟩

/-- A record without a pointer fails for nothing else. -/
theorem ReservationFails.eq_of_lt {j : Nat} {e : DecodingFailure} (h : r.ReservationFails j e)
    (hlt : r.stop < j + 4) : e = .truncatedRecord j 4 := by
  cases h with
  | pointer => rfl
  | size hle => omega
  | dangling hle => omega
  | name hle => omega

/-- A record fails behind its pointer only if that is not null. -/
theorem ReservationFails.pointer_ne {j : Nat} {e : DecodingFailure} (h : r.ReservationFails j e)
    (hle : j + 4 ≤ r.stop) : r.word j ≠ 0 := by
  cases h with
  | pointer hlt => omega
  | size _ hne => exact hne
  | dangling _ hne => exact hne
  | name _ hne => exact hne

/-- One step of reading reservations that fails: at the record that is there, or behind it. -/
theorem reservations_eq_error_iff_step (hfit : r.stop ≤ r.buffer.size)
    (hhead : r.offset + 4 ≤ r.stop) {i : Nat} {e : DecodingFailure} :
    r.area.reservations i = .error e ↔ r.ReservationFails i e ∨
      (∃ m, r.HasReservation i m) ∧ r.area.reservations (i + 8) = .error e := by
  rw [Area.reservations_eq_bind, bind_eq_error, read_eq_error_iff hfit]
  constructor
  · intro h
    -- without a pointer the record fails, and with one that is not null it goes on
    rcases h with ⟨hlt, rfl⟩ | ⟨pointer, hread, h⟩
    · exact .inl (.pointer hlt)
    · split at h
      · cases h
      · rename_i hne
        rcases bind_eq_error.1 h with h | ⟨m, hm, h⟩
        · exact .inl ((reservation_eq_error_iff hfit hhead hread hne).1 h)
        · have hm := (reservation_eq_ok_iff hfit hhead hread hne).1 hm
          exact .inr ⟨⟨m, hm⟩, map_eq_error.1 h⟩
  · intro h
    by_cases hi : r.stop < i + 4
    · -- there is no pointer, so there is nothing that fails later
      rcases h with h | ⟨⟨m, hm⟩, -⟩
      · exact .inl ⟨hi, h.eq_of_lt hi⟩
      · have := hm.inside
        omega
    · -- there is one, and it is not null, whether the record fails or one behind it does
      have hread : r.area.read i = .ok ((r.buffer.wordAt i).value r.order) :=
        (read_eq_ok_iff hfit).2 ⟨by omega, rfl⟩
      have hword : r.word i ≠ 0 := by
        rcases h with h | ⟨⟨m, hm⟩, -⟩
        · exact h.pointer_ne (by omega)
        · exact hm.pointer_ne
      have hne : (r.buffer.wordAt i).value r.order ≠ 0 := fun h₀ => hword (congrArg _ h₀)
      refine .inr ⟨_, hread, ?_⟩
      rw [if_neg hne, bind_eq_error]
      rcases h with h | ⟨⟨m, hm⟩, h⟩
      · exact .inl ((reservation_eq_error_iff hfit hhead hread hne).2 h)
      · have hm := (reservation_eq_ok_iff hfit hhead hread hne).2 hm
        exact .inr ⟨m, hm, map_eq_error.2 h⟩

/-- Reading reservations fails at the first record that is no reservation and does not end them. -/
theorem reservations_eq_error_iff (hfit : r.stop ≤ r.buffer.size) (hhead : r.offset + 4 ≤ r.stop)
    {i : Nat} {e : DecodingFailure} :
    r.area.reservations i = .error e ↔
      ∃ j, Reached r.HasReservation i j ∧ r.ReservationFails j e := by
  -- Induction on the room that is left: a reservation lies inside the region, so there is less of
  -- it behind one.
  rw [reservations_eq_error_iff_step hfit hhead, Reached.exists_iff]
  refine or_congr_right (and_congr_right fun h => ?_)
  obtain ⟨m, hm⟩ := h
  have hinside := hm.inside
  exact reservations_eq_error_iff hfit hhead
termination_by r.stop - i

/-- Reading a device tree that starts in the region fails where the word that declares its size is
not all there, or else where that many bytes are not. -/
theorem deviceTree_eq_error_iff (hfit : r.stop ≤ r.buffer.size)
    (hsize : r.buffer.size < 0x8000000000000000) {i : Nat} (hi : i < r.stop) {subrev : UInt8}
    {t : Truncated} :
    r.area.deviceTree subrev i = .error t ↔ r.stop < i + 8 ∧ t = ⟨i + 4, 4⟩ ∨
      i + 8 ≤ r.stop ∧ r.stop < i + r.declaredSize i ∧ t = ⟨i, r.declaredSize i⟩ := by
  have hlast : i + 4 ≤ lastOffset := by
    unfold lastOffset
    omega
  have hbytes : r.area.bytes.size ≤ lastOffset := by
    rw [size_area hfit]
    exact le_lastOffset (Nat.lt_of_le_of_lt hfit hsize)
  rw [Area.deviceTree, bind_eq_error, deviceTreeSize_eq_error_iff hlast, size_area hfit]
  -- the header is there or it is not; from here on it is, and the blob is not
  refine or_congr_right ?_
  simp only [deviceTreeSize_eq_ok_iff hbytes, size_area hfit]
  constructor
  · intro h
    obtain ⟨n, ⟨hheader, rfl⟩, h⟩ := h
    rw [wordAt_area (by omega)] at h
    -- the slice of the blob is the only read that is left
    rcases bind_eq_error.1 h with h | ⟨blob, -, h⟩
    · rw [ByteArray.readSlice_eq_error_iff, size_area hfit] at h
      exact ⟨hheader, h⟩
    · cases h
  · intro h
    obtain ⟨hheader, h⟩ := h
    refine ⟨_, ⟨hheader, rfl⟩, bind_eq_error.2 (.inl ?_)⟩
    rwa [wordAt_area (by omega), ByteArray.readSlice_eq_error_iff, size_area hfit]

/-- Only reservations, version records and device trees can fail. -/
theorem PayloadFails.tag_cases {i tag : Nat} {e : DecodingFailure} (h : r.PayloadFails i tag e) :
    tag = 1 ∨ tag = 2 ∨ 5 ≤ tag ∧ tag ≤ 14 := by
  cases h with
  | reservations => exact .inl rfl
  | version => exact .inr (.inl rfl)
  | header h₅ h₁₄ => exact .inr (.inr ⟨h₅, h₁₄⟩)
  | blob h₅ h₁₄ => exact .inr (.inr ⟨h₅, h₁₄⟩)

/-- Decoding a payload fails where it is not what an entry with a known tag points to. -/
theorem payload_eq_error_iff (hfit : r.stop ≤ r.buffer.size)
    (hsize : r.buffer.size < 0x8000000000000000) (hhead : r.offset + 4 ≤ r.stop) {i : Nat}
    (hi : i < r.stop) {tag : UInt32} {e : DecodingFailure} (hpos : 1 ≤ tag.toNat)
    (hle : tag.toNat ≤ 15) :
    r.area.payload (.ofRaw tag) i = .error e ↔ r.PayloadFails i tag.toNat e := by
  -- one case for each tag, as for the payloads that are decoded
  rcases Tag.ordinal_cases hpos hle with rfl | rfl | rfl | rfl | rfl | ⟨h₅, h₁₄⟩
  · -- reservations fail where one of their records does
    show (r.area.reservations i).map Entry.reservations = .error e ↔ r.PayloadFails i 1 e
    rw [map_eq_error, reservations_eq_error_iff hfit hhead]
    constructor
    · intro h
      obtain ⟨j, hreached, hfails⟩ := h
      exact .reservations hreached hfails
    · intro h
      cases h with
      | reservations hreached hfails => exact ⟨_, hreached, hfails⟩
      | header h₅ => omega
      | blob h₅ => omega
  · -- a version record is cut short by the end of the region
    show ((Version.read r.area.bytes i).mapError _).map Entry.version = .error e ↔
      r.PayloadFails i 2 e
    simp only [map_eq_error, mapError_eq_error, Version.read_eq_error_iff, size_area hfit]
    constructor
    · intro h
      obtain ⟨t, ⟨hlt, rfl⟩, rfl⟩ := h
      exact .version hlt
    · intro h
      cases h with
      | version hlt => exact ⟨_, ⟨hlt, rfl⟩, rfl⟩
      | header h₅ => omega
      | blob h₅ => omega
  -- the payloads of three kinds are not looked at
  iterate 3
    constructor
    · intro h
      cases h
    · intro h
      exact absurd h.tag_cases (by decide)
  · -- a device tree lacks its header, or a part of its blob
    rw [Tag.ofRaw_eq_deviceTree h₅ h₁₄]
    show ((r.area.deviceTree _ i).mapError _).map Entry.deviceTree = .error e ↔ _
    simp only [map_eq_error, mapError_eq_error, deviceTree_eq_error_iff hfit hsize hi]
    generalize tag.toNat = n at h₅ h₁₄
    constructor
    · intro h
      obtain ⟨t, ⟨hlt, rfl⟩ | ⟨hheader, hlt, rfl⟩, rfl⟩ := h
      · exact .header h₅ h₁₄ hlt
      · exact .blob h₅ h₁₄ hheader hlt
    · intro h
      cases h with
      | reservations => omega
      | version => omega
      | header _ _ hlt => exact ⟨_, .inl ⟨hlt, rfl⟩, rfl⟩
      | blob _ _ hheader hlt => exact ⟨_, .inr ⟨hheader, hlt, rfl⟩, rfl⟩

/-! ## Entries -/

/-- What the walk passes is an entry. -/
theorem isEntry_of_slot_eq_ok (hfit : r.stop ≤ r.buffer.size) {i : Nat} {s : Slot}
    (hread : r.area.slot i = .ok s) (hgo : s.ending? = none) (hpos : 1 ≤ s.tag.toNat) :
    r.IsEntry i := by
  obtain ⟨-, htag, hpayload⟩ := words_of_slot_eq_ok hfit hread
  obtain ⟨hne, hlt⟩ := Slot.ending?_eq_none_iff.1 hgo
  have hinside : i + 8 ≤ r.stop := by
    rw [← size_area hfit]
    exact (Area.slot_eq_ok_iff.1 hread).1
  refine ⟨hinside, fun h₀ => hne ?_, by omega⟩
  exact UInt32.toNat_inj.1 (hpayload.trans h₀)

/-- Decoding an entry that the walk passes fails where what stands there cannot be decoded. -/
theorem entry_eq_error_iff (hfit : r.stop ≤ r.buffer.size)
    (hsize : r.buffer.size < 0x8000000000000000) (hhead : r.offset + 4 ≤ r.stop) {i : Nat}
    {s : Slot} {e : DecodingFailure} (hread : r.area.slot i = .ok s) (hgo : s.ending? = none)
    (hpos : 1 ≤ s.tag.toNat) :
    r.area.entry s = .error e ↔ r.EntryFails i e := by
  obtain ⟨hoffset, htag, hpayload⟩ := words_of_slot_eq_ok hfit hread
  have hle := Nat.le_of_lt_succ (Slot.ending?_eq_none_iff.1 hgo).2
  have hcell : s.payloadOffset = i + 4 := congrArg (· + 4) hoffset
  rw [Area.entry, bind_eq_error, resolve_eq_error_iff hfit hhead, hcell]
  simp only [resolve_eq_ok_iff hfit hhead]
  constructor
  · intro h
    -- the pointer dangles, or what it leads to fails
    rcases h with ⟨rfl, hout⟩ | ⟨target, ⟨haddr, rfl⟩, h⟩
    · rw [hpayload] at hout
      exact .dangling hpayload hout
    · rw [payload_eq_error_iff hfit hsize hhead haddr.2 hpos hle] at h
      rw [hpayload] at haddr h
      rw [htag] at h
      exact .payload haddr h
  · intro h
    cases h with
    | dangling hp hout =>
      -- the pointer that dangles is the word that is stored there
      obtain rfl := UInt32.toNat_inj.1 (hp.trans hpayload.symm)
      rw [← hpayload] at hout
      exact .inl ⟨rfl, hout⟩
    | payload haddr h =>
      rw [← hpayload] at haddr h
      rw [← htag] at h
      exact .inr ⟨_, ⟨haddr, rfl⟩, (payload_eq_error_iff hfit hsize hhead haddr.2 hpos hle).2 h⟩

/-- Decoding the entries that the walk passes fails at the first one that cannot be decoded. -/
theorem mapM_entry_eq_error_iff (hfit : r.stop ≤ r.buffer.size)
    (hsize : r.buffer.size < 0x8000000000000000) (hhead : r.offset + 4 ≤ r.stop) {i : Nat}
    {passed : List Slot} {stop : Slot} {reason : Ending} {e : DecodingFailure}
    (h : r.area.Passes i passed stop reason) (hreason : reason ≠ .unknownTag)
    (hpos : ∀ s ∈ passed, 1 ≤ s.tag.toNat) :
    passed.mapM r.area.entry = .error e ↔
      ∃ j, Reached r.HasSlot i j ∧ r.IsEntry j ∧ r.EntryFails j e := by
  have hlast := le_lastOffset hsize
  -- Induction on the walk: what is reached is the first entry, or it is reached from the second.
  induction h with
  | @ends i s reason hread hend =>
    have hends := ends_of_slot_eq_ok hfit hread hend hreason
    rw [Reached.exists_iff]
    constructor
    · intro h
      cases h
    · intro h
      -- what ends the array is no entry that could fail, and none that has others behind it
      rcases h with ⟨h, -⟩ | ⟨⟨x, h⟩, -⟩
      · have := h.pointer_ne
        have := h.tag_mem
        omega
      · have := h.pointer_ne
        have := h.entry.tag_mem
        omega
  | @next i s passed stop reason hread hgo _ ih =>
    have hs := hpos s List.mem_cons_self
    have hentry := isEntry_of_slot_eq_ok hfit hread hgo hs
    rw [Reached.exists_iff, List.mapM_cons, bind_eq_error,
      entry_eq_error_iff hfit hsize hhead hread hgo hs]
    simp only [hentry, true_and, entry_eq_ok_iff hfit hlast hhead hread hgo hs]
    -- the walk goes on behind this entry, which is where the others fail
    have hrest : passed.mapM r.area.entry = .error e ↔
        ∃ j, Reached r.HasSlot (i + 8) j ∧ r.IsEntry j ∧ r.EntryFails j e :=
      ih hreason fun t ht => hpos t (List.mem_cons_of_mem _ ht)
    -- it is this entry that fails, or this one is decoded and one behind it fails
    refine or_congr_right ?_
    rw [← hrest]
    constructor
    · intro h
      obtain ⟨x, hx, h⟩ := h
      rcases bind_eq_error.1 h with h | ⟨xs, -, h⟩
      · exact ⟨⟨x, hx⟩, h⟩
      · cases h
    · intro h
      obtain ⟨⟨x, hx⟩, h⟩ := h
      exact ⟨x, hx, bind_eq_error.2 (.inl h)⟩

/-- Decoding an area that detection has accepted fails where it comes to an entry that cannot be
decoded. -/
theorem decode_eq_error_iff (hfit : r.stop ≤ r.buffer.size)
    (hsize : r.buffer.size < 0x8000000000000000) {v : Detection.Verdict} {passed : List Slot}
    {stop : Slot} {reason : Ending} {e : DecodingFailure}
    (h : r.area.Follows v passed stop reason) :
    r.area.decode = .error e ↔ r.Fails e := by
  obtain ⟨hhead, hfirst⟩ := locate_word_of_follows hfit h
  have hentries := mapM_entry_eq_error_iff (e := e) hfit hsize hhead h.walk h.reason_ne
    (fun s hs => (h.passed_mem s hs).1.1)
  rw [h.decode_eq, map_eq_error, hentries, show r.area.start = r.offset from rfl, hfirst]
  exact exists_congr fun i => (and_assoc).symm

/-! ## What failures say about the buffer -/

/-- The cell at offset `cell` lies in the region and holds `pointer`, which is the payload pointer
of an entry or the name pointer of a reservation that decoding comes to, and leads out of the
region. -/
structure Dangles (r : Region) (cell : Nat) (pointer : UInt32) : Prop where
  offset_le : r.offset ≤ cell
  inside : cell + 4 ≤ r.stop
  stored : r.word cell = pointer.toNat
  pointer_ne : pointer ≠ 0
  walked : (∃ i, r.Walked i ∧ cell = i + 4) ∨ r.WalkedRecord cell
  outside : pointer.toNat < r.base ∨ r.base + r.size ≤ pointer.toNat

/-- What is read at offset `i` starts behind the start of the region and goes on past its end: a
word, a version record, a device tree as long as it declares, or a name, for which one byte is
missing. -/
structure Truncates (r : Region) (i needed : Nat) : Prop where
  offset_le : r.offset ≤ i
  past_end : r.stop < i + needed
  needed_cases : needed = 4 ∨
    needed = 192 ∧ (∃ k, r.Walked k ∧ r.word k = 2 ∧ i = r.locate (r.word (k + 4))) ∨
    needed = r.declaredSize i ∧
      (∃ k, r.Walked k ∧ (5 ≤ r.word k ∧ r.word k ≤ 14) ∧ i = r.locate (r.word (k + 4))) ∨
    needed = r.stop - i + 1 ∧
      ∃ j, r.WalkedRecord j ∧ r.word j ≠ 0 ∧ i = r.locate (r.word j)

/-- No address is that of a byte before the region. -/
theorem offset_le_locate (p : Nat) : r.offset ≤ r.locate p :=
  Nat.le_add_right _ _

/-- The walk over the entries goes on inside the region. -/
theorem Walked.offset_le {i : Nat} (h : r.Walked i) : r.offset ≤ i :=
  Nat.le_trans (offset_le_locate _) h.1.le

/-- So does a walk over reservations. -/
theorem WalkedRecord.offset_le {j : Nat} (h : r.WalkedRecord j) : r.offset ≤ j := by
  obtain ⟨i, -, -, -, hreached⟩ := h
  exact Nat.le_trans (offset_le_locate _) hreached.le

/-- An address of no byte of the region is below its base or past its end. -/
theorem outside_of_not_addresses {p : Nat} (h : ¬r.Addresses p) :
    p < r.base ∨ r.base + r.size ≤ p := by
  rw [addresses_iff] at h
  omega

/-- A pointer that is said to dangle does. -/
theorem Fails.dangles {cell : Nat} {pointer : UInt32}
    (h : r.Fails (.danglingPointer cell pointer)) : r.Dangles cell pointer := by
  obtain ⟨i, hwalked, h⟩ := h
  have hentry := hwalked.2
  cases h with
  | dangling hp hout =>
    refine ⟨Nat.le_add_right_of_le hwalked.offset_le, hentry.inside, hp.symm, fun h₀ => ?_,
      .inl ⟨i, hwalked, rfl⟩, outside_of_not_addresses (by rwa [hp])⟩
    exact hentry.pointer_ne (hp.symm.trans (congrArg _ h₀))
  | payload haddr h =>
    -- of the records only reservations have a pointer
    generalize htag : r.word i = tag at h
    cases h with
    | reservations hreached h =>
      have hrecord : r.WalkedRecord _ := ⟨i, hwalked, htag, haddr, hreached⟩
      cases h with
      | dangling hle hne hp hout =>
        refine ⟨hrecord.offset_le, by omega, hp.symm, fun h₀ => ?_, .inr hrecord,
          outside_of_not_addresses (by rwa [hp])⟩
        exact hne (hp.symm.trans (congrArg _ h₀))

/-- A record that is said to go on past the end of the region does. -/
theorem Fails.truncates {i needed : Nat} (h : r.Fails (.truncatedRecord i needed)) :
    r.Truncates i needed := by
  obtain ⟨k, hwalked, h⟩ := h
  cases h with
  | payload haddr h =>
    have hle : r.offset ≤ r.locate (r.word (k + 4)) := offset_le_locate _
    generalize htag : r.word k = tag at h
    -- the reads in the order of decoding, each with what it needs
    cases h with
    | reservations hreached h =>
      have hrecord : r.WalkedRecord _ := ⟨k, hwalked, htag, haddr, hreached⟩
      have hoffset := hrecord.offset_le
      cases h with
      | pointer hlt => exact ⟨hoffset, hlt, .inl rfl⟩
      | size _ _ hlt => exact ⟨by omega, by omega, .inl rfl⟩
      | name _ hne haddr' _ =>
        have := haddr'.2
        exact ⟨offset_le_locate _, by omega, .inr (.inr (.inr ⟨rfl, _, hrecord, hne, rfl⟩))⟩
    | version hlt => exact ⟨hle, hlt, .inr (.inl ⟨rfl, k, hwalked, htag, rfl⟩)⟩
    | header _ _ hlt => exact ⟨by omega, by omega, .inl rfl⟩
    | blob h₅ h₁₄ _ hlt =>
      exact ⟨hle, hlt, .inr (.inr (.inl ⟨rfl, k, hwalked, by rw [htag]; exact ⟨h₅, h₁₄⟩, rfl⟩))⟩

end Region

/-! ## All failures of relocation -/

variable {horizon : Nat} {buffer : ByteArray} {offset size : Nat}

/-- A region is out of bounds exactly if it does not end inside the buffer. -/
theorem relocate_eq_regionOutOfBounds_iff {o s n : Nat} :
    relocate horizon buffer offset size = .error (.regionOutOfBounds o s n) ↔
      buffer.size < offset + size ∧ o = offset ∧ s = size ∧ n = buffer.size := by
  constructor
  · intro h
    -- only a region that leaves the buffer is refused before it is looked at
    by_cases hfit : offset + size ≤ buffer.size
    · exact absurd h (relocate_ne_regionOutOfBounds hfit o s n)
    · rw [relocate, if_neg hfit] at h
      cases h
      exact ⟨by omega, rfl, rfl, rfl⟩
  · intro h
    obtain ⟨hlt, rfl, rfl, rfl⟩ := h
    rw [relocate, if_neg (by omega)]

/-- A region inside the buffer is no table exactly if detection rejects it, for the same reason. -/
theorem relocate_eq_notAConfigTable_iff {reason : DetectionFailure} :
    relocate horizon buffer offset size = .error (.notAConfigTable reason) ↔
      offset + size ≤ buffer.size ∧
        detect horizon (buffer.extract offset (offset + size)) = .error reason := by
  by_cases hfit : offset + size ≤ buffer.size
  · cases hdetect : detect horizon (buffer.extract offset (offset + size)) with
    | error e => simp [relocate, hfit, hdetect]
    | ok order =>
      rw [relocate_of_detect hfit hdetect, mapError_eq_error]
      simp
  · simp [relocate, hfit]

/-- Once detection has accepted a region, relocation fails exactly where decoding comes to an entry
that cannot be decoded. -/
theorem relocate_eq_undecodable_iff (hsize : buffer.size < 0x8000000000000000)
    {e : DecodingFailure} :
    relocate horizon buffer offset size = .error (.undecodable e) ↔
      offset + size ≤ buffer.size ∧
        ∃ order, detect horizon (buffer.extract offset (offset + size)) = .ok order ∧
          Region.Fails ⟨buffer, order, offset, size⟩ e := by
  by_cases hfit : offset + size ≤ buffer.size
  · cases hdetect : detect horizon (buffer.extract offset (offset + size)) with
    | error reason => simp [relocate, hfit, hdetect]
    | ok order =>
      -- detection accepts the region, so only decoding is left to fail
      obtain ⟨v, hv, rfl⟩ := detect_eq_ok_iff.1 hdetect
      obtain ⟨passed, stop, reason, hfollows⟩ := Area.exists_follows hfit hv
      have hdecode := Region.decode_eq_error_iff (e := e) (r := ⟨buffer, v.order, offset, size⟩)
        hfit hsize hfollows
      rw [relocate_of_detect hfit hdetect, mapError_eq_error]
      simp only [RelocationFailure.undecodable.injEq, exists_eq_right, Except.ok.injEq,
        exists_eq_left', hfit, true_and]
      exact hdecode
  · -- outside the buffer nothing is decoded
    simp [relocate, hfit]

/-- Every failure of relocation tells the truth. A region is out of bounds exactly if it does not
end inside the buffer, and else it is no table exactly if detection rejects it, for the same reason.
Else relocation fails exactly where decoding comes to an entry that cannot be decoded: a pointer
that dangles is stored in the region, belongs to an entry or a reservation that decoding comes to,
and leads out of the region; and a truncated record starts behind the start of the region and needs
more bytes than there are up to its end. -/
theorem relocate_eq_error_iff_fails (hsize : buffer.size < 0x8000000000000000) :
    (∀ o s n, relocate horizon buffer offset size = .error (.regionOutOfBounds o s n) ↔
      buffer.size < offset + size ∧ o = offset ∧ s = size ∧ n = buffer.size) ∧
    (∀ reason, relocate horizon buffer offset size = .error (.notAConfigTable reason) ↔
      offset + size ≤ buffer.size ∧
        detect horizon (buffer.extract offset (offset + size)) = .error reason) ∧
    (∀ e, relocate horizon buffer offset size = .error (.undecodable e) ↔
      offset + size ≤ buffer.size ∧
        ∃ order, detect horizon (buffer.extract offset (offset + size)) = .ok order ∧
          Region.Fails ⟨buffer, order, offset, size⟩ e) ∧
    (∀ cell pointer, relocate horizon buffer offset size =
        .error (.undecodable (.danglingPointer cell pointer)) →
      ∃ order, detect horizon (buffer.extract offset (offset + size)) = .ok order ∧
        Region.Dangles ⟨buffer, order, offset, size⟩ cell pointer) ∧
    ∀ i needed, relocate horizon buffer offset size =
        .error (.undecodable (.truncatedRecord i needed)) →
      ∃ order, detect horizon (buffer.extract offset (offset + size)) = .ok order ∧
        Region.Truncates ⟨buffer, order, offset, size⟩ i needed := by
  refine ⟨fun _ _ _ => relocate_eq_regionOutOfBounds_iff,
    fun _ => relocate_eq_notAConfigTable_iff, fun _ => relocate_eq_undecodable_iff hsize, ?_, ?_⟩
  · -- a pointer that dangles
    intro cell pointer h
    obtain ⟨-, order, hdetect, hfails⟩ := (relocate_eq_undecodable_iff hsize).1 h
    exact ⟨order, hdetect, hfails.dangles⟩
  · -- a record that is cut short
    intro i needed h
    obtain ⟨-, order, hdetect, hfails⟩ := (relocate_eq_undecodable_iff hsize).1 h
    exact ⟨order, hdetect, hfails.truncates⟩

/-- A buffer with an area from offset 2 on, whose one entry points to a reservation. Its name, the
last two bytes of the area, has no end there, and a zero byte follows the area. -/
def bufferWithOpenName : ByteArray :=
  ⟨#[0x5a, 0x5a, 0x04, 0x20, 0x43, 0x80, 1, 0, 0, 0, 0x14, 0x20, 0x43, 0x80, 16, 0, 0, 0,
    0, 0, 0, 0, 0x1c, 0x20, 0x43, 0x80, 7, 0, 0, 0, 0x61, 0x62, 0]⟩

/-- The name of the reservation has no end in the region, and one byte is missing for it. -/
theorem relocate_bufferWithOpenName :
    bufferWithOpenName.size < 0x8000000000000000 ∧
      relocate 16384 bufferWithOpenName 2 30 = .error (.undecodable (.truncatedRecord 30 3)) ∧
      ∃ order, detect 16384 (bufferWithOpenName.extract 2 (2 + 30)) = .ok order ∧
        Region.Truncates ⟨bufferWithOpenName, order, 2, 30⟩ 30 3 := by
  have hsize : bufferWithOpenName.size < 0x8000000000000000 := by decide
  have hdetect : detect 16384 (bufferWithOpenName.extract 2 (2 + 30)) = .ok .little := rfl
  let r : Region := ⟨bufferWithOpenName, .little, 2, 30⟩
  have hopen : ∀ k, 30 ≤ k → k < 32 → bufferWithOpenName.byteAt k ≠ 0 := by
    intro k hlo hhi
    obtain rfl | rfl : k = 30 ∨ k = 31 := by omega
    all_goals decide
  -- where the table pointer, the payload pointer and the name pointer lead
  have hfirst : r.locate (r.word r.offset) = 6 := by decide
  have htarget : r.locate (r.word (6 + 4)) = 22 := by decide
  have hname : r.locate (r.word 22) = 30 := by decide
  -- the walk comes to the entry, and from there to the record
  have hentry : r.IsEntry 6 := ⟨by decide, by decide, by decide⟩
  have hrecord : r.ReservationFails 22 (.truncatedRecord 30 3) := by
    have h := @Region.ReservationFails.name r 22 (by decide) (by decide) ⟨by decide, by decide⟩
    rw [hname] at h
    exact h hopen
  have hfails : r.Fails (.truncatedRecord 30 3) := by
    refine ⟨6, ⟨by rw [hfirst]; exact .here, hentry⟩, .payload ⟨by decide, by decide⟩ ?_⟩
    rw [htarget]
    exact .reservations .here hrecord
  have hall := @relocate_eq_error_iff_fails 16384 bufferWithOpenName 2 30 hsize
  have hrelocate := (hall.2.2.1 _).2 ⟨by decide, .little, hdetect, hfails⟩
  exact ⟨hsize, hrelocate, hall.2.2.2.2 _ _ hrelocate⟩

end ConfigArea
