import ConfigArea.Sample.Builder

/-!
# Where building writes

Building puts numbers, names and payloads into an area of zeros. Each write has its place: the
entries one after the other, the payloads behind the array, the names of reservations behind their
records. This file says where each of them ends, that building succeeds if the last one ends inside
the area, and that nothing else is changed.

## Key results

- `exists_putPayload`, `exists_putEntries`: what fits is written
- `byteAt_putPayload`, `byteAt_putEntries`: no byte is changed outside of the place of a write
-/

namespace ByteArray

/-- None of the bytes is zero. -/
def NulFree (b : ByteArray) : Prop :=
  ∀ i, i < b.size → b.byteAt i ≠ 0

instance (b : ByteArray) : Decidable b.NulFree :=
  inferInstanceAs (Decidable (∀ i, i < b.size → b.byteAt i ≠ 0))

end ByteArray

namespace ConfigArea

/-- Rounding up does not go back. -/
theorem le_alignUp (value : Nat) {alignment : Nat} (h : 0 < alignment) :
    value ≤ alignUp value alignment := by
  unfold alignUp
  -- less than an alignment is taken away from what was added
  have hdiv := Nat.div_add_mod (value + alignment - 1) alignment
  have hmod := Nat.mod_lt (value + alignment - 1) h
  rw [Nat.mul_comm] at hdiv
  omega

namespace Builder

/-- The offset after names of which the first starts at `nameOffset`: each is followed by a zero and
the next one is aligned. -/
def namesStop (nameOffset : Nat) : List (ByteArray × UInt32) → Nat
  | [] => nameOffset
  | (name, _) :: rest => namesStop (alignUp (nameOffset + name.size + 1) 4) rest

/-- The names end at or behind the offset of the first. -/
theorem le_namesStop (nameOffset : Nat) (rs : List (ByteArray × UInt32)) :
    nameOffset ≤ namesStop nameOffset rs := by
  induction rs generalizing nameOffset with
  | nil => exact Nat.le_refl _
  | cons m rs ih =>
    have halign := le_alignUp (nameOffset + m.1.size + 1) (show 0 < 4 by decide)
    have hrest := ih (alignUp (nameOffset + m.1.size + 1) 4)
    show nameOffset ≤ namesStop (alignUp (nameOffset + m.1.size + 1) 4) rs
    omega

end Builder

/-- The offset after a payload at `offset`. -/
def Payload.stop (offset : Nat) : Payload → Nat
  | .reservations rs => Builder.namesStop (offset + (rs.length + 1) * 8) rs
  | .version _ _ _ => offset + 192
  | .raw bytes => offset + bytes.size

/-- The payload is one for an entry with the given tag. Names and texts hold no zero, a text is not
longer than its field, and a device tree tells its own size. -/
def Payload.Fits (tag : UInt32) : Payload → Prop
  | .reservations rs => tag = 1 ∧ ∀ m ∈ rs, m.1.NulFree
  | .version buildNumber sourceRevision firmware =>
    tag = 2 ∧ (buildNumber.NulFree ∧ buildNumber.size ≤ 32) ∧
      (sourceRevision.NulFree ∧ sourceRevision.size ≤ 32) ∧
      firmware.NulFree ∧ firmware.size ≤ 128
  | .raw bytes =>
    (5 ≤ tag.toNat ∧ tag.toNat ≤ 14 ∧ 8 ≤ bytes.size ∧
        ((bytes.wordAt 4).value .big).toNat = bytes.size) ∨
      tag = 3 ∨ tag = 4 ∨ tag = 15

instance (tag : UInt32) (p : Payload) : Decidable (p.Fits tag) :=
  match p with
  | .reservations rs => inferInstanceAs (Decidable (tag = 1 ∧ ∀ m ∈ rs, m.1.NulFree))
  | .version x y z => inferInstanceAs (Decidable (tag = 2 ∧ (x.NulFree ∧ x.size ≤ 32) ∧
      (y.NulFree ∧ y.size ≤ 32) ∧ z.NulFree ∧ z.size ≤ 128))
  | .raw bytes => inferInstanceAs (Decidable ((5 ≤ tag.toNat ∧ tag.toNat ≤ 14 ∧ 8 ≤ bytes.size ∧
      ((bytes.wordAt 4).value .big).toNat = bytes.size) ∨ tag = 3 ∨ tag = 4 ∨ tag = 15))

/-- A payload ends at or behind its offset. -/
theorem Payload.le_stop (offset : Nat) (p : Payload) : offset ≤ p.stop offset := by
  cases p with
  | reservations rs =>
    have := Builder.le_namesStop (offset + (rs.length + 1) * 8) rs
    show offset ≤ Builder.namesStop (offset + (rs.length + 1) * 8) rs
    omega
  | version buildNumber sourceRevision firmware => exact Nat.le_add_right _ _
  | raw bytes => exact Nat.le_add_right _ _

namespace Builder

/-- The offset after payloads of which the first is at `target`: each is followed by zeros up to the
next multiple of sixteen. -/
def payloadsStop (target : Nat) : List (UInt32 × Payload) → Nat
  | [] => target
  | (_, payload) :: entries => payloadsStop (alignUp (payload.stop target) 16) entries

/-- The payloads end at or behind the offset of the first. -/
theorem le_payloadsStop (target : Nat) (entries : List (UInt32 × Payload)) :
    target ≤ payloadsStop target entries := by
  induction entries generalizing target with
  | nil => exact Nat.le_refl _
  | cons e entries ih =>
    have hstop := e.2.le_stop target
    have halign := le_alignUp (e.2.stop target) (show 0 < 16 by decide)
    have hrest := ih (alignUp (e.2.stop target) 16)
    show target ≤ payloadsStop (alignUp (e.2.stop target) 16) entries
    omega

variable {order : ByteOrder} {area r : ByteArray} {offset : Nat}

/-! ## Numbers -/

/-- A number is written where its four bytes fit. -/
theorem exists_putU32 {v : UInt32} (h : offset + 4 ≤ area.size) :
    ∃ r, putU32 order area offset v = some r :=
  ByteArray.exists_put? h

/-- Writing a number leaves all other bytes alone. -/
theorem byteAt_putU32 {v : UInt32} (h : putU32 order area offset v = some r) {i : Nat}
    (hi : i < offset ∨ offset + 4 ≤ i) : r.byteAt i = area.byteAt i :=
  ByteArray.byteAt_put?_of_not_mem h hi

/-- The word that was written is the number in the order of the area. -/
theorem wordAt_putU32 {v : UInt32} (h : putU32 order area offset v = some r) :
    r.wordAt offset = Word.encode v order := by
  have hbytes (w : Word) : w.toBytes.wordAt 0 = w := rfl
  rw [← hbytes (Word.encode v order)]
  apply ByteArray.wordAt_congr
  intro k hk
  rw [Nat.zero_add]
  exact ByteArray.byteAt_put?_add h hk

/-- A pointer is written where its four bytes fit and the target has an address. -/
theorem exists_putPointer {target : Nat} (hlimit : linkBase.toNat + target < 0x100000000)
    (h : offset + 4 ≤ area.size) : ∃ r, putPointer order area offset target = some r := by
  obtain ⟨r, hr⟩ : ∃ r, putU32 order area offset (pointer target) = some r := exists_putU32 h
  exact ⟨r, putPointer_eq_some_iff.2 ⟨by omega, hr⟩⟩

/-- Writing a pointer leaves all other bytes alone. -/
theorem byteAt_putPointer {target : Nat} (h : putPointer order area offset target = some r)
    {i : Nat} (hi : i < offset ∨ offset + 4 ≤ i) : r.byteAt i = area.byteAt i :=
  byteAt_putU32 (putPointer_eq_some_iff.1 h).2 hi

/-- The word that was written is the pointer to the target. -/
theorem wordAt_putPointer {target : Nat} (h : putPointer order area offset target = some r) :
    r.wordAt offset = Word.encode (pointer target) order :=
  wordAt_putU32 (putPointer_eq_some_iff.1 h).2

/-! ## Reservations -/

/-- One reservation is written as a pointer, a size and a name, and the others behind it. -/
theorem putReservations_cons_eq_some {nameOffset stop : Nat} {m : ByteArray × UInt32}
    {rs : List (ByteArray × UInt32)} :
    putReservations order offset nameOffset area (m :: rs) = some (r, stop) ↔
      ∃ a₁, putPointer order area offset nameOffset = some a₁ ∧
        ∃ a₂, putU32 order a₁ (offset + 4) m.2 = some a₂ ∧
          ∃ a₃, a₂.put? nameOffset m.1 = some a₃ ∧
            putReservations order (offset + 8) (alignUp (nameOffset + m.1.size + 1) 4) a₃ rs =
              some (r, stop) := by
  simp only [putReservations, Option.bind_eq_bind, Option.bind_eq_some_iff]

/-- Reservations are written if the records end before the names, and the last name inside the
area. -/
theorem exists_putReservations {nameOffset : Nat} {rs : List (ByteArray × UInt32)}
    (hrecords : offset + 8 * rs.length ≤ nameOffset)
    (hfit : namesStop nameOffset rs ≤ area.size)
    (hlimit : linkBase.toNat + namesStop nameOffset rs < 0x100000000) :
    ∃ r, putReservations order offset nameOffset area rs = some (r, namesStop nameOffset rs) := by
  -- Induction on the records. They end where the names start, so the last name decides.
  induction rs generalizing offset nameOffset area with
  | nil => exact ⟨area, rfl⟩
  | cons m rs ih =>
    have hnext : namesStop nameOffset (m :: rs) =
        namesStop (alignUp (nameOffset + m.1.size + 1) 4) rs := rfl
    rw [hnext] at hfit hlimit
    -- the next name starts behind this one, and the last one ends behind that
    have halign := le_alignUp (nameOffset + m.1.size + 1) (show 0 < 4 by decide)
    have hrest := le_namesStop (alignUp (nameOffset + m.1.size + 1) 4) rs
    rw [List.length_cons] at hrecords
    -- the three writes, none of which changes the size
    obtain ⟨a₁, h₁⟩ : ∃ a₁, putPointer order area offset nameOffset = some a₁ :=
      exists_putPointer (by omega) (by omega)
    have hsize₁ := size_putPointer h₁
    obtain ⟨a₂, h₂⟩ : ∃ a₂, putU32 order a₁ (offset + 4) m.2 = some a₂ :=
      exists_putU32 (by omega)
    have hsize₂ := size_putU32 h₂
    obtain ⟨a₃, h₃⟩ : ∃ a₃, a₂.put? nameOffset m.1 = some a₃ := ByteArray.exists_put? (by omega)
    have hsize₃ := ByteArray.size_put? h₃
    obtain ⟨r, hr⟩ := @ih a₃ (offset + 8) (alignUp (nameOffset + m.1.size + 1) 4) (by omega)
      (by omega) hlimit
    exact ⟨r, putReservations_cons_eq_some.2 ⟨a₁, h₁, a₂, h₂, a₃, h₃, hr⟩⟩

/-- Writing reservations stops behind the last name. -/
theorem stop_putReservations {nameOffset stop : Nat} {rs : List (ByteArray × UInt32)}
    (h : putReservations order offset nameOffset area rs = some (r, stop)) :
    stop = namesStop nameOffset rs := by
  induction rs generalizing offset nameOffset area with
  | nil =>
    cases h
    rfl
  | cons m rs ih =>
    obtain ⟨a₁, -, a₂, -, a₃, -, hr⟩ := putReservations_cons_eq_some.1 h
    exact ih hr

/-- Writing reservations changes the records and what follows the first name. -/
theorem byteAt_putReservations {nameOffset stop : Nat} {rs : List (ByteArray × UInt32)}
    (h : putReservations order offset nameOffset area rs = some (r, stop)) {i : Nat}
    (hi : i < offset ∨ offset + 8 * rs.length ≤ i)
    (hi' : i < nameOffset ∨ stop ≤ i) : r.byteAt i = area.byteAt i := by
  -- Induction on the records: the later ones and their names lie inside the two places.
  induction rs generalizing offset nameOffset area with
  | nil =>
    cases h
    rfl
  | cons m rs ih =>
    have hstop := stop_putReservations h
    obtain ⟨a₁, h₁, a₂, h₂, a₃, h₃, hr⟩ := putReservations_cons_eq_some.1 h
    have hstop : stop = namesStop (alignUp (nameOffset + m.1.size + 1) 4) rs := hstop
    have halign := le_alignUp (nameOffset + m.1.size + 1) (show 0 < 4 by decide)
    have hrest := le_namesStop (alignUp (nameOffset + m.1.size + 1) 4) rs
    rw [List.length_cons] at hi
    -- the byte is none of those of the later writes, of the name, of the size and of the pointer
    rw [ih hr (by omega) (by omega), ByteArray.byteAt_put?_of_not_mem h₃ (by omega),
      byteAt_putU32 h₂ (by omega), byteAt_putPointer h₁ (by omega)]

/-! ## Payloads -/

/-- A version record is written as three fields of their own width. -/
theorem putPayload_version_eq_some {x y z : ByteArray} {stop : Nat} :
    putPayload order offset area (.version x y z) = some (r, stop) ↔
      ∃ a₁, area.put? offset x = some a₁ ∧ ∃ a₂, a₁.put? (offset + 32) y = some a₂ ∧
        a₂.put? (offset + 64) z = some r ∧ stop = offset + 192 := by
  simp only [putPayload, Option.bind_eq_bind, Option.bind_eq_some_iff, Option.pure_def,
    Option.some.injEq, Prod.mk.injEq, eq_comm (b := stop)]
  -- both sides make the first two writes
  apply exists_congr
  intro a₁
  apply and_congr_right
  intro _
  apply exists_congr
  intro a₂
  apply and_congr_right
  intro _
  constructor
  · intro h
    obtain ⟨a₃, h₃, rfl, hstop⟩ := h
    exact ⟨h₃, hstop⟩
  · intro h
    exact ⟨r, h.1, rfl, h.2⟩

/-- Bytes are written as they are. -/
theorem putPayload_raw_eq_some {bytes : ByteArray} {stop : Nat} :
    putPayload order offset area (.raw bytes) = some (r, stop) ↔
      area.put? offset bytes = some r ∧ stop = offset + bytes.size := by
  simp only [putPayload, Option.bind_eq_bind, Option.bind_eq_some_iff, Option.pure_def,
    Option.some.injEq, Prod.mk.injEq, eq_comm (b := stop)]
  constructor
  · intro h
    obtain ⟨a₁, h₁, rfl, hstop⟩ := h
    exact ⟨h₁, hstop⟩
  · intro h
    exact ⟨r, h.1, rfl, h.2⟩

/-- A payload that fits its tag is written if it ends inside the area. -/
theorem exists_putPayload {tag : UInt32} {p : Payload} (hfits : p.Fits tag)
    (hfit : p.stop offset ≤ area.size) (hlimit : linkBase.toNat + p.stop offset < 0x100000000) :
    ∃ r, putPayload order offset area p = some (r, p.stop offset) := by
  cases p with
  | reservations rs =>
    -- the records end where the names start
    have hnames := le_namesStop (offset + (rs.length + 1) * 8) rs
    exact exists_putReservations (by omega) hfit hlimit
  | version x y z =>
    -- no text is longer than its field, and the last field ends with the record
    obtain ⟨-, ⟨-, hx⟩, ⟨-, hy⟩, -, hz⟩ := hfits
    have hfit : offset + 192 ≤ area.size := hfit
    obtain ⟨a₁, h₁⟩ : ∃ a₁, area.put? offset x = some a₁ := ByteArray.exists_put? (by omega)
    have hsize₁ := ByteArray.size_put? h₁
    obtain ⟨a₂, h₂⟩ : ∃ a₂, a₁.put? (offset + 32) y = some a₂ :=
      ByteArray.exists_put? (by omega)
    have hsize₂ := ByteArray.size_put? h₂
    obtain ⟨r, h₃⟩ : ∃ r, a₂.put? (offset + 64) z = some r := ByteArray.exists_put? (by omega)
    exact ⟨r, putPayload_version_eq_some.2 ⟨a₁, h₁, a₂, h₂, h₃, rfl⟩⟩
  | raw bytes =>
    obtain ⟨r, hr⟩ : ∃ r, area.put? offset bytes = some r := ByteArray.exists_put? hfit
    exact ⟨r, putPayload_raw_eq_some.2 ⟨hr, rfl⟩⟩

/-- Writing a payload stops where the payload ends. -/
theorem stop_putPayload {p : Payload} {stop : Nat}
    (h : putPayload order offset area p = some (r, stop)) : stop = p.stop offset := by
  cases p with
  | reservations rs => exact stop_putReservations h
  | version x y z =>
    obtain ⟨a₁, -, a₂, -, -, hstop⟩ := putPayload_version_eq_some.1 h
    exact hstop
  | raw bytes => exact (putPayload_raw_eq_some.1 h).2

/-- Writing a payload changes nothing before its start or from its stop on. -/
theorem byteAt_putPayload {tag : UInt32} {p : Payload} {stop : Nat} (hfits : p.Fits tag)
    (h : putPayload order offset area p = some (r, stop)) {i : Nat}
    (hi : i < offset ∨ stop ≤ i) : r.byteAt i = area.byteAt i := by
  cases p with
  | reservations rs =>
    have hstop := stop_putReservations h
    have hnames := le_namesStop (offset + (rs.length + 1) * 8) rs
    exact byteAt_putReservations h (by omega) (by omega)
  | version x y z =>
    -- no text is longer than its field
    obtain ⟨-, ⟨-, hx⟩, ⟨-, hy⟩, -, hz⟩ := hfits
    obtain ⟨a₁, h₁, a₂, h₂, h₃, hstop⟩ := putPayload_version_eq_some.1 h
    rw [ByteArray.byteAt_put?_of_not_mem h₃ (by omega),
      ByteArray.byteAt_put?_of_not_mem h₂ (by omega),
      ByteArray.byteAt_put?_of_not_mem h₁ (by omega)]
  | raw bytes =>
    obtain ⟨hr, hstop⟩ := putPayload_raw_eq_some.1 h
    exact ByteArray.byteAt_put?_of_not_mem hr (by omega)

/-! ## Entries -/

variable {target : Nat}

/-- One entry is written as a tag, a pointer and its payload, and the others behind it. -/
theorem putEntries_cons_eq_some {e : UInt32 × Payload} {entries : List (UInt32 × Payload)} :
    putEntries order offset target area (e :: entries) = some r ↔
      ∃ a₁, putU32 order area offset e.1 = some a₁ ∧
        ∃ a₂, putPointer order a₁ (offset + 4) target = some a₂ ∧
          ∃ a₃, putPayload order target a₂ e.2 = some (a₃, e.2.stop target) ∧
            putEntries order (offset + 8) (alignUp (e.2.stop target) 16) a₃ entries = some r := by
  simp only [putEntries, Option.bind_eq_bind, Option.bind_eq_some_iff]
  -- both sides make the first two writes
  apply exists_congr
  intro a₁
  apply and_congr_right
  intro _
  apply exists_congr
  intro a₂
  apply and_congr_right
  intro _
  constructor
  · intro h
    obtain ⟨⟨a₃, stop⟩, h₃, h⟩ := h
    -- where the payload stops is told by the payload
    have hstop := stop_putPayload h₃
    subst hstop
    exact ⟨a₃, h₃, h⟩
  · intro h
    obtain ⟨a₃, h₃, h⟩ := h
    exact ⟨(a₃, e.2.stop target), h₃, h⟩

/-- Entries are written if the array ends before the payloads, and the last payload inside the
area. -/
theorem exists_putEntries {entries : List (UInt32 × Payload)}
    (hfits : ∀ e ∈ entries, e.2.Fits e.1) (harray : offset + 8 * entries.length ≤ target)
    (hfit : payloadsStop target entries ≤ area.size)
    (hlimit : linkBase.toNat + payloadsStop target entries < 0x100000000) :
    ∃ r, putEntries order offset target area entries = some r := by
  -- Induction on the entries. The array ends where the payloads start, so the last payload decides.
  induction entries generalizing offset target area with
  | nil => exact ⟨area, rfl⟩
  | cons e entries ih =>
    have hnext : payloadsStop target (e :: entries) =
        payloadsStop (alignUp (e.2.stop target) 16) entries := rfl
    rw [hnext] at hfit hlimit
    have hstop := e.2.le_stop target
    have halign := le_alignUp (e.2.stop target) (show 0 < 16 by decide)
    have hrest := le_payloadsStop (alignUp (e.2.stop target) 16) entries
    rw [List.length_cons] at harray
    -- the three writes, none of which changes the size
    obtain ⟨a₁, h₁⟩ : ∃ a₁, putU32 order area offset e.1 = some a₁ := exists_putU32 (by omega)
    have hsize₁ := size_putU32 h₁
    obtain ⟨a₂, h₂⟩ : ∃ a₂, putPointer order a₁ (offset + 4) target = some a₂ :=
      exists_putPointer (by omega) (by omega)
    have hsize₂ := size_putPointer h₂
    obtain ⟨a₃, h₃⟩ : ∃ a₃, putPayload order target a₂ e.2 = some (a₃, e.2.stop target) :=
      exists_putPayload (hfits e List.mem_cons_self) (by omega) (by omega)
    have hsize₃ := size_putPayload h₃
    obtain ⟨r, hr⟩ := @ih a₃ (offset + 8) (alignUp (e.2.stop target) 16)
      (fun e' he' => hfits e' (List.mem_cons_of_mem _ he')) (by omega) (by omega) hlimit
    exact ⟨r, putEntries_cons_eq_some.2 ⟨a₁, h₁, a₂, h₂, a₃, h₃, hr⟩⟩

/-- Writing entries changes the array and the payloads. -/
theorem byteAt_putEntries {entries : List (UInt32 × Payload)}
    (hfits : ∀ e ∈ entries, e.2.Fits e.1)
    (h : putEntries order offset target area entries = some r) {i : Nat}
    (hi : i < offset ∨ offset + 8 * entries.length ≤ i)
    (hi' : i < target ∨ payloadsStop target entries ≤ i) : r.byteAt i = area.byteAt i := by
  -- Induction on the entries: the places of the later ones lie inside those of all of them.
  induction entries generalizing offset target area with
  | nil =>
    cases h
    rfl
  | cons e entries ih =>
    obtain ⟨a₁, h₁, a₂, h₂, a₃, h₃, hr⟩ := putEntries_cons_eq_some.1 h
    have hi' : i < target ∨ payloadsStop (alignUp (e.2.stop target) 16) entries ≤ i := hi'
    have hstop := e.2.le_stop target
    have halign := le_alignUp (e.2.stop target) (show 0 < 16 by decide)
    have hrest := le_payloadsStop (alignUp (e.2.stop target) 16) entries
    rw [List.length_cons] at hi
    -- the byte is none of those of the later entries, of the payload, of the pointer and of the tag
    rw [ih (fun e' he' => hfits e' (List.mem_cons_of_mem _ he')) hr (by omega) (by omega),
      byteAt_putPayload (hfits e List.mem_cons_self) h₃ (by omega),
      byteAt_putPointer h₂ (by omega), byteAt_putU32 h₁ (by omega)]

end Builder

end ConfigArea
