import ConfigArea.Proofs.Detection.Shape
import ConfigArea.Proofs.Relocation.Contents
import ConfigArea.Sample.Builder

/-!
# Detection of built areas

Built areas all start alike: a pointer to the entries, zeros up to them, one slot for each entry
and one for the terminator, which has no payload. Words of that kind have the shape that detection
looks for, in the order in which they were written.

## Key results

- `Detection.Laid.shape`: words that are laid out like that have the shape of an area
- `Region.detect_of_records`: detection accepts a region that contains entries laid out like that
-/

namespace ConfigArea

namespace Detection

/-- The words of an area with `n` entries start as built areas do: with the pointer to the entries
and zeros up to them, entries whose payloads lie behind the start, and a terminator. -/
structure Laid (word : Nat → Word) (size : Nat) (o : ByteOrder) (n : Nat) : Prop where
  head : (word 0).value o = Builder.pointer 16
  gap : ∀ i, 1 ≤ i → i < 4 → (word i).setBytes = 0
  tag : ∀ k, k < n → 1 ≤ ((word (4 + 2 * k)).value o).toNat ∧
    ((word (4 + 2 * k)).value o).toNat ≤ 15
  payload : ∀ k, k < n → Builder.linkBase.toNat < ((word (5 + 2 * k)).value o).toNat ∧
    ((word (5 + 2 * k)).value o).toNat - Builder.linkBase.toNat ≤ size
  terminator : 1 ≤ ((word (4 + 2 * n)).value o).toNat ∧ ((word (4 + 2 * n)).value o).toNat ≤ 16
  null : (word (5 + 2 * n)).value o = 0

variable {word : Nat → Word} {size : Nat} {o : ByteOrder} {n : Nat}

/-- The words of the tags, that of the terminator included, look like tags. -/
theorem Laid.setBytes_eq_one (h : Laid word size o n) {k : Nat} (hk : k ≤ n) :
    (word (4 + 2 * k)).setBytes = 1 := by
  -- the tags of the entries and of the terminator are small numbers
  rcases Nat.lt_or_eq_of_le hk with hlt | rfl
  · have := h.tag k hlt
    exact Word.setBytes_eq_one (o := o) (by omega) (by omega)
  · have := h.terminator
    exact Word.setBytes_eq_one (o := o) (by omega) (by omega)

/-- The array goes on to the null payload. -/
theorem Laid.setBytes_ne_zero (h : Laid word size o n) {i : Nat} (hi : 4 ≤ i)
    (hi' : i < 5 + 2 * n) : (word i).setBytes ≠ 0 := by
  -- tags and payloads alternate
  rcases Nat.mod_two_eq_zero_or_one i with heven | hodd
  · obtain ⟨k, rfl⟩ : ∃ k, i = 4 + 2 * k := ⟨(i - 4) / 2, by omega⟩
    rw [h.setBytes_eq_one (by omega)]
    decide
  · obtain ⟨k, rfl⟩ : ∃ k, i = 5 + 2 * k := ⟨(i - 5) / 2, by omega⟩
    intro h₀
    have hvalue := Word.value_eq_zero_iff (o := o) |>.2 (Word.kind_eq_zero_iff.2 h₀)
    have hpayload := (h.payload k (by omega)).1
    rw [hvalue] at hpayload
    exact absurd hpayload (Nat.not_lt_zero _)

/-- Words that are laid out like that have the shape of an area, with its array from word 4 on. -/
theorem Laid.shape (h : Laid word size o n) {count : Nat} (hcount : 6 + 2 * n ≤ count) :
    Shape word count size o 4 (5 + 2 * n) := by
  have hbase : (linkBase ((word 0).value o)).toNat = Builder.linkBase.toNat := by
    rw [h.head]
    rfl
  have hwalked {i : Nat} (hi : Walked word o 4 (5 + 2 * n) i) : ∃ k, k < n ∧ i = 4 + 2 * k := by
    obtain ⟨k, rfl, hlt, -⟩ := hi
    exact ⟨k, by omega, rfl⟩
  refine { count_pos := by omega, head := ?_, start_least := ⟨?_, ?_⟩, null_least := ⟨?_, ?_⟩,
           odd := ?_, order := ?_, tag_le := ?_, payload_mem := ?_, address := ?_ }
  · -- the pointer to the entries has more than one byte set, in either order
    rw [← Word.encode_value (word 0) o, h.head]
    cases o <;> decide
  · -- the array starts at the first tag
    exact ⟨by decide, by omega, h.setBytes_eq_one (Nat.zero_le _)⟩
  · -- up to the entries all words are zero
    intro i hi
    by_contra hlt
    have hgap := h.gap i hi.1 (Nat.lt_of_not_le hlt)
    exact absurd (hgap.symm.trans hi.2.2) (by decide)
  · -- it ends at the null payload of the terminator
    refine ⟨by omega, by omega, ?_⟩
    exact Word.kind_eq_zero_iff.1 (Word.value_eq_zero_iff.1 h.null)
  · intro i hi
    by_contra hlt
    exact h.setBytes_ne_zero (Nat.le_of_lt hi.1) (Nat.lt_of_not_le hlt) hi.2.2
  · -- it has whole entries
    exact ⟨n, by omega⟩
  · rw [show 5 + 2 * n - 1 = 4 + 2 * n by omega]
    obtain ⟨hpos, hle⟩ := h.terminator
    -- the tag of the terminator is small in the order of the area, and only there
    cases o with
    | little => rw [if_pos (UInt32.le_iff_toNat_le.2 hle)]
    | big =>
      have hlt := Word.lt_value_little hpos (by omega)
      rw [if_neg fun hle' => ?_]
      have hle' : ((word (4 + 2 * n)).value .little).toNat ≤ 16 := UInt32.le_iff_toNat_le.1 hle'
      omega
  · intro i hi
    obtain ⟨k, hk, rfl⟩ := hwalked hi
    have := h.tag k hk
    exact UInt32.le_iff_toNat_le.2 (show _ ≤ 16 by omega)
  · intro i hi
    obtain ⟨k, hk, rfl⟩ := hwalked hi
    rw [hbase, show 4 + 2 * k + 1 = 5 + 2 * k by omega]
    exact h.payload k hk
  · -- the pointer leads to word 4
    rw [hbase, h.head]
    rfl

end Detection

namespace Region

variable {R : Region}

/-- Detection accepts a region that starts as built areas do. -/
theorem detect_of_records {horizon : Nat} (hfit : R.stop ≤ R.buffer.size) {es : List Entry}
    (hhorizon : 16 + 8 * (es.length + 1) ≤ horizon) (hsize : 16 + 8 * (es.length + 1) ≤ R.size)
    (hhead : (R.buffer.wordAt R.offset).value R.order = Builder.pointer 16)
    (hgap : ∀ i, 4 ≤ i → i < 16 → R.buffer.byteAt (R.offset + i) = 0)
    (hbase : R.base = Builder.linkBase.toNat)
    (h : Records (fun i e => R.HasSlot i e ∧ R.base < R.word (i + 4))
      (fun j => (1 ≤ R.word j ∧ R.word j ≤ 16) ∧ R.word (j + 4) = 0) (R.offset + 16) es) :
    detect horizon (R.buffer.extract R.offset R.stop) = .ok R.order := by
  have hRstop : R.stop = R.offset + R.size := rfl
  -- the words of the region are those of the buffer
  have hregion : (R.buffer.extract R.offset R.stop).size = R.size := by
    rw [ByteArray.size_extract]
    omega
  have hword (i : Nat) (hi : 4 * i + 4 ≤ R.size) :
      (R.buffer.extract R.offset R.stop).wordAt (4 * i) = R.buffer.wordAt (R.offset + 4 * i) :=
    ByteArray.wordAt_extract (by omega)
  have hvalue (i j : Nat) (hi : 4 * i + 4 ≤ R.size) (hj : j = R.offset + 4 * i) :
      (((R.buffer.extract R.offset R.stop).wordAt (4 * i)).value R.order).toNat = R.word j := by
    rw [hword i hi, hj]
    rfl
  -- and they are laid out as those of a built area
  have hlaid : Detection.Laid (fun i => (R.buffer.extract R.offset R.stop).wordAt (4 * i)) R.size
      R.order es.length := by
    refine ⟨?_, fun i hi hi' => ?_, fun k hk => ?_, fun k hk => ?_, ?_, ?_⟩
    · -- the pointer to the entries
      rw [hword 0 (by omega)]
      exact hhead
    · -- zeros up to them
      rw [hword i (by omega)]
      rw [ByteArray.wordAt_eq_zero fun k hk hk' => ?_]
      · rfl
      · obtain ⟨j, rfl⟩ := Nat.exists_eq_add_of_le (show R.offset ≤ k by omega)
        exact hgap j (by omega) (by omega)
    · -- the tags of the entries
      rw [hvalue (4 + 2 * k) (R.offset + 16 + 8 * k) (by omega) (by omega)]
      exact (h.record k hk).1.entry.tag_mem
    · -- their payloads, which lie in the region and behind its start
      have haddr := (h.record k hk).1.addresses.2
      dsimp only [locate] at haddr
      rw [hvalue (5 + 2 * k) (R.offset + 16 + 8 * k + 4) (by omega) (by omega), ← hbase]
      exact ⟨(h.record k hk).2, by omega⟩
    · -- the tag of the terminator
      rw [hvalue (4 + 2 * es.length) (R.offset + 16 + 8 * es.length) (by omega) (by omega)]
      exact h.last.1
    · -- its null payload
      apply UInt32.toNat_inj.1
      rw [hvalue (5 + 2 * es.length) (R.offset + 16 + 8 * es.length + 4) (by omega) (by omega)]
      exact h.last.2
  -- the array ends within the horizon, so that shape is seen
  obtain ⟨v, hv, ho⟩ := Detection.examine_of_shape
    (hlaid.shape (show 6 + 2 * es.length ≤ min horizon R.size / 4 by omega))
  rw [← hregion] at hv
  exact detect_eq_ok_iff.2 ⟨v, hv, ho⟩

end Region

end ConfigArea
