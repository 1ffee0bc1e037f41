import ConfigArea.Text.Utf8

/-!
# Text that was written as UTF-8

Bytes that encode a string read as that string: nothing in them is ill-formed, so no replacement
character shows up.

## Key results

- `Utf8.next_utf8EncodeChar`: the bytes of a character read as that character, and no more
- `text_toUTF8`: the text of an encoded string is that string
-/

namespace ConfigArea.Utf8

/-- The bytes behind the first of a character are those from 0x80 to 0xbf. -/
theorem isContinuation_iff {b : UInt8} :
    isContinuation b = true ↔ 0x80 ≤ b.toNat ∧ b.toNat ≤ 0xbf := by
  rw [isContinuation, Bool.and_eq_true, decide_eq_true_eq, decide_eq_true_eq,
    UInt8.le_iff_toNat_le, UInt8.le_iff_toNat_le]
  rfl

/-- The second byte of a character: some first bytes leave out a part of the continuation bytes. -/
theorem mayFollow_iff {a b : UInt8} :
    mayFollow a b = true ↔ (0x80 ≤ b.toNat ∧ b.toNat ≤ 0xbf) ∧
      (a.toNat = 0xe0 → 0xa0 ≤ b.toNat) ∧ (a.toNat = 0xed → b.toNat ≤ 0x9f) ∧
        (a.toNat = 0xf0 → 0x90 ≤ b.toNat) ∧ (a.toNat = 0xf4 → b.toNat ≤ 0x8f) := by
  rw [mayFollow, Bool.and_eq_true, decide_eq_true_eq, decide_eq_true_eq,
    UInt8.le_iff_toNat_le, UInt8.le_iff_toNat_le]
  -- four first bytes narrow the range of the second
  unfold secondBounds
  simp only [← UInt8.toNat_inj, UInt8.reduceToNat]
  -- one case for each such byte, and one for the others
  split
  · simp only [UInt8.reduceToNat]
    omega
  · split
    · simp only [UInt8.reduceToNat]
      omega
    · split
      · simp only [UInt8.reduceToNat]
        omega
      · split
        · simp only [UInt8.reduceToNat]
          omega
        · simp only [UInt8.reduceToNat]
          omega

variable {a b c d : UInt8} {rest : List UInt8}

/-- A byte up to 0x7f is a character. -/
theorem next_one (ha : a.toNat ≤ 0x7f) : next a rest = (.ofNat a.toNat, 0) := by
  have h : a < 0x80 := UInt8.lt_iff_toNat_lt.2 (Nat.lt_succ_of_le ha)
  unfold next
  rw [if_pos h]

/-- A byte from 0xc2 to 0xdf and one continuation byte are a character. -/
theorem next_two (ha : 0xc2 ≤ a.toNat) (ha' : a.toNat ≤ 0xdf) (hb : isContinuation b = true) :
    next a (b :: rest) = (.ofNat ((a.toNat - 0xc0) * 64 + payload b), 1) := by
  unfold next
  simp only [UInt8.lt_iff_toNat_lt, UInt8.le_iff_toNat_le, UInt8.reduceToNat, Bool.and_eq_true,
    decide_eq_true_eq]
  rw [if_neg (by omega), if_pos ⟨ha, ha'⟩, if_pos hb]

/-- A byte from 0xe0 to 0xef, one that may follow it and one continuation byte are a character. -/
theorem next_three (ha : 0xe0 ≤ a.toNat) (ha' : a.toNat ≤ 0xef) (hb : mayFollow a b = true)
    (hc : isContinuation c = true) :
    next a (b :: c :: rest) =
      (.ofNat (((a.toNat - 0xe0) * 64 + payload b) * 64 + payload c), 2) := by
  unfold next
  simp only [UInt8.lt_iff_toNat_lt, UInt8.le_iff_toNat_le, UInt8.reduceToNat, Bool.and_eq_true,
    decide_eq_true_eq]
  rw [if_neg (by omega), if_neg (by omega), if_pos ⟨ha, ha'⟩, if_pos hb, if_pos hc]

/-- A byte from 0xf0 to 0xf4, one that may follow it and two continuation bytes are a character. -/
theorem next_four (ha : 0xf0 ≤ a.toNat) (ha' : a.toNat ≤ 0xf4) (hb : mayFollow a b = true)
    (hc : isContinuation c = true) (hd : isContinuation d = true) :
    next a (b :: c :: d :: rest) =
      (.ofNat ((((a.toNat - 0xf0) * 64 + payload b) * 64 + payload c) * 64 + payload d), 3) := by
  unfold next
  simp only [UInt8.lt_iff_toNat_lt, UInt8.le_iff_toNat_le, UInt8.reduceToNat, Bool.and_eq_true,
    decide_eq_true_eq]
  rw [if_neg (by omega), if_neg (by omega), if_neg (by omega), if_pos ⟨ha, ha'⟩, if_pos hb,
    if_pos hc, if_pos hd]

/-- The bytes of a character read as that character, and nothing behind them is looked at. -/
theorem next_utf8EncodeChar (c : Char) (rest : List UInt8) :
    ∃ a tail, String.utf8EncodeChar c = a :: tail ∧
      next a (tail ++ rest) = (c, tail.length) := by
  -- numbers of surrogates are no characters, which is why the second byte is always a good one
  have hvalid : c.toNat < 0xd800 ∨ 0xdfff < c.toNat ∧ c.toNat < 0x110000 := c.valid
  have hchar {n : Nat} (h : n = c.toNat) : Char.ofNat n = c := by
    rw [h, Char.ofNat_toNat]
  have hbyte {n : Nat} (h : n < 256) : (UInt8.ofNat n).toNat = n :=
    UInt8.toNat_ofNat_of_lt' h
  unfold String.utf8EncodeChar
  simp only [show c.val.toNat = c.toNat from rfl]
  generalize c.toNat = v at hvalid hchar
  -- one case for each length of the encoding
  split
  · -- one byte
    refine ⟨_, _, rfl, ?_⟩
    rw [List.nil_append, next_one (by rw [hbyte] <;> omega), hbyte (by omega), hchar rfl]
    rfl
  · split
    · -- two bytes: the first has the high bits, the second the low ones
      refine ⟨_, _, rfl, ?_⟩
      rw [List.cons_append, next_two (by rw [hbyte] <;> omega) (by rw [hbyte] <;> omega)
        (isContinuation_iff.2 (by rw [hbyte] <;> omega)), hchar]
      · rfl
      · unfold payload
        rw [hbyte (by omega), hbyte (by omega)]
        omega
    · split
      · -- three bytes, of which the second must not make it a surrogate
        refine ⟨_, _, rfl, ?_⟩
        rw [List.cons_append, List.cons_append, next_three (by rw [hbyte] <;> omega)
          (by rw [hbyte] <;> omega)
          (mayFollow_iff.2 (by rw [hbyte (by omega), hbyte (by omega)]; omega))
          (isContinuation_iff.2 (by rw [hbyte] <;> omega)), hchar]
        · rfl
        · unfold payload
          rw [hbyte (by omega), hbyte (by omega), hbyte (by omega)]
          omega
      · -- four bytes, for what is left
        refine ⟨_, _, rfl, ?_⟩
        rw [List.cons_append, List.cons_append, List.cons_append,
          next_four (by rw [hbyte] <;> omega) (by rw [hbyte] <;> omega)
          (mayFollow_iff.2 (by rw [hbyte (by omega), hbyte (by omega)]; omega))
          (isContinuation_iff.2 (by rw [hbyte] <;> omega))
          (isContinuation_iff.2 (by rw [hbyte] <;> omega)), hchar]
        · rfl
        · unfold payload
          rw [hbyte (by omega), hbyte (by omega), hbyte (by omega), hbyte (by omega)]
          omega

/-- Decoding undoes encoding. -/
theorem decode_flatMap_utf8EncodeChar (cs : List Char) :
    decode (cs.flatMap String.utf8EncodeChar) = cs := by
  induction cs with
  | nil =>
    rw [List.flatMap_nil]
    unfold decode
    rfl
  | cons c cs ih =>
    -- the bytes of the first character are passed over, and the others are decoded
    obtain ⟨a, tail, hbytes, hnext⟩ := next_utf8EncodeChar c (cs.flatMap String.utf8EncodeChar)
    rw [List.flatMap_cons, hbytes, List.cons_append]
    unfold decode
    rw [hnext, List.drop_left, ih]

/-- The bytes of an encoded string are those of its characters one after the other. -/
theorem toList_data_toUTF8 (s : String) :
    s.toUTF8.data.toList = s.toList.flatMap String.utf8EncodeChar := by
  conv => lhs; rw [← String.ofList_toList (s := s)]
  rw [String.toUTF8_eq_toByteArray, String.toByteArray_ofList]
  unfold List.utf8Encode
  rw [List.data_toByteArray, List.toList_toArray]

end ConfigArea.Utf8

namespace ByteArray

open ConfigArea

/-- The text of an encoded string is that string. -/
theorem text_toUTF8 (s : String) : s.toUTF8.text = s := by
  unfold text
  rw [Utf8.toList_data_toUTF8, Utf8.decode_flatMap_utf8EncodeChar, String.ofList_toList]

end ByteArray
