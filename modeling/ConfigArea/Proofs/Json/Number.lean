import ConfigArea.Proofs.Json.Text

/-!
# Numbers as they are written

A number is written as an optional sign, digits without leading zeros, and optionally a fraction and
a power of ten. This file shows that what is written so is read as one numeral, if nothing follows
that a number could go on with, and that the digits of a natural number of 64 bits are read as that
number.

## Key results

- `Numeral.scan_of_isNumeral`: every number is read to its end
- `Numeral.scan_toDigits`, `Numeral.natural?_toDigits`: the digits of a natural number have its
  value
- `Numeral.overflows_toDigits`: such a number is not too large for a double
- `readNat_reads`: a natural number is read back from its digits
-/

namespace ConfigArea.Json

/-- Digits, one at least. -/
def IsDigits (ds : List Char) : Prop :=
  ds ≠ [] ∧ ∀ c ∈ ds, c.isDigit = true

/-- The digits before the point: a zero stands alone. -/
def IsWhole (ds : List Char) : Prop :=
  IsDigits ds ∧ (ds.head? = some '0' → ds = ['0'])

/-- The point and the digits after it, if there is a point. -/
inductive IsFraction : List Char → Prop where
  | absent : IsFraction []
  | digits {ds : List Char} (h : IsDigits ds) : IsFraction ('.' :: ds)

/-- The power of ten, if there is one. -/
inductive IsExponent : List Char → Prop where
  | absent : IsExponent []
  | power {e : Char} {sign ds : List Char} (he : e = 'e' ∨ e = 'E')
      (hsign : sign = [] ∨ sign = ['+'] ∨ sign = ['-']) (h : IsDigits ds) :
      IsExponent (e :: (sign ++ ds))

/-- A number as it is written. -/
inductive IsNumeral : List Char → Prop where
  | mk {sign whole fraction exponent : List Char} (hsign : sign = [] ∨ sign = ['-'])
      (hwhole : IsWhole whole) (hfraction : IsFraction fraction)
      (hexponent : IsExponent exponent) :
      IsNumeral (sign ++ (whole ++ (fraction ++ exponent)))

/-- What may follow a value: nothing that a number could go on with. -/
def Ends (s : List Char) : Prop :=
  ∀ c, s.head? = some c → c.isDigit = false ∧ c ≠ '.' ∧ c ≠ 'e' ∧ c ≠ 'E'

variable {s ds rest : List Char} {c : Char} {atEnd : Fault}

/-- The end of a text may follow a value. -/
@[simp] theorem ends_nil : Ends [] := by
  intro c hc
  cases hc

/-- What may follow a value is told by its first character. -/
@[simp] theorem ends_cons :
    Ends (c :: s) ↔ c.isDigit = false ∧ c ≠ '.' ∧ c ≠ 'e' ∧ c ≠ 'E' := by
  simp [Ends]

/-- A blank may follow a value. -/
theorem ends_cons_of_isBlank (h : isBlank c = true) : Ends (c :: s) := by
  simp only [isBlank, Bool.or_eq_true, beq_iff_eq] at h
  rcases h with ((rfl | rfl) | rfl) | rfl <;> exact ends_cons.2 (by decide)

/-- Blanks may follow a value if what follows them may. -/
theorem Ends.append {ws : List Char} (hs : Ends s) (hws : Blank ws) : Ends (ws ++ s) := by
  cases ws with
  | nil => exact hs
  | cons c ws => exact ends_cons_of_isBlank (hws c List.mem_cons_self)

/-! ## Digits -/

/-- There is a first digit. -/
theorem IsDigits.exists_cons (h : IsDigits ds) : ∃ c t, ds = c :: t ∧ c.isDigit = true := by
  obtain ⟨c, t, rfl⟩ := List.exists_cons_of_ne_nil h.1
  exact ⟨c, t, rfl, h.2 c List.mem_cons_self⟩

/-- A digit differs from what is no digit. -/
theorem ne_of_isDigit {d : Char} (h : c.isDigit = true) (hd : d.isDigit = false) : c ≠ d := by
  rintro rfl
  rw [h] at hd
  cases hd

/-- A digit is not a blank. -/
theorem isBlank_of_isDigit (h : c.isDigit = true) : isBlank c = false := by
  simp [isBlank, ne_of_isDigit h (d := ' ') (by decide), ne_of_isDigit h (d := '\n') (by decide),
    ne_of_isDigit h (d := '\t') (by decide), ne_of_isDigit h (d := '\r') (by decide)]

/-- Digits are read up to the first character that is none. -/
theorem scanDigits_append (h : IsDigits ds)
    (hrest : ∀ c, rest.head? = some c → c.isDigit = false) :
    scanDigits atEnd (ds ++ rest) = .ok (ds, rest) := by
  -- nothing is taken from what follows, so all that is taken are the digits
  have htake : rest.takeWhile Char.isDigit = [] ∧ rest.dropWhile Char.isDigit = rest := by
    cases rest with
    | nil => exact ⟨rfl, rfl⟩
    | cons c t => simp [hrest c rfl]
  have hds : (ds ++ rest).takeWhile Char.isDigit = ds ∧
      (ds ++ rest).dropWhile Char.isDigit = rest := by
    rw [List.takeWhile_append_of_pos h.2, List.dropWhile_append_of_pos h.2, htake.1, htake.2]
    exact ⟨List.append_nil _, rfl⟩
  -- the first digit is what the scan asks for before it takes them
  obtain ⟨c, t, rfl, hc⟩ := h.exists_cons
  rw [List.cons_append] at hds ⊢
  rw [scanDigits, if_pos hc, hds.1, hds.2]

namespace Numeral

/-- The digits before the point are read up to the first character that is none. -/
theorem scanWhole_append (h : IsWhole ds)
    (hrest : ∀ c, rest.head? = some c → c.isDigit = false) :
    scanWhole atEnd (ds ++ rest) = .ok (ds, rest) := by
  rw [scanWhole.eq_def]
  split
  · -- behind a zero no digit follows, since a zero stands alone
    rename_i c t heq
    have hzero : ds = ['0'] := by
      apply h.2
      obtain ⟨d, u, rfl, -⟩ := h.1.exists_cons
      rw [List.cons_append, List.cons.injEq] at heq
      rw [heq.1, List.head?_cons]
    subst hzero
    rw [List.singleton_append, List.cons.injEq] at heq
    rw [hrest c (by rw [heq.2, List.head?_cons]), if_neg (by decide)]
    exact scanDigits_append h.1 hrest
  · -- without a zero in front they are read as any digits are
    exact scanDigits_append h.1 hrest

/-- The digits behind the point are read, or nothing where there is no point. -/
theorem scanFraction_append {fraction : List Char} (h : IsFraction fraction)
    (hrest : ∀ c, rest.head? = some c → c.isDigit = false ∧ c ≠ '.') :
    scanFraction atEnd (fraction ++ rest) = .ok (fraction.tail, rest) := by
  cases h with
  | absent =>
    rw [List.nil_append, scanFraction.eq_def]
    -- what follows would have to be a point to be taken for one
    split
    · rename_i t
      exact absurd rfl (hrest '.' rfl).2
    · rfl
  | digits h => exact scanDigits_append h fun c hc => (hrest c hc).1

/-- The sign of a power of ten and its digits are read. -/
theorem scanPower_append (atEnd : Fault) {sign : List Char}
    (hsign : sign = [] ∨ sign = ['+'] ∨ sign = ['-']) (h : IsDigits ds)
    (hrest : ∀ c, rest.head? = some c → c.isDigit = false) :
    ∃ p, scanPower atEnd (sign ++ (ds ++ rest)) = .ok (p, rest) := by
  -- Without a sign the first digit must not be taken for one.
  rcases hsign with rfl | rfl | rfl
  · obtain ⟨c, t, rfl, hc⟩ := h.exists_cons
    rw [List.nil_append, List.cons_append,
      scanPower.eq_3 _ _ (fun _ heq => ne_of_isDigit hc (by decide) (List.cons.inj heq).1)
        (fun _ heq => ne_of_isDigit hc (by decide) (List.cons.inj heq).1),
      ← List.cons_append, scanDigits_append h hrest]
    exact ⟨_, rfl⟩
  · rw [List.singleton_append, scanPower, scanDigits_append h hrest]
    exact ⟨_, rfl⟩
  · rw [List.singleton_append, scanPower, scanDigits_append h hrest]
    exact ⟨_, rfl⟩

/-- A power of ten is read, or nothing where there is none. -/
theorem scanExponent_append (atEnd : Fault) {exponent : List Char} (h : IsExponent exponent)
    (hrest : Ends rest) :
    ∃ p, scanExponent atEnd (exponent ++ rest) = .ok (p, rest) ∧
      (exponent = [] → p = none) := by
  cases h with
  | absent =>
    -- what follows would have to be an `e` to be taken for one
    refine ⟨none, ?_, fun _ => rfl⟩
    rw [List.nil_append, scanExponent.eq_def]
    split
    · exact absurd rfl (hrest 'e' rfl).2.2.1
    · exact absurd rfl (hrest 'E' rfl).2.2.2
    · rfl
  | @power e sign ds he hsign h =>
    -- behind either letter the sign and the digits are read
    obtain ⟨p, hp⟩ := scanPower_append atEnd hsign h fun c hc => (hrest c hc).1
    refine ⟨some p, ?_, fun hnil => by cases hnil⟩
    rw [List.cons_append, List.append_assoc]
    rcases he with rfl | rfl
    · rw [scanExponent, hp]
      rfl
    · rw [scanExponent, hp]
      rfl

/-- A power of ten, or what follows where there is none, does not go on with digits or a point. -/
theorem head_exponent_append {exponent : List Char} (h : IsExponent exponent) (hrest : Ends rest)
    (hc : (exponent ++ rest).head? = some c) : c.isDigit = false ∧ c ≠ '.' := by
  cases h with
  | absent => exact ⟨(hrest c hc).1, (hrest c hc).2.1⟩
  | power he hsign h =>
    obtain rfl := Option.some.inj hc
    rcases he with rfl | rfl <;> decide

/-- A fraction, or what follows where there is none, does not go on with digits. -/
theorem head_fraction_append {fraction : List Char} (h : IsFraction fraction)
    (hrest : ∀ c, rest.head? = some c → c.isDigit = false)
    (hc : (fraction ++ rest).head? = some c) : c.isDigit = false := by
  cases h with
  | absent => exact hrest c hc
  | digits h =>
    obtain rfl := Option.some.inj hc
    decide

/-- The parts of a number are read one after the other. -/
theorem scanUnsigned_append (atEnd : Fault) (negative : Bool) {whole fraction exponent : List Char}
    (hwhole : IsWhole whole) (hfraction : IsFraction fraction) (hexponent : IsExponent exponent)
    (hrest : Ends rest) :
    ∃ p, scanUnsigned atEnd negative (whole ++ (fraction ++ (exponent ++ rest))) =
        .ok (⟨negative, whole, fraction.tail, p⟩, rest) ∧ (exponent = [] → p = none) := by
  obtain ⟨p, hp, hnone⟩ := scanExponent_append atEnd hexponent hrest
  refine ⟨p, ?_, hnone⟩
  -- each part is followed by something that it cannot go on with
  have hhead (c : Char) (hc : (exponent ++ rest).head? = some c) :=
    head_exponent_append hexponent hrest hc
  rw [scanUnsigned,
    scanWhole_append hwhole fun c => head_fraction_append hfraction fun c hc => (hhead c hc).1]
  simp [ok_bind, scanFraction_append hfraction hhead, hp, pure, Except.pure]

/-- Every number is read to its end. -/
theorem scan_of_isNumeral (atEnd : Fault) (h : IsNumeral s) (hrest : Ends rest) :
    ∃ n, scan atEnd (s ++ rest) = .ok (n, rest) := by
  cases h with
  | @mk sign whole fraction exponent hsign hwhole hfraction hexponent =>
    simp only [List.append_assoc]
    -- Without a sign the first digit must not be taken for one.
    rcases hsign with rfl | rfl
    · obtain ⟨c, t, rfl, hc⟩ := hwhole.1.exists_cons
      obtain ⟨p, hp, -⟩ := scanUnsigned_append atEnd false hwhole
        hfraction hexponent hrest
      rw [List.nil_append, List.cons_append,
        scan.eq_2 _ _ (fun _ heq => ne_of_isDigit hc (by decide) (List.cons.inj heq).1),
        ← List.cons_append]
      exact ⟨_, hp⟩
    · obtain ⟨p, hp, -⟩ := scanUnsigned_append atEnd true hwhole
        hfraction hexponent hrest
      rw [List.singleton_append, scan]
      exact ⟨_, hp⟩

/-! ## Natural numbers -/

/-- A natural number is written with digits. -/
theorem isDigits_toDigits (n : Nat) : IsDigits (Nat.toDigits 10 n) :=
  ⟨Nat.toDigits_ne_nil, fun _ hc => Nat.isDigit_of_mem_toDigits (by decide) (by decide) hc⟩

/-- Natural numbers have no leading zeros. -/
theorem isWhole_toDigits (n : Nat) : IsWhole (Nat.toDigits 10 n) := by
  refine ⟨isDigits_toDigits n, ?_⟩
  -- the first digit of a number is that of the number without its last digit
  induction n using Nat.strongRecOn with
  | ind n ih =>
    rw [Nat.toDigits_eq_if (by decide)]
    split
    · intro h
      rw [List.head?_cons] at h
      rw [Option.some.inj h]
    · rename_i hn
      intro h
      obtain ⟨c, t, ht, -⟩ := (isDigits_toDigits (n / 10)).exists_cons
      have hhead : (Nat.toDigits 10 (n / 10)).head? = some '0' := by
        rw [ht] at h ⊢
        exact h
      -- a leading zero is all there is of the shorter number, so that number is zero and not
      -- shorter
      have hzero := ih (n / 10) (by omega) hhead
      have hvalue := Nat.ofDigitChars_toDigits (b := 10) (n := n / 10) (by decide) (by decide)
      rw [hzero] at hvalue
      have : n / 10 = 0 := hvalue.symm
      omega

/-- Further digits make a number no smaller. -/
theorem le_ofDigitChars (ds : List Char) (n : Nat) : n ≤ Nat.ofDigitChars 10 ds n := by
  rw [Nat.ofDigitChars_eq_ofDigitChars_zero]
  have := Nat.le_mul_of_pos_left n (Nat.pow_pos (n := ds.length) (show 0 < 10 by decide))
  omega

/-- Digits whose number fits into 64 bits are all gathered. -/
theorem gather_eq (n : Nat) (h : Nat.ofDigitChars 10 ds n < 0x10000000000000000) :
    gather n ds = (Nat.ofDigitChars 10 ds n, []) := by
  induction ds generalizing n with
  | nil => rfl
  | cons c ds ih =>
    rw [Nat.ofDigitChars_cons, Nat.mul_comm 10] at h ⊢
    -- what has been gathered up to here is no more than the whole number
    have := le_ofDigitChars ds (n * 10 + (c.toNat - '0'.toNat))
    rw [gather, if_pos (by omega), ih _ h]

variable {n : Nat}

/-- All digits of a number of 64 bits are gathered. -/
theorem gather_toDigits (h : n < 0x10000000000000000) :
    gather 0 (Nat.toDigits 10 n) = (n, []) := by
  have hvalue := Nat.ofDigitChars_toDigits (b := 10) (n := n) (by decide) (by decide)
  rw [gather_eq 0 (by omega), hvalue]

/-- The numeral of a natural number is its digits. -/
theorem scan_toDigits (hrest : Ends rest) :
    scan atEnd (Nat.toDigits 10 n ++ rest) = .ok (⟨false, Nat.toDigits 10 n, [], none⟩, rest) := by
  -- a number without fraction and power of ten
  obtain ⟨p, hp, hnone⟩ := scanUnsigned_append atEnd false
    (isWhole_toDigits n) .absent .absent hrest
  obtain rfl := hnone rfl
  obtain ⟨c, t, ht, hc⟩ := (isDigits_toDigits n).exists_cons
  rw [List.nil_append, List.nil_append, ht, List.cons_append] at hp
  rw [ht, List.cons_append,
    scan.eq_2 _ _ (fun _ heq => ne_of_isDigit hc (by decide) (List.cons.inj heq).1), hp]
  rfl

/-- The digits of a number of 64 bits have its value. -/
theorem natural?_toDigits (h : n < 0x10000000000000000) :
    natural? ⟨false, Nat.toDigits 10 n, [], none⟩ = some n := by
  rw [natural?, gather_toDigits h]
  rfl

/-- Rounding to 53 bits adds at most half of the number. -/
theorem round53_le (n : Nat) : round53 n ≤ n + n := by
  rw [round53]
  split
  · omega
  · rename_i hbits
    -- the unit to which a number is rounded is no larger than the number
    have hunit : Nat.pow 2 (n.log2 - 52) ≤ n := by
      have hpow : 2 ^ (n.log2 - 52) ≤ 2 ^ n.log2 := Nat.pow_le_pow_right (by decide) (by omega)
      have hlog : 2 ^ n.log2 ≤ n := by
        apply Nat.log2_self_le
        rintro rfl
        exact hbits (by decide)
      exact Nat.le_trans hpow hlog
    -- rounding down leaves the number, and rounding up adds one unit
    have hdiv := Nat.div_mul_le_self n (Nat.pow 2 (n.log2 - 52))
    dsimp only
    split
    · rw [Nat.add_mul, Nat.one_mul]
      omega
    · omega

/-- A natural number of 64 bits is not too large for a double. -/
theorem overflows_toDigits (h : n < 0x10000000000000000) :
    overflows ⟨false, Nat.toDigits 10 n, [], none⟩ = false := by
  -- the number is all gathered, and there is no power of ten to multiply it with
  have hparts : parts ⟨false, Nat.toDigits 10 n, [], none⟩ = (n, 0) := by
    simp [parts, gather_toDigits h, gather]
  have hround := round53_le n
  have hone : round53 (Nat.pow 10 (0 : Int).toNat) = 1 := by decide
  -- a double goes beyond 65 bits, and rounding has added one bit at most
  have hlarge : 0x20000000000000000 ≤ roundsToInfinity := by decide +kernel
  rw [overflows, hparts]
  simp only [hone, Nat.mul_one, Bool.and_eq_false_iff, Bool.or_eq_false_iff,
    decide_eq_false_iff_not]
  exact .inr ⟨by decide, by omega⟩

end Numeral

/-- The digits of a number of 64 bits are read as a numeral. -/
theorem readNumeral_toDigits {n : Nat} (h : n < 0x10000000000000000) (hrest : Ends rest) :
    readNumeral (Nat.toDigits 10 n ++ rest) = .ok (⟨false, Nat.toDigits 10 n, [], none⟩, rest) := by
  rw [readNumeral, Numeral.scan_toDigits hrest, ok_bind]
  dsimp only
  rw [Numeral.overflows_toDigits h, if_neg (by decide)]

/-! ## Reading values -/

/-- A reader reads `s` as `a`: after any blanks, and up to what follows. -/
def Reader.Reads {α : Type} (reader : Reader α) (s : List Char) (a : α) : Prop :=
  ∀ ws rest, Blank ws → Ends rest → reader.run (ws ++ (s ++ rest)) = .ok (a, rest)

/-- What is read may be changed afterwards. -/
theorem Reader.Reads.map {α β : Type} {reader : Reader α} {a : α} (h : reader.Reads s a)
    (f : α → β) : (reader.map f).Reads s (f a) := by
  intro ws rest hws hrest
  exact map_eq_ok.2 ⟨(a, rest), h ws rest hws hrest, rfl⟩

/-- A natural number is read back from its digits. -/
theorem readNat_reads {n bound : Nat} (h : n < bound) (hbound : bound ≤ 0x10000000000000000) :
    (readNat bound).Reads (Nat.toDigits 10 n) n := by
  intro ws rest hws hrest
  obtain ⟨c, t, ht, hc⟩ := (Numeral.isDigits_toDigits n).exists_cons
  -- the digits are read, and their number is below the bound
  have hread := readNumeral_toDigits (n := n) (by omega) hrest
  have hbelow : Numeral.below? ⟨false, Nat.toDigits 10 n, [], none⟩ bound = some n := by
    rw [Numeral.below?, Numeral.natural?_toDigits (by omega)]
    simp [h]
  rw [readNat]
  dsimp only
  -- the first digit tells that a number is to be read
  rw [ht, List.cons_append, skipToValue_append hws (isBlank_of_isDigit hc), ok_bind]
  dsimp only
  rw [hc, Bool.or_true, if_pos rfl, ← List.cons_append, ← ht, hread, ok_bind]
  dsimp only
  rw [hbelow]

end ConfigArea.Json
