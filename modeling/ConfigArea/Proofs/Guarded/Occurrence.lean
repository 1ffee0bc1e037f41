import ConfigArea.Guarded.Occurrence
import ConfigArea.Proofs.Location.Search

/-!
# Searches go through

No image stops the search for a blob or for a device tree: the last candidate leaves room for the
whole blob, and the comparison word by word is one of all bytes. The offsets in a header are numbers
of 32 bits, whose sums have room in 64.

## Key results

- `exactOccurrence_eq`: the search for a blob goes through
- `findDeviceTree_eq`: the search for a device tree goes through
-/

namespace ConfigArea.Guarded

/-! ## Comparison -/

/-- Byte strings that are cut at one place are equal if their parts are. -/
theorem eq_iff_extract_eq {a b : ByteArray} {m : Nat} (ha : m ≤ a.size) (hb : m ≤ b.size) :
    a = b ↔ a.extract 0 m = b.extract 0 m ∧ a.extract m a.size = b.extract m b.size := by
  -- the two parts make up the whole
  have hcut (c : ByteArray) (hc : m ≤ c.size) : c.extract 0 m ++ c.extract m c.size = c := by
    rw [ByteArray.extract_append_extract, Nat.zero_min, Nat.max_eq_right hc,
      ByteArray.extract_zero_size]
  constructor
  · intro h
    subst h
    exact ⟨rfl, rfl⟩
  · intro ⟨hfirst, hrest⟩
    rw [← hcut a ha, ← hcut b hb, hfirst, hrest]

/-- Byte strings of one size are equal if they agree word by word and behind the last word. -/
theorem agree_iff {a b : ByteArray} (h : a.size = b.size) : agree a b = true ↔ a = b := by
  rw [agree, Bool.and_eq_true, decide_eq_true_iff, decide_eq_true_iff]
  constructor
  · -- the words agree one by one, and with the rest behind them all bytes do
    intro ⟨hwords, hremainder⟩
    have hchunk (i : Nat) (hi : i < a.size / 4) : chunk a i = chunk b i := by
      have hlength : (words b).length = (words a).length := by simp [words, h]
      have heq := (hwords.eq_of_length hlength).symm
      rw [words, words, ← h, List.map_inj_left] at heq
      exact heq i (List.mem_range.2 hi)
    have hm : 4 * (a.size / 4) ≤ a.size := Nat.mul_div_le _ _
    refine (eq_iff_extract_eq hm (h ▸ hm)).2 ⟨?_, by rwa [remainder, remainder, ← h] at *⟩
    -- the part that is made of the words is compared byte by byte
    have hsize (c : ByteArray) (hc : a.size = c.size) :
        (c.extract 0 (4 * (a.size / 4))).size = 4 * (a.size / 4) := by
      rw [ByteArray.size_extract]
      omega
    apply ByteArray.ext_byteAt ((hsize a rfl).trans (hsize b h).symm)
    intro i hi
    rw [hsize a rfl] at hi
    -- the byte lies in word `i / 4`
    have hbyte := congrArg (·.byteAt (i % 4)) (hchunk (i / 4) (by omega))
    dsimp only [chunk] at hbyte
    rw [ByteArray.byteAt_extract (by omega), ByteArray.byteAt_extract (by omega),
      Nat.div_add_mod] at hbyte
    rwa [ByteArray.byteAt_extract (by omega), ByteArray.byteAt_extract (by omega), Nat.zero_add]
  · intro h
    subst h
    exact ⟨List.prefix_rfl, rfl⟩

/-! ## Whole blobs -/

section Blobs

variable {haystack needle : ByteArray} {start : Nat}

/-- A candidate is compared without a stop if the needle has room there. -/
theorem standsAt_eq {m : Nat} (h : haystack.size < 0x8000000000000000)
    (hfit : start + needle.size ≤ haystack.size) (hm : m ≤ needle.size) :
    standsAt haystack needle (needle.extract 0 m) (needle.extract m needle.size) start =
      some (ConfigArea.standsAt haystack needle start) := by
  have hstop : add start needle.size = some (start + needle.size) :=
    add_of_lt (by omega)
  have hslice : slice haystack start (start + needle.size) = some _ := slice_of_le (by omega) hfit
  have hstands := standsAt_iff_extract hfit
  -- what is compared is a part as long as the needle, which is cut where the needle is
  have hcandidate : (haystack.extract start (start + needle.size)).size = needle.size := by
    rw [ByteArray.size_extract]
    omega
  generalize haystack.extract start (start + needle.size) = candidate at *
  have hm' : m ≤ candidate.size := hcandidate ▸ hm
  have hfirst : (needle.extract 0 m).size = m := by
    rw [ByteArray.size_extract]
    omega
  have hsize : (candidate.extract m candidate.size).size = (needle.extract m needle.size).size := by
    rw [ByteArray.size_extract, ByteArray.size_extract, hcandidate]
  -- it is the needle if both parts are equal
  rw [eq_iff_extract_eq hm' hm, ← agree_iff hsize] at hstands
  simp only [standsAt, hstop, hslice, hfirst, slice_of_le (Nat.zero_le _) hm',
    slice_of_le hm' (Nat.le_refl _), Option.bind_eq_bind, Option.bind_some]
  split
  · rename_i heq
    exact congrArg some (Bool.eq_iff_iff.2 (by simp [hstands, heq]))
  · rename_i hne
    exact congrArg some (Bool.eq_iff_iff.2 (by simp [hstands, hne]))

/-- A search whose tests all go through is one for what they say. -/
theorem findM?_eq_some_find? {α : Type} {test : α → Option Bool} {p : α → Bool} {xs : List α}
    (h : ∀ x ∈ xs, test x = some (p x)) : xs.findM? test = some (xs.find? p) := by
  induction xs with
  | nil => rfl
  | cons x xs ih =>
    have ih := ih fun y hy => h y (List.mem_cons_of_mem _ hy)
    rw [List.findM?, h x List.mem_cons_self, List.find?_cons, ih]
    cases p x <;> rfl

/-- A search among the first numbers is one for the least index. -/
theorem find?_range {p : Nat → Bool} {n : Nat} : (List.range n).find? p = firstIndex p 0 n := by
  apply Option.ext
  intro i
  rw [List.find?_range_eq_some, firstIndex_eq_some_iff, List.mem_range]
  simp only [Bool.not_eq_true', Nat.zero_le, true_and, true_imp_iff]
  exact and_left_comm

/-- The search for a blob goes through. -/
theorem exactOccurrence_eq (h : haystack.size < 0x8000000000000000) :
    exactOccurrence haystack needle = some (exactOccurrence? haystack needle) := by
  rw [exactOccurrence, exactOccurrence?]
  split
  · rfl
  · rename_i hsize
    have hm : min needle.size 4 ≤ needle.size := Nat.min_le_left _ _
    -- at each candidate the needle has room
    have htest : ∀ start ∈ (List.range ((haystack.size - needle.size) / 4 + 1)).map (4 * ·),
        standsAt haystack needle (needle.extract 0 (min needle.size 4))
          (needle.extract (min needle.size 4) needle.size) start =
            some (ConfigArea.standsAt haystack needle start) := by
      intro start hstart
      obtain ⟨i, hi, rfl⟩ := List.mem_map.1 hstart
      have hi := List.mem_range.1 hi
      exact standsAt_eq h (by omega) hm
    simp only [splitAt_of_le hm, sub_of_le (show needle.size ≤ haystack.size by omega),
      Option.bind_eq_bind, Option.bind_some, findM?_eq_some_find? htest, List.find?_map,
      find?_range]
    rfl

end Blobs

/-! ## Device trees -/

/-- A word is stored as a number is if that number is its value. -/
theorem toBytes_eq_toBytes_encode_iff {w : Word} {v : UInt32} {order : ByteOrder} :
    w.toBytes = (Word.encode v order).toBytes ↔ w.value order = v := by
  constructor
  · intro h
    -- words with the same four bytes are the same
    have hw : w = Word.encode v order := by
      generalize Word.encode v order = w' at h ⊢
      cases w
      cases w'
      simpa [Word.toBytes] using h
    rw [hw, Word.value_encode]
  · intro h
    rw [← h, Word.encode_value]

/-- A search for a pattern goes through if its tests do. -/
theorem findPattern_eq {word : Nat → Word} {signature : UInt32} {test : Nat → Option Bool}
    {accept : Nat → Bool} {i count : Nat} (hlimit : 4 * (i + count) < 0x10000000000000000)
    (h : ∀ k, k < i + count → test (4 * k) = some (accept (4 * k))) :
    findPattern (Word.encode signature .big).toBytes test (cells word i count) i =
      some ((firstIndex (fun k => (word k).value .big == signature && accept (4 * k))
        i (i + count)).map (4 * ·)) := by
  -- Induction on the number of words that are left.
  induction count generalizing i with
  | zero => simp [findPattern, firstIndex, firstSome]
  | succ count ih =>
    have ih := ih (i := i + 1) (by omega) fun k hk => h k (by omega)
    have hoffset : mul i 4 = some (4 * i) := by rw [mul_of_lt (by omega), Nat.mul_comm]
    rw [cells_succ, findPattern, add_of_lt (by omega), firstIndex_of_lt (by omega),
      show i + (count + 1) = i + 1 + count by omega]
    simp only [toBytes_eq_toBytes_encode_iff, hoffset, h i (by omega), ih, Option.bind_eq_bind,
      Option.bind_some, Bool.and_eq_true, beq_iff_eq]
    -- the pattern occurs here and is tested, or the search goes on
    by_cases hword : (word i).value .big = signature
    · cases accept (4 * i) <;> simp [hword]
    · simp [hword]

/-- The sum of two numbers of 32 bits has room in 64. -/
theorem holds_eq (h : DeviceTree.Header) (offset size : UInt32) :
    holds h offset size = some (h.holds offset size) := by
  have hoffset := offset.toNat_lt
  have hsize := size.toNat_lt
  rw [holds, add_of_lt (by omega)]
  rfl

/-- The check of a header goes through. -/
theorem isPlausible_eq (h : DeviceTree.Header) (available : Nat) :
    isPlausible h available = some (h.isPlausible available) := by
  simp only [isPlausible, holds_eq, Option.bind_eq_bind, Option.bind_some]
  -- the same checks in the same order
  grind [DeviceTree.Header.isPlausible]

/-- A field of a header goes through as the number at its place. -/
theorem headerField_gives {b : ByteArray} (hb : b.size < 0x8000000000000000) {i : Nat}
    (hi : i < 10) :
    Gives (headerField b i) (b.readU32 (4 * i) .big) := by
  rw [headerField, ← readU32_eq hb, Nat.mul_comm]
  exact .lift (mul_of_lt (by omega)) (gives_except _)

/-- A header is read where there are enough bytes, and without a stop where there are not. -/
theorem readHeader_gives {b : ByteArray} (hb : b.size < 0x8000000000000000) :
    ∃ r, Gives (readHeader b) r ∧
      ∀ h, r = .ok h ↔ 40 ≤ b.size ∧ DeviceTree.headerAt b 0 = h := by
  have hfield (i : Nat) (hi : i < 10) := headerField_gives hb hi
  -- the ten fields are read one after the other
  refine ⟨_, (hfield 0 (by decide)).bind fun magic _ =>
    (hfield 1 (by decide)).bind fun totalSize _ =>
    (hfield 2 (by decide)).bind fun structOffset _ =>
    (hfield 3 (by decide)).bind fun stringsOffset _ =>
    (hfield 4 (by decide)).bind fun reserveMapOffset _ =>
    (hfield 5 (by decide)).bind fun version _ =>
    (hfield 6 (by decide)).bind fun lastCompatibleVersion _ =>
    (hfield 7 (by decide)).bind fun bootCpu _ =>
    (hfield 8 (by decide)).bind fun stringsSize _ =>
    (hfield 9 (by decide)).bind fun structSize _ => gives_pure _, fun h => ?_⟩
  simp only [bind_eq_ok, ByteArray.readU32_eq_ok_iff, and_assoc, exists_and_left, exists_eq_left',
    Except.ok.injEq, DeviceTree.headerAt, Nat.zero_add]
  -- the last field ends with the header, and the fields before it earlier
  grind

/-- A device tree is recognised, or not, without a stop. -/
theorem looksLikeDeviceTree_eq {b : ByteArray} (hb : b.size < 0x8000000000000000) :
    looksLikeDeviceTree b = some (DeviceTree.looksLikeDeviceTree b) := by
  obtain ⟨r, hgives, hr⟩ := readHeader_gives hb
  have hgives : (readHeader b).run = some r := hgives
  have hstarts := @DeviceTree.startsAt_iff b 0
  rw [Nat.zero_add, Nat.sub_zero] at hstarts
  rw [looksLikeDeviceTree, hgives, Option.bind_eq_bind, Option.bind_some,
    DeviceTree.looksLikeDeviceTree]
  cases r with
  | error e =>
    -- a header that cannot be read is not there
    have hlt : ¬40 ≤ b.size := by
      intro hle
      cases (hr _).2 ⟨hle, rfl⟩
    exact congrArg some (Bool.eq_false_iff.2 fun h => hlt (hstarts.1 h).1).symm
  | ok h =>
    obtain ⟨hle, rfl⟩ := (hr h).1 rfl
    -- one that is read has to be plausible
    have hplausible : DeviceTree.startsAt b 0 = (DeviceTree.headerAt b 0).isPlausible b.size :=
      Bool.eq_iff_iff.2 (hstarts.trans (and_iff_right hle))
    exact (isPlausible_eq _ _).trans (congrArg some hplausible.symm)

/-- The search for a device tree goes through. -/
theorem findDeviceTree_eq {haystack : ByteArray} (h : haystack.size < 0x8000000000000000) :
    findDeviceTree haystack = some (ConfigArea.findDeviceTree haystack) := by
  -- each test looks at what is left from a complete word on
  have htest : ∀ k, k < 0 + haystack.size / 4 →
      (do looksLikeDeviceTree (← slice haystack (4 * k) haystack.size)) =
        some (DeviceTree.startsAt haystack (4 * k)) := by
    intro k hk
    have hrest : (haystack.extract (4 * k) haystack.size).size < 0x8000000000000000 := by
      rw [ByteArray.size_extract]
      omega
    rw [slice_of_le (by omega) (Nat.le_refl _), DeviceTree.startsAt_eq]
    exact looksLikeDeviceTree_eq hrest
  rw [findDeviceTree, words_eq_cells, findPattern_eq (by omega) htest,
    ConfigArea.findDeviceTree, findSignature, found_searchSignature]

end ConfigArea.Guarded
