import ConfigArea.Proofs.Guarded.Occurrence

/-!
# First occurrences

Both searches for a pattern are told by the set of the offsets at which it occurs. The search for a
blob finds the least of them, and so does the one that compares word by word. The search for a
signature tests them in order and stops at the first that passes, and since every device tree begins
with the signature that is searched for, testing only its occurrences passes over no device tree.

## Key results

- `exactOccurrence_eq_some_iff_isLeast`: a blob is found at the least aligned offset of a part that
  is the blob
- `runs_searchSignature`, `findSignature_runs`: which occurrences of a signature are tested, and
  which one is found
- `findDeviceTree_eq_some_iff_isLeast`: a device tree is found at the least aligned offset from
  which the haystack looks like one
-/

namespace ConfigArea

/-! ## Least offsets -/

/-- A number is the least of a set if it is in it, and no smaller number is. -/
theorem isLeast_iff_forall_lt {s : Set Nat} {q : Nat} :
    IsLeast s q ↔ q ∈ s ∧ ∀ r, r < q → r ∉ s := by
  refine and_congr_right fun _ => ?_
  constructor
  · intro h r hlt hr
    exact Nat.not_le.2 hlt (h hr)
  · intro h r hr
    by_contra hlt
    exact h r (Nat.not_le.1 hlt) hr

/-- What is the least element of a set, or nothing, is nothing exactly if the set is empty. -/
theorem eq_none_iff_eq_empty {s : Set Nat} {o : Option Nat} (h : ∀ q, o = some q ↔ IsLeast s q) :
    o = none ↔ s = ∅ := by
  constructor
  · intro hnone
    by_contra hne
    classical
    -- a least element would be what it is
    have hleast := (Set.nonempty_iff_ne_empty.2 hne).isLeast_natFind
    rw [← h, hnone] at hleast
    cases hleast
  · intro hempty
    cases o with
    | none => rfl
    | some q =>
      have hmem := ((h q).1 rfl).1
      rw [hempty] at hmem
      exact absurd hmem (Set.notMem_empty q)

/-! ## Whole blobs -/

/-- The aligned offsets at which `needle` is a part of `haystack`. An empty needle has none. -/
def occurrences (haystack needle : ByteArray) : Set Nat :=
  {q | 0 < needle.size ∧ q % 4 = 0 ∧ q + needle.size ≤ haystack.size ∧
    haystack.extract q (q + needle.size) = needle}

/-- A blob occurs at the aligned offsets at which it has room and stands. -/
theorem mem_occurrences_iff {haystack needle : ByteArray} {q : Nat} :
    q ∈ occurrences haystack needle ↔ 0 < needle.size ∧ q % 4 = 0 ∧
      q + needle.size ≤ haystack.size ∧ standsAt haystack needle q = true := by
  refine and_congr_right fun _ => and_congr_right fun _ => and_congr_right fun hle => ?_
  exact (standsAt_iff_extract hle).symm

/-- A blob is found at its first occurrence. -/
theorem exactOccurrence?_eq_some_iff_occurrences {haystack needle : ByteArray} {q : Nat} :
    exactOccurrence? haystack needle = some q ↔ IsLeast (occurrences haystack needle) q := by
  rw [exactOccurrence?_eq_some_iff, isLeast_iff_forall_lt, mem_occurrences_iff]
  constructor
  · intro h
    obtain ⟨hpos, hq, hle, hstands, hmin⟩ := h
    refine ⟨⟨hpos, hq, hle, hstands⟩, fun r hlt hr => ?_⟩
    obtain ⟨-, hr, -, hstands'⟩ := mem_occurrences_iff.1 hr
    exact Bool.eq_false_iff.1 (hmin r hr hlt) hstands'
  · intro h
    obtain ⟨⟨hpos, hq, hle, hstands⟩, hmin⟩ := h
    refine ⟨hpos, hq, hle, hstands, fun r hr hlt => Bool.eq_false_iff.2 fun hstands' => ?_⟩
    -- the needle has room before an offset at which it has
    exact hmin r hlt (mem_occurrences_iff.2 ⟨hpos, hr, by omega, hstands'⟩)

/-- The search for a blob is the plain search for a part: it finds the least offset, of those that
are aligned, at which a part of the haystack is the needle byte for byte, and nothing if there is
none. The search that compares the first word, then word by word and then what is behind the last
word goes through and finds the same. -/
theorem exactOccurrence_eq_some_iff_isLeast (haystack needle : ByteArray) :
    (∀ q, exactOccurrence? haystack needle = some q ↔ IsLeast (occurrences haystack needle) q) ∧
      (exactOccurrence? haystack needle = none ↔ occurrences haystack needle = ∅) ∧
      (haystack.size < 0x8000000000000000 →
        Guarded.exactOccurrence haystack needle = some (exactOccurrence? haystack needle)) := by
  have hsome (q : Nat) := @exactOccurrence?_eq_some_iff_occurrences haystack needle q
  exact ⟨hsome, eq_none_iff_eq_empty hsome, Guarded.exactOccurrence_eq⟩

/-- Four ones and a two at offset 1, which is not aligned, and at offset 12, the last at which they
have room. What starts at offset 8 agrees with them in the first word and not behind it. -/
def haystackWithOverlap : ByteArray :=
  ⟨#[7, 1, 1, 1, 1, 2, 0, 0, 1, 1, 1, 1, 1, 1, 1, 1, 2]⟩

/-- Only the occurrence that is aligned counts, and both searches find it. -/
theorem exactOccurrence_haystackWithOverlap :
    IsLeast (occurrences haystackWithOverlap ⟨#[1, 1, 1, 1, 2]⟩) 12 ∧
      Guarded.exactOccurrence haystackWithOverlap ⟨#[1, 1, 1, 1, 2]⟩ = some (some 12) := by
  have hfind : exactOccurrence? haystackWithOverlap ⟨#[1, 1, 1, 1, 2]⟩ = some 12 := rfl
  obtain ⟨hsome, -, hguarded⟩ :=
    exactOccurrence_eq_some_iff_isLeast haystackWithOverlap ⟨#[1, 1, 1, 1, 2]⟩
  rw [hfind] at hguarded
  exact ⟨(hsome 12).1 hfind, hguarded (by decide)⟩

/-! ## Signatures -/

/-- What a search does that tests `hits` in order until one is accepted. -/
structure Runs (hits : Set Nat) (accept : Nat → Bool) (r : SignatureSearch) : Prop where
  /-- the tests are made in order, and no offset is tested twice -/
  ordered : r.tested.Pairwise (· < ·)
  /-- a hit is tested exactly if all hits before it are rejected -/
  mem_tested_iff : ∀ q, q ∈ r.tested ↔ q ∈ hits ∧ ∀ p ∈ hits, p < q → accept p = false
  /-- the first hit that is accepted is found -/
  found_eq_some_iff : ∀ q, r.found = some q ↔ IsLeast {p | p ∈ hits ∧ accept p = true} q

namespace Runs

variable {hits : Set Nat} {accept : Nat → Bool} {r : SignatureSearch} {q : Nat}

/-- A search without hits tests nothing and finds nothing. -/
theorem empty : Runs ∅ accept ⟨none, []⟩ where
  ordered := List.Pairwise.nil
  mem_tested_iff := by simp
  found_eq_some_iff := by
    intro p
    simp only [reduceCtorEq, false_iff]
    intro h
    exact h.1.1

/-- A hit before all others that is accepted ends the search. -/
theorem accepted (hlt : ∀ p ∈ hits, q < p) (haccept : accept q = true) :
    Runs (insert q hits) accept ⟨some q, [q]⟩ where
  ordered := List.pairwise_singleton _ _
  mem_tested_iff := by
    intro p
    -- behind the hit that is accepted there is none without an accepted one before it
    simp only [List.mem_singleton, Set.mem_insert_iff, forall_eq_or_imp]
    grind
  found_eq_some_iff := by
    -- the hit is the first of all, and it is accepted
    have hleast : IsLeast {p | p ∈ insert q hits ∧ accept p = true} q := by
      refine ⟨⟨Set.mem_insert q hits, haccept⟩, fun p hp => ?_⟩
      rcases Set.mem_insert_iff.1 hp.1 with heq | hmem
      · exact Nat.le_of_eq heq.symm
      · exact Nat.le_of_lt (hlt p hmem)
    intro p
    constructor
    · intro h
      exact Option.some.inj h ▸ hleast
    · intro h
      exact congrArg some (hleast.unique h)

/-- A hit before all others that is rejected is tested, and the search goes on behind it. -/
theorem rejected (h : Runs hits accept r) (hlt : ∀ p ∈ hits, q < p) (hreject : accept q = false) :
    Runs (insert q hits) accept { r with tested := q :: r.tested } where
  ordered := by
    refine List.pairwise_cons.2 ⟨fun p hp => ?_, h.ordered⟩
    exact hlt p ((h.mem_tested_iff p).1 hp).1
  mem_tested_iff := by
    -- what is tested is the hit itself, and what is tested behind it
    intro p
    simp only [List.mem_cons, h.mem_tested_iff, Set.mem_insert_iff, forall_eq_or_imp]
    grind
  found_eq_some_iff := by
    -- the hit that is rejected is not among those that are accepted
    have hset : {p | p ∈ insert q hits ∧ accept p = true} =
        {p | p ∈ hits ∧ accept p = true} := by
      ext p
      constructor
      · intro hp
        obtain ⟨hmem, haccept⟩ := hp
        rcases Set.mem_insert_iff.1 hmem with heq | hmem
        · rw [heq, hreject] at haccept
          cases haccept
        · exact ⟨hmem, haccept⟩
      · intro hp
        exact ⟨Set.mem_insert_of_mem q hp.1, hp.2⟩
    rw [hset]
    exact h.found_eq_some_iff

/-- Nothing is found exactly if every hit is rejected. -/
theorem found_eq_none_iff (h : Runs hits accept r) :
    r.found = none ↔ ∀ q ∈ hits, accept q = false := by
  rw [eq_none_iff_eq_empty h.found_eq_some_iff, Set.eq_empty_iff_forall_notMem]
  simp

end Runs

variable {haystack : ByteArray} {signature : UInt32} {accept : Nat → Bool}

/-- The offsets of the `count` words from word `i` on that are the signature. -/
def hitsFrom (haystack : ByteArray) (signature : UInt32) (i count : Nat) : Set Nat :=
  {q | ∃ k, i ≤ k ∧ k < i + count ∧ q = 4 * k ∧ (haystack.wordAt q).value .big = signature}

/-- Word `i` is a hit of its own, if it is the signature; the others are hits behind it. -/
theorem hitsFrom_succ {i count : Nat} :
    hitsFrom haystack signature i (count + 1) =
      if (haystack.wordAt (4 * i)).value .big = signature then
        insert (4 * i) (hitsFrom haystack signature (i + 1) count)
      else hitsFrom haystack signature (i + 1) count := by
  ext q
  -- a hit is at word `i` or at a later one
  have hstep : q ∈ hitsFrom haystack signature i (count + 1) ↔
      q = 4 * i ∧ (haystack.wordAt q).value .big = signature ∨
        q ∈ hitsFrom haystack signature (i + 1) count := by
    constructor
    · intro h
      obtain ⟨k, hle, hlt, hq, hword⟩ := h
      rcases Nat.lt_or_eq_of_le hle with hlt' | heq
      · exact .inr ⟨k, hlt', by omega, hq, hword⟩
      · exact .inl ⟨heq ▸ hq, hword⟩
    · intro h
      rcases h with ⟨hq, hword⟩ | ⟨k, hle, hlt, hq, hword⟩
      · exact ⟨i, Nat.le_refl i, by omega, hq, hword⟩
      · exact ⟨k, by omega, by omega, hq, hword⟩
  -- the first offset is added exactly if its word is the signature
  rw [hstep]
  split
  · rename_i hword
    rw [Set.mem_insert_iff]
    exact or_congr_left (and_iff_left_of_imp fun hq => hq ▸ hword)
  · rename_i hword
    exact or_iff_right fun hq => hword (hq.1 ▸ hq.2)

/-- The search tests the words that are left and are the signature. -/
theorem runs_searchSignature {i count : Nat} :
    Runs (hitsFrom haystack signature i count) accept
      (searchSignature haystack signature accept i count) := by
  -- Induction on the number of words left: the hits behind word `i` all lie behind it.
  induction count generalizing i with
  | zero =>
    have hnone : hitsFrom haystack signature i 0 = ∅ := by
      apply Set.eq_empty_of_forall_notMem
      intro q h
      obtain ⟨k, hle, hlt, -⟩ := h
      omega
    rw [hnone]
    exact .empty
  | succ count ih =>
    have hbehind : ∀ p ∈ hitsFrom haystack signature (i + 1) count, 4 * i < p := by
      intro p h
      obtain ⟨k, hle, -, hp, -⟩ := h
      omega
    rw [searchSignature, hitsFrom_succ]
    split
    · -- word `i` is the signature, and the test decides whether the search goes on
      split
      · rename_i haccept
        exact .accepted hbehind haccept
      · rename_i hreject
        exact ih.rejected hbehind (Bool.eq_false_iff.2 hreject)
    · -- it is not, so it is no hit
      exact ih

/-- The signature occurs where a complete word is it, in big-endian order. -/
theorem mem_occurrences_encode_iff {q : Nat} :
    q ∈ occurrences haystack (Word.encode signature .big).toBytes ↔
      q % 4 = 0 ∧ q + 4 ≤ haystack.size ∧ (haystack.wordAt q).value .big = signature := by
  -- four bytes at an aligned offset are those of a complete word
  have hpart (hq : q % 4 = 0) (hle : q + 4 ≤ haystack.size) :
      haystack.extract q (q + 4) = (Word.encode signature .big).toBytes ↔
        (haystack.wordAt q).value .big = signature := by
    obtain ⟨i, rfl⟩ : ∃ i, q = 4 * i := ⟨q / 4, by omega⟩
    rw [← Guarded.toBytes_eq_toBytes_encode_iff, ← Guarded.chunk_eq_toBytes hle, Guarded.chunk]
  constructor
  · intro h
    obtain ⟨-, hq, hle, h⟩ := h
    exact ⟨hq, hle, (hpart hq hle).1 h⟩
  · intro h
    obtain ⟨hq, hle, hword⟩ := h
    exact ⟨Nat.zero_lt_succ 3, hq, hle, (hpart hq hle).2 hword⟩

/-- The hits among all complete words are the occurrences of the signature. -/
theorem hitsFrom_eq_occurrences :
    hitsFrom haystack signature 0 (haystack.size / 4) =
      occurrences haystack (Word.encode signature .big).toBytes := by
  ext q
  rw [mem_occurrences_encode_iff]
  constructor
  · intro h
    -- a word ends inside exactly if it is one of the complete ones
    obtain ⟨k, -, hlt, rfl, hword⟩ := h
    exact ⟨by omega, by omega, hword⟩
  · intro h
    obtain ⟨hq, hle, hword⟩ := h
    exact ⟨q / 4, Nat.zero_le _, by omega, by omega, hword⟩

/-- The search for a signature tests its occurrences. -/
theorem runs_findSignature :
    Runs (occurrences haystack (Word.encode signature .big).toBytes) accept
      (findSignature haystack signature accept) := by
  rw [← hitsFrom_eq_occurrences]
  exact runs_searchSignature

/-- The search asks for nothing but the offsets that it notes as tested. -/
theorem searchSignature_congr {accept' : Nat → Bool} {i count : Nat}
    (h : ∀ q ∈ (searchSignature haystack signature accept i count).tested, accept' q = accept q) :
    searchSignature haystack signature accept' i count =
      searchSignature haystack signature accept i count := by
  -- Induction on the number of words left: a word is tested, and noted, exactly if it is the
  -- signature.
  induction count generalizing i with
  | zero => rfl
  | succ count ih =>
    rw [searchSignature] at h ⊢
    rw [searchSignature]
    by_cases hword : (haystack.wordAt (4 * i)).value .big = signature
    · by_cases haccept : accept (4 * i) = true
      · -- tested and accepted, with nothing behind it
        simp only [hword, haccept, if_true, List.mem_singleton, forall_eq] at h ⊢
        simp only [h, if_true]
      · -- tested and rejected, with the tests behind it
        simp only [hword, haccept, if_true, Bool.false_eq_true, if_false, List.mem_cons,
          forall_eq_or_imp] at h ⊢
        simp only [h.1, Bool.false_eq_true, if_false, ih h.2]
    · -- not tested
      simp only [hword, if_false] at h ⊢
      exact ih h

/-- A search that accepts every occurrence of a signature is the search for its bytes. -/
theorem found_findSignature_true :
    (findSignature haystack signature fun _ => true).found =
      exactOccurrence? haystack (Word.encode signature .big).toBytes := by
  apply Option.ext
  intro q
  rw [runs_findSignature.found_eq_some_iff, exactOccurrence?_eq_some_iff_occurrences]
  simp only [and_true]
  rfl

/-- The search for a signature tests its occurrences, the aligned offsets at which a complete word
is the signature in big-endian order: in increasing order and each once, up to the first that is
accepted and none behind it. That one is found, or nothing if all are rejected, and what a test
would say of any other offset has no influence. If all are accepted, what is found is what the
search for the four bytes of the signature finds. -/
theorem findSignature_runs (haystack : ByteArray) (signature : UInt32) (accept : Nat → Bool) :
    Runs (occurrences haystack (Word.encode signature .big).toBytes) accept
        (findSignature haystack signature accept) ∧
      ((findSignature haystack signature accept).found = none ↔
        ∀ q ∈ occurrences haystack (Word.encode signature .big).toBytes, accept q = false) ∧
      (∀ accept', (∀ q ∈ (findSignature haystack signature accept).tested,
          accept' q = accept q) →
        findSignature haystack signature accept' = findSignature haystack signature accept) ∧
      (findSignature haystack signature fun _ => true).found =
        exactOccurrence? haystack (Word.encode signature .big).toBytes :=
  ⟨runs_findSignature, runs_findSignature.found_eq_none_iff, fun _ => searchSignature_congr,
    found_findSignature_true⟩

/-- A word, then the number 9 in each of three words, and half a word. -/
def haystackWithNines : ByteArray :=
  ⟨#[1, 1, 1, 1, 0, 0, 0, 9, 0, 0, 0, 9, 0, 0, 0, 9, 0, 0]⟩

/-- Of the three occurrences the first is rejected and the second accepted. -/
theorem findSignature_haystackWithNines :
    (findSignature haystackWithNines 9 (· == 8)).tested = [4, 8] ∧
      IsLeast {q | q ∈ occurrences haystackWithNines (Word.encode 9 .big).toBytes ∧
        (q == 8) = true} 8 ∧
      findSignature haystackWithNines 9 (4 < ·) = ⟨some 8, [4, 8]⟩ := by
  have hsearch : findSignature haystackWithNines 9 (· == 8) = ⟨some 8, [4, 8]⟩ := rfl
  obtain ⟨hruns, -, hcongr, -⟩ := findSignature_runs haystackWithNines 9 (· == 8)
  -- another test that says the same of the offsets 4 and 8
  have hsame := hcongr (4 < ·)
  rw [hsearch] at hruns hsame
  exact ⟨by rw [hsearch], (hruns.found_eq_some_iff 8).1 rfl, hsame (by decide)⟩

/-! ## Device trees -/

namespace DeviceTree

/-- A header is read off what is left from its offset on. -/
theorem read?_extract {b : ByteArray} {p : Nat} (h : p + 40 ≤ b.size) :
    Header.read? (b.extract p b.size) = some (headerAt b p) := by
  have hsize : 40 ≤ (b.extract p b.size).size := by
    rw [ByteArray.size_extract]
    omega
  have hheader : headerAt (b.extract p b.size) 0 = headerAt b p := by
    apply headerAt_congr
    intro i hi
    rw [Nat.zero_add, ByteArray.byteAt_extract (by omega)]
  rw [Header.read?, if_pos hsize, ← hheader]
  simp only [headerAt, Nat.zero_add]

end DeviceTree

/-- The aligned offsets from which `b` looks like a device tree. -/
def deviceTreeStarts (b : ByteArray) : Set Nat :=
  {q | q % 4 = 0 ∧ q < b.size ∧ DeviceTree.looksLikeDeviceTree (b.extract q b.size) = true}

/-- The haystack looks like a device tree from the aligned offsets at which one starts. -/
theorem mem_deviceTreeStarts_iff {b : ByteArray} {q : Nat} :
    q ∈ deviceTreeStarts b ↔ q % 4 = 0 ∧ DeviceTree.startsAt b q = true := by
  rw [DeviceTree.startsAt_eq]
  constructor
  · intro h
    exact ⟨h.1, h.2.2⟩
  · intro h
    -- a header needs room
    have hle := (DeviceTree.startsAt_iff.1 (DeviceTree.startsAt_eq.trans h.2)).1
    exact ⟨h.1, by omega, h.2⟩

/-- A device tree is found at the first aligned offset at which one starts. -/
theorem findDeviceTree_eq_some_iff_starts {b : ByteArray} {q : Nat} :
    findDeviceTree b = some q ↔ IsLeast (deviceTreeStarts b) q := by
  rw [findDeviceTree_eq_some_iff, isLeast_iff_forall_lt, mem_deviceTreeStarts_iff, ← and_assoc]
  refine and_congr_right fun _ => forall_congr' fun r => ?_
  rw [mem_deviceTreeStarts_iff, not_and, Bool.not_eq_true]
  exact imp.swap

/-- Although only the words with the magic number are tested, no device tree is lost: one is found
at the least aligned offset from which the haystack looks like a device tree, and nothing if there
is none. The blob that the header found declares lies inside the haystack and holds its header. -/
theorem findDeviceTree_eq_some_iff_isLeast (haystack : ByteArray) :
    (∀ q, findDeviceTree haystack = some q ↔ IsLeast (deviceTreeStarts haystack) q) ∧
      (findDeviceTree haystack = none ↔ deviceTreeStarts haystack = ∅) ∧
      ∀ q, findDeviceTree haystack = some q →
        ∃ header, DeviceTree.Header.read? (haystack.extract q haystack.size) = some header ∧
          40 ≤ header.totalSize.toNat ∧ q + header.totalSize.toNat ≤ haystack.size := by
  have hsome (q : Nat) := @findDeviceTree_eq_some_iff_starts haystack q
  refine ⟨hsome, eq_none_iff_eq_empty hsome, fun q h => ?_⟩
  obtain ⟨-, hstarts, -⟩ := findDeviceTree_eq_some_iff.1 h
  -- the header found is plausible, and so is the size that it declares
  obtain ⟨-, htotal, hthere⟩ := DeviceTree.bounds_of_startsAt hstarts
  have hle := (DeviceTree.startsAt_iff.1 hstarts).1
  exact ⟨DeviceTree.headerAt haystack q, DeviceTree.read?_extract hle, htotal, hthere⟩

/-- The magic number, then a header of forty bytes that begins with it, and half a word. -/
def haystackWithDecoy : ByteArray :=
  ⟨#[0xd0, 0x0d, 0xfe, 0xed, 0xd0, 0x0d, 0xfe, 0xed, 0, 0, 0, 40, 0, 0, 0, 40, 0, 0, 0, 40,
    0, 0, 0, 40, 0, 0, 0, 2, 0, 0, 0, 1, 0, 0, 0, 0, 0, 0, 0, 0, 0, 0, 0, 0, 0xd0, 0x0d]⟩

/-- The magic number by itself is passed over, and the device tree behind it is found. -/
theorem findDeviceTree_haystackWithDecoy :
    IsLeast (deviceTreeStarts haystackWithDecoy) 4 ∧
      ∃ header, DeviceTree.Header.read? (haystackWithDecoy.extract 4 46) = some header ∧
        40 ≤ header.totalSize.toNat ∧ 4 + header.totalSize.toNat ≤ 46 := by
  have hfind : findDeviceTree haystackWithDecoy = some 4 := by decide
  obtain ⟨hsome, -, hblob⟩ := findDeviceTree_eq_some_iff_isLeast haystackWithDecoy
  exact ⟨(hsome 4).1 hfind, hblob 4 hfind⟩

end ConfigArea
