import ConfigArea.Proofs.Location.Search

/-!
# How far a device tree extends

The header of a device tree declares the size of the whole blob and where its blocks lie. A header
that is accepted declares no block that leaves the blob, whatever its words are: offsets and sizes
are added as numbers and do not wrap around. What follows the header is not looked at, so a blob is
accepted exactly as long as it is all there.

## Key results

- `Header.selfContained_of_isPlausible`: the blocks of a plausible header lie inside its blob
- `looksLikeDeviceTree_iff_of_agree`, `looksLikeDeviceTree_extract_iff`: other bytes with that
  header are accepted exactly if there are enough of them
- `selfContained_of_looksLikeDeviceTree`: what an accepted device tree says about itself
-/

namespace ConfigArea.DeviceTree

/-- The header describes a blob that holds its header and its blocks: each starts inside it, and
ends inside it if its size is known, which for the strings is so from version 3 on and for the
structure from version 17 on. -/
structure Header.SelfContained (h : Header) : Prop where
  header_le : 40 ≤ h.totalSize.toNat
  struct_le : h.structOffset.toNat ≤ h.totalSize.toNat
  strings_le : h.stringsOffset.toNat ≤ h.totalSize.toNat
  reserveMap_le : h.reserveMapOffset.toNat ≤ h.totalSize.toNat
  strings_stop_le : 3 ≤ h.version.toNat →
    h.stringsOffset.toNat + h.stringsSize.toNat ≤ h.totalSize.toNat
  struct_stop_le : 17 ≤ h.version.toNat →
    h.structOffset.toNat + h.structSize.toNat ≤ h.totalSize.toNat

/-- A plausible header is that of a blob which is there and holds its blocks. -/
theorem Header.selfContained_of_isPlausible {h : Header} {available : Nat}
    (hpass : h.isPlausible available = true) :
    h.totalSize.toNat ≤ available ∧ h.SelfContained := by
  obtain ⟨-, ⟨htotal, hthere⟩, -, ⟨-, hreserve, hstruct, hstrings⟩, hstructStop, hstringsStop⟩ :=
    isPlausible_iff.1 hpass
  exact ⟨hthere, htotal, hstruct, hstrings, hreserve, hstringsStop, hstructStop⟩

variable {b c : ByteArray} {header : Header}

/-- A header is read off the first forty bytes, if there are as many. -/
theorem read?_eq_some_iff :
    Header.read? b = some header ↔ 40 ≤ b.size ∧ header = headerAt b 0 := by
  rw [Header.read?]
  split
  · rename_i h
    simp only [h, true_and, Option.some.injEq, eq_comm (a := header), headerAt, Nat.zero_add]
  · rename_i h
    simp only [h, reduceCtorEq, false_and]

/-- What looks like a device tree starts with a header that is plausible for as many bytes as there
are. -/
theorem looksLikeDeviceTree_iff :
    looksLikeDeviceTree b = true ↔
      ∃ header, Header.read? b = some header ∧ header.isPlausible b.size = true := by
  simp only [looksLikeDeviceTree, startsAt_iff, read?_eq_some_iff, Nat.zero_add, Nat.sub_zero,
    and_assoc, exists_and_left, exists_eq_left]

/-- Bytes that start with the header of a device tree look like one exactly if the blob can be all
there. -/
theorem looksLikeDeviceTree_iff_of_agree (h : looksLikeDeviceTree b = true)
    (hread : Header.read? b = some header) (hagree : c.extract 0 40 = b.extract 0 40) :
    looksLikeDeviceTree c = true ↔ header.totalSize.toNat ≤ c.size := by
  obtain ⟨-, rfl⟩ := read?_eq_some_iff.1 hread
  -- the header is read off its forty bytes alone
  have hbytes (i : Nat) (hi : i < 40) : b.byteAt (0 + i) = c.byteAt (0 + i) := by
    rw [Nat.zero_add, ByteArray.byteAt_eq_of_extract_eq hagree hi]
  rw [looksLikeDeviceTree, startsAt_iff_of_agree h hbytes, Nat.zero_add]
  rfl

/-- The first bytes of a device tree look like one exactly if they reach to the end of its blob. -/
theorem looksLikeDeviceTree_extract_iff (h : looksLikeDeviceTree b = true)
    (hread : Header.read? b = some header) {n : Nat} (hn : n ≤ b.size) :
    looksLikeDeviceTree (b.extract 0 n) = true ↔ header.totalSize.toNat ≤ n := by
  have hsize : (b.extract 0 n).size = n := by
    rw [ByteArray.size_extract]
    omega
  by_cases hheader : 40 ≤ n
  · -- the header is left, and the first forty bytes are the same
    rw [looksLikeDeviceTree_iff_of_agree h hread, hsize]
    rw [ByteArray.extract_extract, Nat.zero_add, Nat.zero_add, Nat.min_eq_left hheader]
  · -- not even the header is left
    obtain ⟨header', hread', hpass⟩ := looksLikeDeviceTree_iff.1 h
    obtain rfl : header' = header := Option.some.inj (hread'.symm.trans hread)
    have htotal := (Header.selfContained_of_isPlausible hpass).2.header_le
    refine iff_of_false (fun hcut => ?_) (by omega)
    obtain ⟨_, hreadCut, -⟩ := looksLikeDeviceTree_iff.1 hcut
    have := (read?_eq_some_iff.1 hreadCut).1
    omega

/-- What looks like a device tree has a header that tells how far the blob extends: it is all there,
and no block leaves it. Any bytes with the same header are accepted exactly if there are as many as
the blob has, so the blob alone is accepted, and nothing shorter. -/
theorem selfContained_of_looksLikeDeviceTree (h : looksLikeDeviceTree b = true) :
    ∃ header, Header.read? b = some header ∧ header.totalSize.toNat ≤ b.size ∧
      header.SelfContained ∧
      (∀ c : ByteArray, c.extract 0 40 = b.extract 0 40 →
        (looksLikeDeviceTree c = true ↔ header.totalSize.toNat ≤ c.size)) ∧
      ∀ n, n ≤ b.size →
        (looksLikeDeviceTree (b.extract 0 n) = true ↔ header.totalSize.toNat ≤ n) := by
  obtain ⟨header, hread, hpass⟩ := looksLikeDeviceTree_iff.1 h
  -- what its header says, and what that says of other bytes
  obtain ⟨hthere, hcontained⟩ := Header.selfContained_of_isPlausible hpass
  exact ⟨header, hread, hthere, hcontained,
    fun c hagree => looksLikeDeviceTree_iff_of_agree h hread hagree,
    fun n hn => looksLikeDeviceTree_extract_iff h hread hn⟩

/-- A device tree of 48 bytes whose blocks have four bytes each, and two bytes behind it. -/
def treeWithTail : ByteArray :=
  ⟨#[0xd0, 0x0d, 0xfe, 0xed, 0, 0, 0, 48, 0, 0, 0, 40, 0, 0, 0, 44, 0, 0, 0, 40, 0, 0, 0, 17,
    0, 0, 0, 16, 0, 0, 0, 0, 0, 0, 0, 4, 0, 0, 0, 4, 0, 0, 0, 9, 97, 0, 98, 0, 7, 9]⟩

/-- The device tree is accepted with its tail, and down to the end of its blob. -/
theorem selfContained_treeWithTail :
    looksLikeDeviceTree treeWithTail = true ∧
      (Header.mk 0xd00dfeed 48 40 44 40 17 16 0 4 4).SelfContained ∧
      looksLikeDeviceTree (treeWithTail.extract 0 48) = true ∧
      ¬looksLikeDeviceTree (treeWithTail.extract 0 47) = true := by
  have hlooks : looksLikeDeviceTree treeWithTail = true := by decide
  obtain ⟨header, hread, -, hcontained, -, hcut⟩ := selfContained_of_looksLikeDeviceTree hlooks
  -- the header is the one that is named here
  obtain rfl : Header.mk 0xd00dfeed 48 40 44 40 17 16 0 4 4 = header := Option.some.inj hread
  refine ⟨hlooks, hcontained, (hcut 48 (by decide)).2 (by decide), ?_⟩
  rw [hcut 47 (by decide)]
  decide

end ConfigArea.DeviceTree
