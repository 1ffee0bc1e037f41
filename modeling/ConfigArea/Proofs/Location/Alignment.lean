import ConfigArea.Proofs.Analysis.Prepending
import ConfigArea.Proofs.Settings.Json
import Mathlib.Data.Nat.Bitwise
import Mathlib.Data.Nat.Prime.Basic

/-!
# The alignment of a found area

The page of the anchor is its offset without the bits of `alignment - 1`, and the pages before it
are a whole number of alignments away. So a found area is aligned exactly if the page of its anchor
is. For a power of two every page is. For any other alignment some pages are not: the bits that are
taken away are not those of the remainder, and no setting is refused for it.

## Key results

- `dvd_areaOffset_iff`: going back keeps the remainder of the first page
- `findArea_behind_zeros`: the bare area is found at every page that it can be put at
- `findArea_aligned`: found areas are aligned if the alignment is a power of two, and for no other
  alignment are all of them
-/

namespace ConfigArea

/-! ## Pages -/

/-- No bit is taken away from a power of two that is not smaller than the alignment. -/
theorem alignDown_two_pow {k alignment : Nat} (h : alignment ≤ 2 ^ k) :
    alignDown (2 ^ k) alignment = 2 ^ k := by
  have hlt : alignment - 1 < 2 ^ k := by
    have := Nat.two_pow_pos k
    omega
  rw [alignDown, Nat.two_pow_and, Nat.testBit_lt_two_pow hlt, Bool.toNat_false, Nat.mul_zero,
    Nat.sub_zero]

/-- A power of two is a multiple of powers of two only. -/
theorem not_dvd_two_pow {alignment : Nat} (h : ¬alignment.isPowerOfTwo) (k : Nat) :
    ¬alignment ∣ 2 ^ k := by
  intro hdvd
  obtain ⟨j, -, hj⟩ := (Nat.dvd_prime_pow Nat.prime_two).1 hdvd
  exact h ⟨j, hj⟩

/-- An alignment that is no power of two leaves the next power of two as it is, which is no multiple
of it. -/
theorem exists_not_dvd_alignDown {alignment : Nat} (hpos : 1 ≤ alignment)
    (h : ¬alignment.isPowerOfTwo) :
    ∃ n, n % 4 = 0 ∧ n < 2 * alignment ∧ alignDown n alignment = n ∧ ¬alignment ∣ n := by
  -- the next power of two is less than twice as large
  have hle : 2 ^ alignment.log2 ≤ alignment := Nat.log2_self_le (by omega)
  have hlt : alignment < 2 ^ (alignment.log2 + 1) := Nat.lt_log2_self
  have hne : alignment ≠ 2 ^ alignment.log2 := fun heq => h ⟨_, heq⟩
  refine ⟨2 ^ (alignment.log2 + 1), ?_, ?_, alignDown_two_pow (Nat.le_of_lt hlt),
    not_dvd_two_pow h _⟩
  · -- 1 is a power of two, so the alignment has two bits at least
    obtain ⟨j, hj⟩ : ∃ j, alignment.log2 = j + 1 := by
      refine Nat.exists_eq_succ_of_ne_zero fun hzero => hne ?_
      rw [hzero] at hlt ⊢
      omega
    rw [hj, Nat.pow_succ, Nat.pow_succ, Nat.mul_assoc, Nat.mul_mod_left]
  · rw [Nat.pow_succ]
    omega

variable {image : ByteArray} {dtb : Option ByteArray} {settings : Settings} {location : Location}

/-- Going back from page to page, the search keeps what the page of the anchor is above a multiple
of the alignment. -/
theorem dvd_areaOffset_iff (hpos : 1 ≤ settings.locator.areaAlignment.toNat)
    (h : findArea image dtb settings = some location) :
    settings.locator.areaAlignment.toNat ∣ location.areaOffset ↔
      settings.locator.areaAlignment.toNat ∣ pageOf settings.locator location.anchor.offset := by
  obtain ⟨anchor, -, hsearch⟩ := findArea_eq_some_iff.1 h
  obtain ⟨rfl, back, -, hstart, -⟩ := searchPages_eq_some_iff.1 hsearch
  have hstep : pageStep settings.locator = settings.locator.areaAlignment.toNat :=
    Nat.max_eq_left hpos
  rw [← hstart, hstep]
  exact (Nat.dvd_add_left (Nat.dvd_mul_left ..)).symm

/-- Pages of a power of two are aligned. -/
theorem dvd_pageOf (h : settings.locator.areaAlignment.toNat.isPowerOfTwo) (offset : Nat) :
    settings.locator.areaAlignment.toNat ∣ pageOf settings.locator offset := by
  rw [pageOf, alignDown_eq_sub_mod h]
  exact Nat.dvd_sub_mod offset

/-! ## An area behind zeros -/

/-- An area without entries: the table pointer and the terminator. -/
def bareArea : ByteArray :=
  ⟨#[0x04, 0x20, 0x43, 0x80, 16, 0, 0, 0, 0, 0, 0, 0]⟩

/-- The bare area is accepted with every horizon that shows it. -/
theorem detect_bareArea {horizon : Nat} (h : 12 ≤ horizon) :
    detect horizon bareArea = .ok .little := by
  have hhorizon : min horizon bareArea.size = 12 := Nat.min_eq_right h
  rw [detect, examineRegion, hhorizon]
  rfl

/-- The bare area stands nowhere among the zeros before it. -/
theorem findAnchor_behind_zeros {n : Nat} (hn : n % 4 = 0) :
    findAnchor (.replicate n 0 ++ bareArea) (some bareArea) = some ⟨n, .supplied⟩ := by
  have hwords : (ByteArray.replicate n 0).size % 4 = 0 := by
    rwa [ByteArray.size_replicate]
  have hbare : findAnchor bareArea (some bareArea) = some ⟨0, .supplied⟩ := rfl
  rw [findAnchor_prepend hwords ?_ hbare]
  · simp only [Anchor.shift, ByteArray.size_replicate, Nat.zero_add]
  · intro q _ hlt hanchor
    -- its first byte is not zero
    have hbyte := congrArg (ByteArray.byteAt · 0) hanchor.2
    rw [ByteArray.byteAt_extract (Nat.add_lt_add_left hanchor.1 q), Nat.add_zero,
      ByteArray.byteAt_append, if_pos hlt, ByteArray.byteAt_zeros] at hbyte
    exact absurd hbyte (by decide)

/-- The bare area is found at every page at which whole words of zeros can end, if the settings let
it be found at all. -/
theorem findArea_behind_zeros {n : Nat} (hn : n % 4 = 0) (hpage : pageOf settings.locator n = n)
    (hhorizon : 12 ≤ settings.detection.scanHorizon.toNat)
    (hsize : 12 ≤ settings.locator.areaSize.toNat) :
    findArea (.replicate n 0 ++ bareArea) (some bareArea) settings =
      some ⟨⟨n, .supplied⟩, n, .little⟩ := by
  -- what is examined at its page is the area itself
  have hwindow : window (.replicate n 0 ++ bareArea) settings.locator n = bareArea := by
    have hstop : min (0 + settings.locator.areaSize.toNat) bareArea.size = bareArea.size :=
      Nat.min_eq_right (by rwa [Nat.zero_add])
    have hmove : window (.replicate n 0 ++ bareArea) settings.locator
        (0 + (ByteArray.replicate n 0).size) = window bareArea settings.locator 0 := window_prepend
    rw [ByteArray.size_replicate, Nat.zero_add] at hmove
    rw [hmove, window, hstop, ByteArray.extract_zero_size]
  refine findArea_eq_some_iff.2 ⟨_, findAnchor_behind_zeros hn, ?_⟩
  -- no page further back is tried
  refine searchPages_eq_some_iff.2
    ⟨rfl, 0, Nat.zero_le _, ?_, ?_, fun _ hlt => absurd hlt (Nat.not_lt_zero _)⟩
  · rw [Nat.zero_mul]
    exact hpage.symm
  · rw [hwindow]
    exact detect_bareArea hhorizon

/-! ## Alignment -/

/-- For an alignment that is no power of two an area can be found that is not aligned, in an image
that is not two pages larger than the area. -/
theorem exists_unaligned (hpos : 1 ≤ settings.locator.areaAlignment.toNat)
    (hno : ¬settings.locator.areaAlignment.toNat.isPowerOfTwo)
    (hhorizon : 12 ≤ settings.detection.scanHorizon.toNat)
    (hsize : 12 ≤ settings.locator.areaSize.toNat) :
    ∃ image dtb location, image.size < 2 * settings.locator.areaAlignment.toNat + 12 ∧
      findArea image dtb settings = some location ∧
      ¬settings.locator.areaAlignment.toNat ∣ location.areaOffset := by
  obtain ⟨n, hwords, hlt, hpage, hdvd⟩ := exists_not_dvd_alignDown hpos hno
  refine ⟨_, _, _, ?_, findArea_behind_zeros hwords hpage hhorizon hsize, hdvd⟩
  rw [ByteArray.size_append, ByteArray.size_replicate]
  exact Nat.add_lt_add_right hlt 12

/-- A found area is aligned exactly if the page of its anchor is. So all are aligned if the
alignment is a power of two, whatever the image; but for every other alignment, if areas are found
at all, there is an image in which one is found that is not. -/
theorem findArea_aligned (hpos : 1 ≤ settings.locator.areaAlignment.toNat) :
    (∀ image dtb location, findArea image dtb settings = some location →
      (settings.locator.areaAlignment.toNat ∣ location.areaOffset ↔
        settings.locator.areaAlignment.toNat ∣
          alignDown location.anchor.offset settings.locator.areaAlignment.toNat)) ∧
    (settings.locator.areaAlignment.toNat.isPowerOfTwo →
      ∀ image dtb location, findArea image dtb settings = some location →
        settings.locator.areaAlignment.toNat ∣ location.areaOffset) ∧
    (¬settings.locator.areaAlignment.toNat.isPowerOfTwo →
      12 ≤ settings.detection.scanHorizon.toNat → 12 ≤ settings.locator.areaSize.toNat →
        ∃ image dtb location, image.size < 2 * settings.locator.areaAlignment.toNat + 12 ∧
          findArea image dtb settings = some location ∧
          ¬settings.locator.areaAlignment.toNat ∣ location.areaOffset) := by
  -- in the order stated: any alignment, a power of two, and no power of two
  refine ⟨fun _ _ _ hfind => dvd_areaOffset_iff hpos hfind, fun hpages _ _ _ hfind => ?_,
    exists_unaligned hpos⟩
  exact (dvd_areaOffset_iff hpos hfind).2 (dvd_pageOf hpages _)

/-- Settings that ask for an alignment of three bytes. -/
def settingsForThirds : Settings :=
  { locator := { areaAlignment := 3 } }

/-- For an alignment of three bytes there is an image in which the area found is not aligned. -/
theorem findArea_aligned_settingsForThirds :
    1 ≤ settingsForThirds.locator.areaAlignment.toNat ∧
      ∃ image dtb location, image.size < 18 ∧
        findArea image dtb settingsForThirds = some location ∧ ¬3 ∣ location.areaOffset := by
  have hpos : 1 ≤ settingsForThirds.locator.areaAlignment.toNat := by decide
  exact ⟨hpos, (findArea_aligned hpos).2.2 (by decide) (by decide) (by decide)⟩

/-- Settings with such an alignment are accepted, and an area is found at offset 4. -/
theorem findArea_settingsForThirds :
    Settings.ofJson settingsForThirds.toJson = .ok settingsForThirds ∧
      1 ≤ settingsForThirds.locator.areaAlignment.toNat ∧
      findArea (⟨#[0, 0, 0, 0]⟩ ++ bareArea) (some bareArea) settingsForThirds =
        some ⟨⟨4, .supplied⟩, 4, .little⟩ ∧
      ¬settingsForThirds.locator.areaAlignment.toNat ∣ 4 :=
  ⟨Json.readDocument_ofList (Settings.reads_print _ _), by decide, rfl, by decide⟩

end ConfigArea
