import ConfigArea.Proofs.Detection.Order

/-!
# How far detection looks

Once its landmarks are found, an area is told by the bytes up to the end of its entry array and by
the size of its region. What lies behind the array, payloads included, and how much of it there was
still to be scanned do not matter, neither to an answer nor to a failure.

## Key results

- `scan_eq_ok_iff_of_agree`: the landmarks are found with every horizon that shows the array, and
  with no other
- `detect_of_agree`: where they are found, the bytes of the array decide what detection gives
-/

namespace ConfigArea

namespace Detection

/-- Where the entry array ends, in bytes from the start of the region: its last word is the null
payload of the terminator. -/
def Landmarks.stop (m : Landmarks) : Nat :=
  4 * (m.null + 1)

variable {horizon horizon' : Nat} {region region' : ByteArray} {m : Landmarks}

/-- Regions that agree up to the end of the array have its words in common. -/
theorem wordAt_of_agree (h : region'.extract 0 m.stop = region.extract 0 m.stop) {i : Nat}
    (hi : i ≤ m.null) : region.wordAt (4 * i) = region'.wordAt (4 * i) := by
  apply ByteArray.wordAt_congr
  intro k hk
  refine (ByteArray.byteAt_eq_of_extract_eq h ?_).symm
  unfold Landmarks.stop
  omega

/-- The landmarks lie within the horizon, and inside the region. -/
theorem stop_le_of_scan (h : scan horizon region = .ok m) :
    m.stop ≤ horizon ∧ m.stop ≤ region.size := by
  -- the null word is scanned, and the array ends with it
  have hstop : m.stop ≤ min horizon region.size := (marks_of_landmarks h).null_lt
  omega

/-- In regions of one size that agree up to the end of the array, the same landmarks are found, as
long as the horizon shows the whole array. -/
theorem scan_eq_ok_iff_of_agree {m' : Landmarks} (hm : scan horizon region = .ok m)
    (hsize : region'.size = region.size)
    (hagree : region'.extract 0 m.stop = region.extract 0 m.stop) :
    scan horizon' region' = .ok m' ↔ m' = m ∧ m.stop ≤ horizon' := by
  have hinside := (stop_le_of_scan hm).2
  -- a horizon behind the array shows the same landmarks as before
  have hfound {n : Nat} (hn : m.stop ≤ n) : scan n region' = .ok m := by
    have hroom : m.stop ≤ min n region'.size := by omega
    exact landmarks_of_agree hm hroom fun i hi => wordAt_of_agree hagree hi
  constructor
  · intro h
    -- what a horizon shows, the whole region shows as well
    have hstop := stop_le_of_scan h
    have hwhole : scan region'.size region' = .ok m' :=
      landmarks_of_agree h (Nat.le_min.2 ⟨hstop.2, hstop.2⟩) fun _ _ => rfl
    obtain rfl : m' = m := Except.ok.inj (hwhole.symm.trans (hfound (by omega)))
    exact ⟨rfl, hstop.1⟩
  · intro h
    obtain ⟨rfl, hstop⟩ := h
    exact hfound hstop

/-- Regions of one size that agree up to the end of the array are examined alike. -/
theorem examineRegion_of_agree (hm : scan horizon region = .ok m)
    (hsize : region'.size = region.size)
    (hagree : region'.extract 0 m.stop = region.extract 0 m.stop) (hstop : m.stop ≤ horizon') :
    examineRegion horizon' region' = examineRegion horizon region := by
  -- the landmarks are found, and the words up to them decide
  have hm' : scan horizon' region' = .ok m :=
    (scan_eq_ok_iff_of_agree hm hsize hagree).2 ⟨rfl, hstop⟩
  calc examineRegion horizon' region'
    _ = examine (fun i => region'.wordAt (4 * i)) (min horizon' region'.size) region.size := by
      rw [examineRegion, hsize]
    _ = examineRegion horizon region :=
      (examine_congr_of_landmarks hm hm' fun i hi => wordAt_of_agree hagree hi).symm

end Detection

open Detection in
/-- Detection does not look behind the entry array. Where it has found the landmarks of a region, it
finds the same ones in every region of that size with the same bytes up to the end of the array,
with every horizon that shows these, and gives the same order or the same failure. -/
theorem detect_of_agree {horizon horizon' : Nat} {region region' : ByteArray} {m : Landmarks}
    (hm : scan horizon region = .ok m) (hsize : region'.size = region.size)
    (hagree : region'.extract 0 m.stop = region.extract 0 m.stop) (hstop : m.stop ≤ horizon') :
    scan horizon' region' = .ok m ∧ detect horizon' region' = detect horizon region := by
  refine ⟨(scan_eq_ok_iff_of_agree hm hsize hagree).2 ⟨rfl, hstop⟩, ?_⟩
  rw [detect, detect, examineRegion_of_agree hm hsize hagree hstop]

/-- A region whose one payload pointer leads past its end, to byte 23 of 22. -/
def regionWithStray : ByteArray :=
  ⟨#[0x04, 0x20, 0x43, 0x80, 3, 0, 0, 0, 0x17, 0x20, 0x43, 0x80, 16, 0, 0, 0, 0, 0, 0, 0, 7, 9]⟩

open Detection in
/-- With other bytes behind the array, and nothing but the array scanned, the region with an entry
is accepted in the same order, and the one with a stray pointer is rejected for the same reason. -/
theorem detect_of_agree_regionWithStray :
    (scan 16384 regionWithEntry = .ok ⟨1, 4⟩ ∧
      detect 20 ⟨#[0x04, 0x20, 0x43, 0x80, 3, 0, 0, 0, 0x14, 0x20, 0x43, 0x80, 16, 0, 0, 0,
        0, 0, 0, 0, 0, 255]⟩ = .ok .little) ∧
    scan 16384 regionWithStray = .ok ⟨1, 4⟩ ∧
      detect 20 ⟨#[0x04, 0x20, 0x43, 0x80, 3, 0, 0, 0, 0x17, 0x20, 0x43, 0x80, 16, 0, 0, 0,
        0, 0, 0, 0, 0, 255]⟩ = .error (.pointerOutOfRange 8 0x80432017 0x80432000 22) := by
  -- the landmarks of both regions
  have hentry : scan 16384 regionWithEntry = .ok ⟨1, 4⟩ := rfl
  have hstray : scan 16384 regionWithStray = .ok ⟨1, 4⟩ := rfl
  have hstop : Landmarks.stop ⟨1, 4⟩ ≤ 20 := by decide
  refine ⟨⟨hentry, ?_⟩, hstray, ?_⟩
  · refine (detect_of_agree hentry ?_ ?_ hstop).2.trans ?_ <;> rfl
  · refine (detect_of_agree hstray ?_ ?_ hstop).2.trans ?_ <;> rfl

end ConfigArea
