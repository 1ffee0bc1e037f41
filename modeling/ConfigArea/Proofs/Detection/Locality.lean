import ConfigArea.Proofs.Detection.Stages

/-!
# What detection reads

Detection is given the words of a region as a function. It reads them up to the null that ends the
entry array, and where it finds no such null those within the horizon. Two regions that agree on
these words and have one size are examined alike.

## Key results

- `examine_congr_of_landmarks`: no word behind the null changes what is found
- `examine_congr`: no word behind the horizon changes what is found
- `examine_of_agree`: what is accepted is accepted with a larger horizon and a larger size
-/

namespace ConfigArea.Detection

variable {word word' : Nat → Word} {order : ByteOrder}

/-- The landmarks are searched among the words within the horizon. -/
theorem landmarks_congr {horizon : Nat} (h : ∀ i, i < horizon / 4 → word i = word' i) :
    landmarks word horizon = landmarks word' horizon := by
  unfold landmarks
  by_cases hfour : horizon < 4
  · -- too little is scanned for a first word
    simp only [hfour, true_or, if_true]
  · have hzero := h 0 (by omega)
    -- neither search goes on behind the horizon
    have htags : firstIndex (fun i => (word i).kind == .tag) 1 (horizon / 4) =
        firstIndex (fun i => (word' i).kind == .tag) 1 (horizon / 4) := by
      apply firstIndex_congr
      intro i _ hi
      rw [h i hi]
    have hnulls (start : Nat) :
        firstIndex (fun i => (word i).kind == .zero) start (horizon / 4) =
          firstIndex (fun i => (word' i).kind == .zero) start (horizon / 4) := by
      apply firstIndex_congr
      intro i _ hi
      rw [h i hi]
    simp only [hzero, htags, hnulls]

/-- The walk reads the words of the slots that it is to look at. -/
theorem walk_congr {i count : Nat} (h : ∀ j, i ≤ j → j < i + 2 * count → word j = word' j) :
    walk word order i count = walk word' order i count := by
  induction count generalizing i with
  | zero => rfl
  | succ count ih =>
    have hslot : slotAt word order i = slotAt word' order i := by
      rw [slotAt, slotAt, h i (by omega) (by omega), h (i + 1) (by omega) (by omega)]
    rw [walk, walk, hslot, ih fun j hj hj' => h j (by omega) (by omega)]

/-- Where the landmarks are the same, the words up to the null decide what is found. -/
theorem examine_congr_of_landmarks {horizon horizon' size : Nat} {m : Landmarks}
    (hm : landmarks word horizon = .ok m) (hm' : landmarks word' horizon' = .ok m)
    (h : ∀ i, i ≤ m.null → word i = word' i) :
    examine word horizon size = examine word' horizon' size := by
  have marks := marks_of_landmarks hm
  have hlt := marks.start_lt
  have hterm : m.terminator = m.null - 1 := rfl
  -- the terminator and the slots before it lie up to the null
  have hguess : guess word m = guess word' m := by
    rw [guess, guess, h m.terminator (by omega)]
  have hwalk (o : ByteOrder) : walk word o m.start ((m.terminator - m.start) / 2) =
      walk word' o m.start ((m.terminator - m.start) / 2) := by
    apply walk_congr
    intro j _ hj
    exact h j (by omega)
  simp only [examine, hm, hm', ok_bind, hguess, hwalk, h 0 (by omega)]

/-- The words within the horizon decide what is found. -/
theorem examine_congr {horizon size : Nat} (h : ∀ i, i < horizon / 4 → word i = word' i) :
    examine word horizon size = examine word' horizon size := by
  have hmarks := landmarks_congr h
  cases hm : landmarks word horizon with
  | error e =>
    -- nothing else is read
    rw [examine, examine, ← hmarks, hm, error_bind, error_bind]
  | ok m =>
    have hnull := (marks_of_landmarks hm).null_lt
    apply examine_congr_of_landmarks hm (by rw [← hmarks, hm])
    intro i hi
    exact h i (by omega)

/-- Landmarks that are found are found wherever the words up to the null are the same, with any
horizon that shows it. -/
theorem landmarks_of_agree {horizon horizon' : Nat} {m : Landmarks}
    (hm : landmarks word horizon = .ok m) (hnull : 4 * (m.null + 1) ≤ horizon')
    (h : ∀ i, i ≤ m.null → word i = word' i) : landmarks word' horizon' = .ok m := by
  have hlt := (marks_of_landmarks hm).start_lt
  obtain ⟨-, hhead, hstart, hend⟩ := landmarks_eq_ok_iff.1 hm
  -- the anchor, the terminator and the null word are each found among the words up to the null
  refine landmarks_eq_ok_iff.2 ⟨by omega, by rwa [← h 0 (by omega)], ?_, ?_⟩
  · apply firstIndex_eq_some_of_agree hstart (by omega)
    intro i _ hi
    rw [h i (by omega)]
  · apply firstIndex_eq_some_of_agree hend (by omega)
    intro i _ hi
    rw [h i hi]

/-- The verdict stays the same where the words up to the null do, with any horizon that shows it and
any size that is not smaller. -/
theorem examine_of_agree {horizon horizon' size size' : Nat} {v : Verdict}
    (hv : examine word horizon size = .ok v) (hnull : 4 * (v.landmarks.null + 1) ≤ horizon')
    (hsize : size ≤ size') (h : ∀ i, i ≤ v.landmarks.null → word i = word' i) :
    examine word' horizon' size' = .ok v := by
  have hm := (examine_eq_ok_iff.1 hv).1
  rw [examine_congr_of_landmarks hm (landmarks_of_agree hm hnull h) h] at hv
  obtain ⟨hm', hguess, hwalk, hbase, haddress, hreach⟩ := examine_eq_ok_iff.1 hv
  refine examine_eq_ok_iff.2 ⟨hm', hguess, hwalk, hbase, haddress, fun s hs => ?_⟩
  -- a payload that reaches no further than the smaller size
  obtain ⟨hlt, hle⟩ := reaches_iff.1 (hreach s hs)
  exact reaches_iff.2 ⟨hlt, by omega⟩

end ConfigArea.Detection
