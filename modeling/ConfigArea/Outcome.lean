/-!
# Outcomes of steps that may fail

When a computation in `Except` succeeds and when it fails, told from its steps, how it goes along
with another one whose results and failures are images of its own, and when its results are also
those of another one.
-/

namespace ConfigArea

variable {ε ε' α β : Type}

/-- After a result the second step is taken with it. -/
theorem ok_bind (a : α) (f : α → Except ε β) : (Except.ok a >>= f) = f a := rfl

/-- After a failure the second step is not taken. -/
theorem error_bind (e : ε) (f : α → Except ε β) : (Except.error e >>= f) = .error e := rfl

/-- Two steps succeed where the first does and the second does with its result. -/
theorem bind_eq_ok {x : Except ε α} {f : α → Except ε β} {b : β} :
    (x >>= f) = .ok b ↔ ∃ a, x = .ok a ∧ f a = .ok b := by
  cases x <;> simp [bind, Except.bind]

/-- Two steps fail where the first does, or where it succeeds and the second fails. -/
theorem bind_eq_error {x : Except ε α} {f : α → Except ε β} {e : ε} :
    (x >>= f) = .error e ↔ x = .error e ∨ ∃ a, x = .ok a ∧ f a = .error e := by
  cases x <;> simp [bind, Except.bind]

/-- A result that is mapped is a failure where the result is, and else its image. -/
theorem map_eq_ok {x : Except ε α} {f : α → β} {b : β} :
    x.map f = .ok b ↔ ∃ a, x = .ok a ∧ f a = b := by
  cases x <;> simp [Except.map]

/-- Mapping the results of a step leaves its failures alone. -/
theorem map_eq_error {x : Except ε α} {f : α → β} {e : ε} :
    x.map f = .error e ↔ x = .error e := by
  cases x <;> simp [Except.map]

/-- Renaming the failures of a step leaves its results alone. -/
theorem mapError_eq_ok {x : Except ε α} {f : ε → ε'} {a : α} :
    x.mapError f = .ok a ↔ x = .ok a := by
  cases x with
  | error e =>
    constructor
    · intro h
      cases h
    · intro h
      cases h
  | ok b => exact ⟨fun h => congrArg _ (Except.ok.inj h), fun h => congrArg _ (Except.ok.inj h)⟩

/-- A step whose failures are renamed fails where the step does, with the new name. -/
theorem mapError_eq_error {x : Except ε α} {f : ε → ε'} {e : ε'} :
    x.mapError f = .error e ↔ ∃ d, x = .error d ∧ f d = e := by
  cases x with
  | error d =>
    refine ⟨fun h => ⟨d, rfl, Except.error.inj h⟩, ?_⟩
    intro h
    obtain ⟨d', hd, rfl⟩ := h
    exact Except.error.inj hd ▸ rfl
  | ok b =>
    constructor
    · -- an outcome that is no failure is mapped to none
      intro h
      cases h
    · intro h
      obtain ⟨_, h, _⟩ := h
      cases h

/-- Where a step fails on a list it fails on one of the elements. -/
theorem exists_of_mapM_eq_error {f : α → Except ε β} {xs : List α} {e : ε}
    (h : xs.mapM f = .error e) : ∃ x ∈ xs, f x = .error e := by
  induction xs with
  | nil => cases h
  | cons x xs ih =>
    -- the first element fails, or one of those that follow it
    rw [List.mapM_cons, bind_eq_error] at h
    rcases h with h | ⟨y, -, h⟩
    · exact ⟨x, List.mem_cons_self, h⟩
    · rw [bind_eq_error] at h
      rcases h with h | ⟨ys, -, h⟩
      · obtain ⟨x', hx', he⟩ := ih h
        exact ⟨x', List.mem_cons_of_mem _ hx', he⟩
      · cases h

/-! ## Outcomes carried over -/

/-- The outcome with its failure replaced by the image under `f`, or its result by that under
`g`. -/
def carry {ε ε' α β : Type} (f : ε → ε') (g : α → β) (x : Except ε α) : Except ε' β :=
  (x.map g).mapError f

/-- Mapping the results is carried over if it is for each of them. -/
theorem map_carry {α' β' : Type} {f : ε → ε'} {g : α → α'} {g' : β → β'} {m : α → β}
    {m' : α' → β'} (h : ∀ a, m' (g a) = g' (m a)) (x : Except ε α) :
    (carry f g x).map m' = carry f g' (x.map m) := by
  cases x with
  | error e => rfl
  | ok a => exact congrArg Except.ok (h a)

/-- Renaming the failures is carried over if it is for each of them. -/
theorem mapError_carry {δ δ' : Type} {f : ε → ε'} {f' : δ → δ'} {g : α → β} {m : ε → δ}
    {m' : ε' → δ'} (h : ∀ e, m' (f e) = f' (m e)) (x : Except ε α) :
    (carry f g x).mapError m' = carry f' g (x.mapError m) := by
  cases x with
  | error e => exact congrArg Except.error (h e)
  | ok a => rfl

/-- Two steps are carried over if the first is, and the second is wherever the first succeeds. -/
theorem carry_bind {α' β' : Type} {f : ε → ε'} {g : α → α'} {g' : β → β'} {x : Except ε α}
    {k : α → Except ε β} {k' : α' → Except ε' β'}
    (h : ∀ a, x = .ok a → k' (g a) = carry f g' (k a)) :
    (carry f g x >>= k') = carry f g' (x >>= k) := by
  cases x with
  | error e => rfl
  | ok a => exact h a rfl

/-- The same where the result of the first step stays as it is. -/
theorem carry_id_bind {β' : Type} {f : ε → ε'} {g' : β → β'} {x : Except ε α}
    {k : α → Except ε β} {k' : α → Except ε' β'}
    (h : ∀ a, x = .ok a → k' a = carry f g' (k a)) :
    (carry f id x >>= k') = carry f g' (x >>= k) :=
  carry_bind h

/-! ## Results that last -/

/-- The results of `x` last in `y`: where `x` has one, `y` has the same. -/
def Lasts {ε α : Type} (x y : Except ε α) : Prop :=
  ∀ a, x = .ok a → y = .ok a

namespace Lasts

variable {x y : Except ε α}

/-- The results of two steps last if those of the first do, and those of the second do wherever
the first succeeds. -/
theorem bind {f g : α → Except ε β} (h : Lasts x y) (hf : ∀ a, x = .ok a → Lasts (f a) (g a)) :
    Lasts (x >>= f) (y >>= g) := by
  intro b hb
  obtain ⟨a, ha, hb⟩ := bind_eq_ok.1 hb
  exact bind_eq_ok.2 ⟨a, h a ha, hf a ha b hb⟩

/-- Results last when they are mapped alike. -/
theorem map (h : Lasts x y) (f : α → β) : Lasts (x.map f) (y.map f) := by
  intro b hb
  obtain ⟨a, ha, hb⟩ := map_eq_ok.1 hb
  exact map_eq_ok.2 ⟨a, h a ha, hb⟩

/-- Results last when failures are renamed alike. -/
theorem mapError (h : Lasts x y) (f : ε → ε') : Lasts (x.mapError f) (y.mapError f) := by
  intro a ha
  exact mapError_eq_ok.2 (h a (mapError_eq_ok.1 ha))

end Lasts

end ConfigArea
