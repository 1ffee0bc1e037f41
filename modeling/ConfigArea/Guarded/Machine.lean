import ConfigArea.Outcome

/-!
# Guarded operations

A machine computes with numbers of 64 or 32 bits. An operation without a result stops the program: a
sum or a product that is too large, a difference below zero, an index or a slice that is not inside.
Here such an operation gives nothing, and a computation made of them (`Guarded`) is stopped, fails,
or has a result.

A loop counts: each round goes on with a number of 64 bits that is larger than the one before
(`advance`). So it comes to an end, with an outcome or where there is no larger number.

* `Gives`: a computation goes through, with a known outcome
* `Gives.bind`, `Gives.lift`: the steps of such a computation
-/

namespace ConfigArea

/-- A computation that is stopped (`none`), fails or has a result. -/
abbrev Guarded (ε : Type) := ExceptT ε Option

namespace Guarded

/-- One more than the largest number of 64 bits. -/
def limit : Nat := 0x10000000000000000

/-- The sum of two numbers of 64 bits. -/
def add (a b : Nat) : Option Nat :=
  if a + b < limit then some (a + b) else none

/-- The counter `n` further on, with what makes a loop over it end. -/
def advance (i n : Nat) : Option {j : Nat // j = i + n ∧ j < limit} :=
  if h : i + n < limit then some ⟨i + n, rfl, h⟩ else none

/-- The difference of two numbers of 64 bits. -/
def sub (a b : Nat) : Option Nat :=
  if b ≤ a then some (a - b) else none

/-- The product of two numbers of 64 bits. -/
def mul (a b : Nat) : Option Nat :=
  if a * b < limit then some (a * b) else none

/-- The sum of two numbers of 64 bits, or the largest number if it is too large. -/
def saturatingAdd (a b : Nat) : Nat :=
  min (a + b) (limit - 1)

/-- The bits of a number of 64 bits without those of `mask`. -/
def clear (value mask : Nat) : Nat :=
  value &&& (limit - 1 - mask)

/-- The sum of two numbers of 32 bits. -/
def add32 (a b : UInt32) : Option UInt32 :=
  if a.toNat + b.toNat < 0x100000000 then some (a + b) else none

/-- The difference of two numbers of 32 bits. -/
def sub32 (a b : UInt32) : Option UInt32 :=
  if b ≤ a then some (a - b) else none

section Operations

variable {a b : Nat}

-- the hypotheses give the limit in figures, which linear arithmetic needs

/-- A sum below the limit is not refused. -/
theorem add_of_lt (h : a + b < 0x10000000000000000) : add a b = some (a + b) :=
  if_pos h

/-- A counter below the limit goes on. -/
theorem advance_of_lt (h : a + b < 0x10000000000000000) : advance a b = some ⟨a + b, rfl, h⟩ :=
  dif_pos h

/-- A sum is never wrapped around. -/
theorem eq_add_of_add_eq_some {c : Nat} (h : add a b = some c) : c = a + b := by
  unfold add at h
  split at h
  · exact (Option.some.inj h).symm
  · cases h

/-- Where too large a sum would be refused anyway, a guarded one is refused as an exact one. -/
theorem filter_add {p : Nat → Bool} (hp : ∀ n, p n = true → n < 0x10000000000000000) :
    (add a b).filter p = if p (a + b) then some (a + b) else none := by
  cases h : p (a + b) with
  | true =>
    rw [add_of_lt (hp _ h), Option.filter_some, h]
  | false =>
    rw [if_neg (by simp), Option.filter_eq_none_iff]
    intro c hc
    obtain rfl := eq_add_of_add_eq_some hc
    simpa using h

/-- A difference that is not below zero is not refused. -/
theorem sub_of_le (h : b ≤ a) : sub a b = some (a - b) :=
  if_pos h

/-- A product below the limit is not refused. -/
theorem mul_of_lt (h : a * b < 0x10000000000000000) : mul a b = some (a * b) :=
  if_pos h

/-- A sum below the limit does not saturate. -/
theorem saturatingAdd_of_lt (h : a + b < 0x10000000000000000) : saturatingAdd a b = a + b := by
  unfold saturatingAdd limit
  omega

/-- A sum that fits into 32 bits is not refused. -/
theorem add32_of_lt {a b : UInt32} (h : a.toNat + b.toNat < 0x100000000) :
    add32 a b = some (a + b) :=
  if_pos h

/-- A difference of 32 bits that is not below zero is not refused. -/
theorem sub32_of_le {a b : UInt32} (h : b ≤ a) : sub32 a b = some (a - b) :=
  if_pos h

/-- The bits outside a mask are those that are left when the bits inside are taken away. -/
theorem toNat_and_not {width : Nat} (v m : BitVec width) :
    (v &&& ~~~m).toNat = v.toNat - (v &&& m).toNat := by
  -- no bit is both outside and inside, so the two parts add up to all bits
  have hdisjoint : (v &&& ~~~m) &&& (v &&& m) = .ofNat width 0 := by
    ext i
    simp only [BitVec.getElem_and, BitVec.getElem_not, BitVec.getElem_zero]
    cases v[i] <;> cases m[i] <;> rfl
  have hunion : (v &&& ~~~m) ||| (v &&& m) = v := by
    ext i
    simp only [BitVec.getElem_or, BitVec.getElem_and, BitVec.getElem_not]
    cases v[i] <;> cases m[i] <;> rfl
  have hsum := BitVec.toNat_add_of_and_eq_zero hdisjoint
  rw [BitVec.add_eq_or_of_and_eq_zero _ _ hdisjoint, hunion] at hsum
  omega

/-- To clear the bits of a mask is to take them away. -/
theorem clear_eq_sub {value mask : Nat} (hvalue : value < 0x10000000000000000)
    (hmask : mask < 0x10000000000000000) :
    clear value mask = value - (value &&& mask) := by
  -- told of words of 64 bits first, whose numbers then are the values themselves
  have hbits := toNat_and_not (BitVec.ofNat 64 value) (BitVec.ofNat 64 mask)
  rw [BitVec.toNat_and, BitVec.toNat_and, BitVec.toNat_not, BitVec.toNat_ofNat,
    BitVec.toNat_ofNat] at hbits
  change value % limit &&& (limit - 1 - mask % limit) =
    value % limit - (value % limit &&& mask % limit) at hbits
  rwa [Nat.mod_eq_of_lt (show value < limit from hvalue),
    Nat.mod_eq_of_lt (show mask < limit from hmask)] at hbits

end Operations

/-! ## Outcomes -/

section Outcomes

variable {ε ε' α β : Type} {x : Guarded ε α} {r : Except ε α}

/-- The computation goes through, with the outcome `r`. -/
def Gives (x : Guarded ε α) (r : Except ε α) : Prop :=
  x.run = some r

/-- A step without guarded operations goes through. -/
theorem gives_except (r : Except ε α) : Gives (liftM r : Guarded ε α) r := rfl

/-- A result goes through. -/
theorem gives_pure (a : α) : Gives (pure a : Guarded ε α) (.ok a) := rfl

/-- A failure goes through. -/
theorem gives_throw (e : ε) : Gives (throw e : Guarded ε α) (.error e) := rfl

/-- Two steps go through if the first does, and the second does with the result of the first. -/
theorem Gives.bind {f : α → Guarded ε β} {g : α → Except ε β} (h : Gives x r)
    (hf : ∀ a, r = .ok a → Gives (f a) (g a)) : Gives (x >>= f) (r >>= g) := by
  cases r with
  | error e =>
    -- the second step is not taken
    change ExceptT.run x >>= ExceptT.bindCont f = some (.error e)
    rw [h]
    rfl
  | ok a =>
    change ExceptT.run x >>= ExceptT.bindCont f = some (g a)
    rw [h]
    exact hf a rfl

/-- The second step goes on with the result of the first. -/
theorem Gives.ok_bind {f : α → Guarded ε β} {a : α} {r : Except ε β} (h : Gives x (.ok a))
    (hf : Gives (f a) r) : Gives (x >>= f) r :=
  h.bind fun _ ha => Except.ok.inj ha ▸ hf

/-- Where the first step fails, so do both. -/
theorem Gives.error_bind {f : α → Guarded ε β} {e : ε} (h : Gives x (.error e)) :
    Gives (x >>= f) (.error e) :=
  h.bind (g := fun _ => .error e) nofun

/-- A guarded operation with a result goes on with it. -/
theorem lift_some_bind (a : α) (f : α → Guarded ε β) :
    ((liftM (some a) : Guarded ε α) >>= f) = f a := rfl

/-- A guarded operation with a result goes through. -/
theorem gives_lift {o : Option α} {a : α} (h : o = some a) :
    Gives (liftM o : Guarded ε α) (.ok a) := by
  subst h
  rfl

/-- A guarded operation goes through if it has a result. -/
theorem Gives.lift {o : Option α} {a : α} {f : α → Guarded ε β} {r : Except ε β} (h : o = some a)
    (hf : Gives (f a) r) : Gives ((liftM o : Guarded ε α) >>= f) r := by
  subst h
  exact hf

/-- A case split goes through if each case does. -/
theorem Gives.ite {c : Prop} [Decidable c] {y : Guarded ε α} {r' : Except ε α}
    (h : c → Gives x r) (h' : ¬c → Gives y r') :
    Gives (if c then x else y) (if c then r else r') := by
  split
  · rename_i hc
    exact h hc
  · rename_i hc
    exact h' hc

/-- Mapping the results of a computation maps those of its outcome. -/
theorem Gives.map (h : Gives x r) (f : α → β) : Gives (f <$> x) (r.map f) := by
  rw [Gives, ExceptT.run_map, h]
  rfl

/-- Renaming the failures of a computation renames those of its outcome. -/
theorem Gives.adapt (h : Gives x r) (f : ε → ε') : Gives (ExceptT.adapt f x) (r.mapError f) := by
  change Except.mapError f <$> x.run = some (r.mapError f)
  rw [h]
  rfl

/-- The outcome may be replaced by an equal one. -/
theorem Gives.congr {r' : Except ε α} (h : Gives x r) (hr : r = r') : Gives x r' :=
  hr ▸ h

end Outcomes

end Guarded

end ConfigArea
