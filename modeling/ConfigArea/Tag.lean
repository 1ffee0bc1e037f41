import ConfigArea.Text.Hex

/-!
# Entry tags

The tag of an entry names the kind of its payload. Ordinals are fixed by the kernel: `0` to `16`
are known, `16` ends the table, and the device trees of the hardware sub-revisions occupy the
contiguous block `5` to `14`.

* `Tag.raw_ofRaw`: a tag keeps its ordinal
* `Tag.isValid_ofRaw`: the known ordinals are those up to the terminator's
-/

namespace ConfigArea

/-- The kind of an entry. -/
inductive Tag where
  | undef
  /-- memory reserved for kernel modules -/
  | moduleMemory
  /-- version record of the firmware -/
  | versionInfo
  | hwConfig
  | cacheConfig
  /-- device tree of one hardware sub-revision -/
  | deviceTree (subrev : UInt8)
  | avmNet
  /-- the terminator -/
  | last
  /-- an ordinal above that of the terminator -/
  | unknown (raw : UInt32)
  deriving DecidableEq

namespace Tag

/-- The ordinal of the terminator, the largest that is known. -/
def lastRaw : UInt32 := 16

/-- The number of hardware sub-revisions that have a tag. -/
def subrevCount : UInt8 := 10

/-- The tag with the given ordinal. -/
def ofRaw (raw : UInt32) : Tag :=
  match raw.toNat with
  | 0 => .undef
  | 1 => .moduleMemory
  | 2 => .versionInfo
  | 3 => .hwConfig
  | 4 => .cacheConfig
  | 15 => .avmNet
  | 16 => .last
  -- what is left is the block of the device trees, or above the terminator
  | n => if 5 ≤ n ∧ n ≤ 14 then .deviceTree (.ofNat (n - 5)) else .unknown raw

/-- The ordinal of a tag. -/
def raw : Tag → UInt32
  | undef => 0
  | moduleMemory => 1
  | versionInfo => 2
  | hwConfig => 3
  | cacheConfig => 4
  | deviceTree subrev => 5 + subrev.toUInt32
  | avmNet => 15
  | last => 16
  | unknown raw => raw

/-- The tag of the device tree for `subrev`, if that sub-revision has one. -/
def deviceTree? (subrev : UInt8) : Option Tag :=
  if subrev < subrevCount then some (.deviceTree subrev) else none

/-- Whether the ordinal is a known one. -/
def isValid : Tag → Bool
  | unknown _ => false
  | _ => true

/-- Whether the entry is a device tree. -/
def isDeviceTree : Tag → Bool
  | deviceTree _ => true
  | _ => false

/-- The sub-revision of a device tree. -/
def subrev? : Tag → Option UInt8
  | deviceTree subrev => some subrev
  | _ => none

/-- The name under which a tag is shown. -/
def name : Tag → String
  | undef => "undef"
  | moduleMemory => "module_memory"
  | versionInfo => "version_info"
  | hwConfig => "hw_config"
  | cacheConfig => "cache_config"
  | deviceTree subrev => s!"device_tree_subrev_{subrev.toNat}"
  | avmNet => "avmnet"
  | last => "last"
  | unknown raw => s!"unknown({Hex.number raw.toNat})"

/-- A tag keeps its ordinal. -/
@[simp] theorem raw_ofRaw (r : UInt32) : (ofRaw r).raw = r := by
  apply UInt32.toNat_inj.1
  rw [ofRaw]
  split
  -- the block of the device trees is the one case with arithmetic
  case h_8 =>
    split
    · simp only [raw, UInt32.toNat_add, UInt8.toNat_toUInt32, UInt8.toNat_ofNat',
        UInt32.reduceToNat]
      omega
    · rfl
  all_goals simp_all [raw]

/-- The known ordinals are those up to the terminator's. -/
theorem isValid_ofRaw (r : UInt32) : (ofRaw r).isValid = true ↔ r ≤ lastRaw := by
  rw [UInt32.le_iff_toNat_le, show lastRaw.toNat = 16 from rfl, ofRaw]
  split
  case h_8 =>
    split
    · simp only [isValid, true_iff]; omega
    · simp only [isValid, Bool.false_eq_true, false_iff, imp_false] at *; omega
  all_goals simp only [isValid, true_iff]; omega

/-- The block of the device trees. -/
theorem ofRaw_eq_deviceTree {r : UInt32} (h₅ : 5 ≤ r.toNat) (h₁₄ : r.toNat ≤ 14) :
    ofRaw r = .deviceTree (.ofNat (r.toNat - 5)) := by
  unfold ofRaw
  split
  case h_8 => exact if_pos ⟨h₅, h₁₄⟩
  all_goals omega

/-- The ordinals of entries: five kinds, and the block of the device trees. -/
theorem ordinal_cases {r : UInt32} (hpos : 1 ≤ r.toNat) (hle : r.toNat ≤ 15) :
    r = 1 ∨ r = 2 ∨ r = 3 ∨ r = 4 ∨ r = 15 ∨ 5 ≤ r.toNat ∧ r.toNat ≤ 14 := by
  simp only [← UInt32.toNat_inj, UInt32.reduceToNat]
  omega

end Tag

end ConfigArea
