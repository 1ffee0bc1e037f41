import ConfigArea.Bytes
import ConfigArea.Settings

/-!
# Image files

An image file is read whole, unless it is too large. What there is of a file is its content, or
nothing where no such file exists.

* `Image.open?_eq_ok_iff`: which files are read
-/

namespace ConfigArea

/-- The reason a file is not read. -/
inductive FileFailure where
  /-- the system gave no access to it -/
  | unreadable
  /-- it is larger than the settings allow -/
  | tooLarge (limit found : Nat)
  deriving DecidableEq

/-- The text that reports the reason. -/
def FileFailure.message : FileFailure → String
  | unreadable => "An underlying I/O error occurred."
  | tooLarge limit found =>
    s!"File size of {found} bytes exceeds the maximum allowed size of {limit} bytes."

/-- A file that was read. -/
structure Image where
  content : ByteArray

namespace Image

/-- Read a file, given its content if it exists. -/
def open? (file : Option ByteArray) (settings : FileSettings) : Except FileFailure Image :=
  match file with
  | none => .error .unreadable
  | some content =>
    if settings.maxFileSize.toNat < content.size then
      .error (.tooLarge settings.maxFileSize.toNat content.size)
    else .ok ⟨content⟩

/-- The size of the file. -/
def size (image : Image) : Nat :=
  image.content.size

/-- The `len` bytes at `offset`: fewer where the file ends before, none past its end. -/
def readAt (image : Image) (offset len : Nat) : ByteArray :=
  if image.content.size ≤ offset then .empty
  else image.content.extract offset (min (offset + len) image.content.size)

/-- A file is read if it exists and is not above the limit, and its image is its content. -/
theorem open?_eq_ok_iff {file : Option ByteArray} {settings : FileSettings} {image : Image} :
    open? file settings = .ok image ↔
      file = some image.content ∧ image.content.size ≤ settings.maxFileSize.toNat := by
  obtain ⟨content⟩ := image
  cases file with
  | none => simp [open?]
  | some bytes =>
    -- the content is the image, unless it is above the limit
    simp only [open?, Option.some.injEq]
    split
    · simp only [reduceCtorEq, false_iff]
      rintro ⟨rfl, h⟩
      omega
    · simp only [Except.ok.injEq, mk.injEq]
      exact ⟨fun h => ⟨h, h ▸ by omega⟩, fun h => h.1⟩

end Image

end ConfigArea
