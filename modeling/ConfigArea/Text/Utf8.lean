/-!
# Text of untrusted bytes

Names and version fields are meant to be UTF-8 but nothing checks them. They are read so that
every maximal ill-formed part becomes one replacement character: a part that starts a character
but stops short of its last byte counts once, every other stray byte counts once.

* `decode_cons_of_ascii`: a byte below `0x80` stands for itself, whatever follows
-/

namespace ConfigArea.Utf8

/-- The character that stands for ill-formed bytes. -/
def replacement : Char := '\ufffd'

/-- Whether `b` continues a character. -/
def isContinuation (b : UInt8) : Bool :=
  0x80 ≤ b && b ≤ 0xbf

/-- The six payload bits of a continuation byte. -/
def payload (b : UInt8) : Nat :=
  b.toNat - 0x80

/-- The bytes that may follow the first byte of a character of three or four bytes: the bounds
leave out overlong forms, surrogates and numbers above the last character. -/
def secondBounds (first : UInt8) : UInt8 × UInt8 :=
  if first = 0xe0 then (0xa0, 0xbf)
  else if first = 0xed then (0x80, 0x9f)
  else if first = 0xf0 then (0x90, 0xbf)
  else if first = 0xf4 then (0x80, 0x8f)
  else (0x80, 0xbf)

/-- Whether `second` may follow `first`. -/
def mayFollow (first second : UInt8) : Bool :=
  (secondBounds first).1 ≤ second && second ≤ (secondBounds first).2

/-- The character that starts with `first`, and how many of the bytes after `first` belong to it. -/
def next (first : UInt8) (rest : List UInt8) : Char × Nat :=
  if first < 0x80 then (.ofNat first.toNat, 0)
  -- a character of two bytes
  else if 0xc2 ≤ first && first ≤ 0xdf then
    match rest with
    | b :: _ =>
      if isContinuation b then (.ofNat ((first.toNat - 0xc0) * 64 + payload b), 1)
      else (replacement, 0)
    | [] => (replacement, 0)
  -- of three bytes: a good second byte belongs to the part even if the third is bad
  else if 0xe0 ≤ first && first ≤ 0xef then
    match rest with
    | b :: rest =>
      if mayFollow first b then
        match rest with
        | c :: _ =>
          if isContinuation c then
            (.ofNat (((first.toNat - 0xe0) * 64 + payload b) * 64 + payload c), 2)
          else (replacement, 1)
        | [] => (replacement, 1)
      else (replacement, 0)
    | [] => (replacement, 0)
  -- of four bytes
  else if 0xf0 ≤ first && first ≤ 0xf4 then
    match rest with
    | b :: rest =>
      if mayFollow first b then
        match rest with
        | c :: rest =>
          if isContinuation c then
            match rest with
            | d :: _ =>
              if isContinuation d then
                (.ofNat ((((first.toNat - 0xf0) * 64 + payload b) * 64 + payload c) * 64
                  + payload d), 3)
              else (replacement, 2)
            | [] => (replacement, 2)
          else (replacement, 1)
        | [] => (replacement, 1)
      else (replacement, 0)
    | [] => (replacement, 0)
  else (replacement, 0)

/-- The characters of `bytes`, one replacement character for each maximal ill-formed part. -/
def decode (bytes : List UInt8) : List Char :=
  match bytes with
  | [] => []
  | first :: rest => (next first rest).1 :: decode (rest.drop (next first rest).2)
termination_by bytes.length
decreasing_by simp only [List.length_drop, List.length_cons]; omega

/-- A byte below `0x80` stands for itself. -/
theorem decode_cons_of_ascii {b : UInt8} (h : b < 0x80) (rest : List UInt8) :
    decode (b :: rest) = .ofNat b.toNat :: decode rest := by
  rw [decode]
  simp [next, h]

end ConfigArea.Utf8

namespace ByteArray

open ConfigArea

/-- The text of the bytes. -/
def text (b : ByteArray) : String :=
  .ofList (Utf8.decode b.data.toList)

/-- The text of a zero padded field: the bytes before the first zero. -/
def paddedText (b : ByteArray) : String :=
  .ofList (Utf8.decode (b.data.toList.takeWhile (· != 0)))

end ByteArray
