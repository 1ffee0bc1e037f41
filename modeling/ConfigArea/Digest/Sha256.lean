import ConfigArea.Bytes
import ConfigArea.Text.Hex

/-!
# SHA-256

Blobs are identified by the digest of their bytes: the message is padded to whole blocks of 64
bytes, and each block is mixed into a state of eight words.
-/

namespace ConfigArea.Sha256

/-- The eight working words. -/
structure State where
  a : UInt32
  b : UInt32
  c : UInt32
  d : UInt32
  e : UInt32
  f : UInt32
  g : UInt32
  h : UInt32

/-- The state before the first block. -/
def State.initial : State :=
  ⟨0x6a09e667, 0xbb67ae85, 0x3c6ef372, 0xa54ff53a, 0x510e527f, 0x9b05688c, 0x1f83d9ab, 0x5be0cd19⟩

/-- The words of a state in their order. -/
def State.toList (s : State) : List UInt32 :=
  [s.a, s.b, s.c, s.d, s.e, s.f, s.g, s.h]

/-- The sum of two states, word by word. -/
def State.add (s t : State) : State :=
  ⟨s.a + t.a, s.b + t.b, s.c + t.c, s.d + t.d, s.e + t.e, s.f + t.f, s.g + t.g, s.h + t.h⟩

/-- One constant for each round. -/
def constants : Array UInt32 := #[
  0x428a2f98, 0x71374491, 0xb5c0fbcf, 0xe9b5dba5, 0x3956c25b, 0x59f111f1, 0x923f82a4, 0xab1c5ed5,
  0xd807aa98, 0x12835b01, 0x243185be, 0x550c7dc3, 0x72be5d74, 0x80deb1fe, 0x9bdc06a7, 0xc19bf174,
  0xe49b69c1, 0xefbe4786, 0x0fc19dc6, 0x240ca1cc, 0x2de92c6f, 0x4a7484aa, 0x5cb0a9dc, 0x76f988da,
  0x983e5152, 0xa831c66d, 0xb00327c8, 0xbf597fc7, 0xc6e00bf3, 0xd5a79147, 0x06ca6351, 0x14292967,
  0x27b70a85, 0x2e1b2138, 0x4d2c6dfc, 0x53380d13, 0x650a7354, 0x766a0abb, 0x81c2c92e, 0x92722c85,
  0xa2bfe8a1, 0xa81a664b, 0xc24b8b70, 0xc76c51a3, 0xd192e819, 0xd6990624, 0xf40e3585, 0x106aa070,
  0x19a4c116, 0x1e376c08, 0x2748774c, 0x34b0bcb5, 0x391c0cb3, 0x4ed8aa4a, 0x5b9cca4f, 0x682e6ff3,
  0x748f82ee, 0x78a5636f, 0x84c87814, 0x8cc70208, 0x90befffa, 0xa4506ceb, 0xbef9a3f7, 0xc67178f2]

/-- The word turned right by `n` bits. -/
def rotateRight (x n : UInt32) : UInt32 :=
  (x >>> n) ||| (x <<< (32 - n))

/-- The word that follows the last sixteen of a schedule. -/
def nextWord (schedule : Array UInt32) (i : Nat) : UInt32 :=
  let x := schedule.getD (i - 15) 0
  let y := schedule.getD (i - 2) 0
  schedule.getD (i - 16) 0
    + (rotateRight x 7 ^^^ rotateRight x 18 ^^^ (x >>> 3))
    + schedule.getD (i - 7) 0
    + (rotateRight y 17 ^^^ rotateRight y 19 ^^^ (y >>> 10))

/-- One word for each round: those of the block at `offset`, and 48 that follow from them. -/
def schedule (message : ByteArray) (offset : Nat) : Array UInt32 :=
  let block := (Array.range 16).map fun i => (message.wordAt (offset + 4 * i)).value .big
  (List.range' 16 48).foldl (fun words i => words.push (nextWord words i)) block

/-- One round, with its constant and its word added up. -/
def round (s : State) (k : UInt32) : State :=
  let t1 := s.h + (rotateRight s.e 6 ^^^ rotateRight s.e 11 ^^^ rotateRight s.e 25)
    + ((s.e &&& s.f) ^^^ (~~~s.e &&& s.g)) + k
  let t2 := (rotateRight s.a 2 ^^^ rotateRight s.a 13 ^^^ rotateRight s.a 22)
    + ((s.a &&& s.b) ^^^ (s.a &&& s.c) ^^^ (s.b &&& s.c))
  ⟨t1 + t2, s.a, s.b, s.c, s.d + t1, s.e, s.f, s.g⟩

/-- Mix the block at `offset` into the state. -/
def compress (message : ByteArray) (s : State) (offset : Nat) : State :=
  let words := schedule message offset
  s.add ((List.range 64).foldl (fun s i => round s (constants.getD i 0 + words.getD i 0)) s)

/-- The message with a set bit, zeros, and its length in bits as eight bytes: whole blocks. -/
def pad (message : ByteArray) : ByteArray :=
  -- the set bit and the length take nine bytes, and 119 is two blocks less nine
  let bits := 8 * message.size
  let zeros := (119 - message.size % 64) % 64
  message.push 0x80 ++ .replicate zeros 0
    ++ (Word.encode (.ofNat (bits / 0x100000000)) .big).toBytes
    ++ (Word.encode (.ofNat bits) .big).toBytes

/-- The digest of a message. -/
def digest (message : ByteArray) : ByteArray :=
  let padded := pad message
  let blocks := List.range (padded.size / 64)
  let state := blocks.foldl (fun s i => compress padded s (64 * i)) .initial
  state.toList.foldl (fun out w => out ++ (Word.encode w .big).toBytes) .empty

/-- The digest of a message in hexadecimal digits. -/
def hexDigest (message : ByteArray) : String :=
  Hex.bytes (digest message)

/-- Padding makes whole blocks. -/
theorem size_pad (message : ByteArray) : (pad message).size % 64 = 0 := by
  have h (w : Word) : w.toBytes.size = 4 := rfl
  simp only [pad, ByteArray.size_append, ByteArray.size_push, ByteArray.size_replicate, h]
  omega

end ConfigArea.Sha256
