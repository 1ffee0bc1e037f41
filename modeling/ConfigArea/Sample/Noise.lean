/-!
# Noise

Bytes without structure that can be made again from a seed, by three shifts of a state of 64 bits.
-/

namespace ConfigArea.Noise

/-- The state that a seed starts with; it is odd, so never zero. -/
def start (seed : UInt64) : UInt64 :=
  (seed * 0x9e3779b97f4a7c15) ||| 1

/-- The state after the given one. -/
def step (state : UInt64) : UInt64 :=
  let x := state ^^^ (state <<< 13)
  let y := x ^^^ (x >>> 7)
  y ^^^ (y <<< 17)

/-- Append `len` bytes that follow the state. -/
def extend : (len : Nat) → UInt64 → ByteArray → ByteArray
  | 0, _, out => out
  | len + 1, state, out =>
    let next := step state
    extend len next (out.push (next >>> 24).toUInt8)

/-- `len` bytes of noise. -/
def bytes (len : Nat) (seed : UInt64) : ByteArray :=
  extend len (start seed) .empty

end ConfigArea.Noise
