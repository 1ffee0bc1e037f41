/-!
# Hexadecimal text

Numbers and bytes as the messages and answers of the library write them: lower case, numbers
behind `0x`.
-/

namespace ConfigArea.Hex

/-- The digits of `n`, as few as possible. -/
def digits (n : Nat) : List Char :=
  Nat.toDigits 16 n

/-- At least `width` digits of `n`, filled with zeros on the left. -/
def padded (width n : Nat) : List Char :=
  List.replicate (width - (digits n).length) '0' ++ digits n

/-- A number behind `0x`, as few digits as possible. -/
def number (n : Nat) : String :=
  String.ofList ('0' :: 'x' :: digits n)

/-- An address behind `0x`, in full width. -/
def address (n : UInt32) : String :=
  String.ofList ('0' :: 'x' :: padded 8 n.toNat)

/-- Two digits for each byte. -/
def bytes (b : ByteArray) : String :=
  String.ofList (b.data.toList.flatMap fun x => padded 2 x.toNat)

end ConfigArea.Hex
