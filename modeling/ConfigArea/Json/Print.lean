/-!
# Printing JSON

A value is printed in one of two layouts: compact, without any blank, or indented, with one member
or item to a line and two blanks for each container around it. An empty container stays on its line.

* `escape_of_plain`: characters that need no escape stand for themselves
-/

namespace ConfigArea.Json

/-- How a value is laid out. -/
inductive Layout where
  /-- without blanks -/
  | compact
  /-- one line for each value in a container, of which `depth` are around -/
  | indented (depth : Nat)

/-- The layout inside a container. -/
def Layout.inner : Layout → Layout
  | compact => compact
  | indented depth => indented (depth + 1)

/-- What stands before a value on a line of its own. -/
def Layout.lineStart : Layout → List Char
  | compact => []
  | indented depth => '\n' :: List.replicate (2 * depth) ' '

/-- What stands between a key and its value. -/
def Layout.colon : Layout → List Char
  | compact => [':']
  | indented _ => [':', ' ']

/-- The text of a value in a layout. -/
abbrev Printer := Layout → List Char

/-- The four hexadecimal digits of an escaped control character. -/
def unitDigits (n : Nat) : List Char :=
  ['0', '0', Nat.digitChar (n / 16 % 16), Nat.digitChar (n % 16)]

/-- A character as it stands in a quoted text. -/
def escape (c : Char) : List Char :=
  match c with
  | '"' => ['\\', '"']
  | '\\' => ['\\', '\\']
  | '\x08' => ['\\', 'b']
  | '\x0c' => ['\\', 'f']
  | '\n' => ['\\', 'n']
  | '\r' => ['\\', 'r']
  | '\t' => ['\\', 't']
  | c => if c.toNat < 0x20 then '\\' :: 'u' :: unitDigits c.toNat else [c]

/-- A quoted text. -/
def quote (text : String) : List Char :=
  '"' :: text.toList.flatMap escape ++ ['"']

/-- Print a text. -/
def printString (text : String) : Printer := fun _ =>
  quote text

/-- Print a natural number. -/
def printNat (n : Nat) : Printer := fun _ =>
  Nat.toDigits 10 n

/-- Print null or a value. -/
def printOption {α : Type} (value : α → Printer) : Option α → Printer
  | none => fun _ => ['n', 'u', 'l', 'l']
  | some a => value a

/-- Print what stands between the brackets of a container: its parts, separated by commas. -/
def printParts (parts : List Printer) : Printer := fun layout =>
  match parts with
  | [] => []
  | part :: parts =>
    layout.inner.lineStart ++ part layout.inner
      ++ parts.flatMap (fun part => ',' :: layout.inner.lineStart ++ part layout.inner)
      ++ layout.lineStart

/-- Print a list. -/
def printList (items : List Printer) : Printer := fun layout =>
  '[' :: printParts items layout ++ [']']

/-- Print a member of an object. -/
def printMember (key : String) (value : Printer) : Printer := fun layout =>
  quote key ++ layout.colon ++ value layout

/-- Print an object. -/
def printObject (members : List (String × Printer)) : Printer := fun layout =>
  '{' :: printParts (members.map fun (key, value) => printMember key value) layout ++ ['}']

/-- The text of a document on one line. -/
def Printer.compact (value : Printer) : String :=
  .ofList (value .compact)

/-- The text of a document with one value to a line. -/
def Printer.indented (value : Printer) : String :=
  .ofList (value (.indented 0))

/-- Characters that need no escape stand for themselves. -/
theorem escape_of_plain {c : Char} (hq : c ≠ '"') (hb : c ≠ '\\') (hc : 0x20 ≤ c.toNat) :
    escape c = [c] := by
  have h : ∀ d : Char, d.toNat < 0x20 → c ≠ d := by
    rintro d hd rfl
    omega
  rw [escape.eq_8 c hq hb (h _ (by decide)) (h _ (by decide)) (h _ (by decide)) (h _ (by decide))
    (h _ (by decide)), if_neg (by omega)]

end ConfigArea.Json
