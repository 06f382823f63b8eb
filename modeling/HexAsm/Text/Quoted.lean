import HexAsm.Text.Unprintable

/-!
# Quoted text

A text between quotation marks, in which every character is visible: some controls have a short escape, and the
other unprintable characters are shown by their code point in braces.
-/

namespace HexAsm.Text

/-- A code point in braces, in lower-case hexadecimal. -/
def codePoint (c : Char) : List Char :=
  ['\\', 'u', '\x7b'] ++ Nat.toDigits 16 c.toNat ++ ['\x7d']

/-- A character inside a quoted text. -/
def quoteChar (c : Char) : List Char :=
  match c with
  | '\x00' => ['\\', '0']
  | '\t' => ['\\', 't']
  | '\r' => ['\\', 'r']
  | '\n' => ['\\', 'n']
  | '\\' => ['\\', '\\']
  | '"' => ['\\', '"']
  | c => if isUnprintable c then codePoint c else [c]

/-- A text between quotation marks. -/
def quote (s : String) : String := String.ofList ('"' :: s.toList.flatMap quoteChar ++ ['"'])

/-! ## Terminal controls -/

/-- A character that a terminal could take for a command is shown by its number; all others stand for themselves. -/
def disarmChar (c : Char) : List Char :=
  if c.toNat = 0x7 ∨ c.toNat = 0x8 ∨ c.toNat = 0xC ∨ c.toNat = 0x1B ∨ c.toNat = 0x7F then
    ['\\', 'x'] ++ (if c.toNat < 16 then ['0'] else []) ++ Nat.toDigits 16 c.toNat
  else if 0x80 ≤ c.toNat ∧ c.toNat ≤ 0x9F then codePoint c
  else [c]

/-- The text with its terminal controls shown by number. -/
def disarm (s : String) : String := String.ofList (s.toList.flatMap disarmChar)

end HexAsm.Text
