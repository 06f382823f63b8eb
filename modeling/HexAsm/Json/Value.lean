/-!
# JSON values and their layout

A value is laid out over several lines, two spaces for each level, in the order in which its parts are given. Nothing
keeps the names of an object apart.
-/

namespace HexAsm.Json

/-- A JSON value without booleans and fractions. -/
inductive Value where
  | null
  | number (n : Nat)
  | string (s : String)
  | array (items : List Value)
  | object (members : List (String × Value))

/-! ## Strings -/

/-- A character inside a string. Only quotation marks, backslashes and controls are escaped. -/
def stringChar (c : Char) : List Char :=
  match c with
  | '"' => ['\\', '"']
  | '\\' => ['\\', '\\']
  | '\x08' => ['\\', 'b']
  | '\t' => ['\\', 't']
  | '\n' => ['\\', 'n']
  | '\x0c' => ['\\', 'f']
  | '\r' => ['\\', 'r']
  | c =>
    if c.toNat < 0x20 then
      ['\\', 'u', '0', '0', (c.toNat / 16).digitChar, (c.toNat % 16).digitChar]
    else [c]

/-- A string between quotation marks. -/
def stringChars (s : String) : List Char := '"' :: s.toList.flatMap stringChar ++ ['"']

/-! ## Layout -/

/-- A line end and the indentation of a level. -/
def newLine (level : Nat) : List Char := '\n' :: List.replicate (2 * level) ' '

mutual

/-- A value on a level. -/
def layoutValue (level : Nat) : Value → List Char
  | .null => ['n', 'u', 'l', 'l']
  | .number n => Nat.toDigits 10 n
  | .string s => stringChars s
  | .array [] => ['[', ']']
  | .array (v :: vs) =>
    '[' :: newLine (level + 1) ++ layoutValue (level + 1) v ++ layoutItems (level + 1) vs ++
      newLine level ++ [']']
  | .object [] => ['\x7b', '\x7d']
  | .object (m :: ms) =>
    '\x7b' :: newLine (level + 1) ++ layoutMember (level + 1) m ++ layoutMembers (level + 1) ms ++
      newLine level ++ ['\x7d']

/-- The items of an array after the first. -/
def layoutItems (level : Nat) : List Value → List Char
  | [] => []
  | v :: vs => ',' :: newLine level ++ layoutValue level v ++ layoutItems level vs

/-- A member of an object. -/
def layoutMember (level : Nat) : String × Value → List Char
  | (name, v) => stringChars name ++ [':', ' '] ++ layoutValue level v

/-- The members of an object after the first. -/
def layoutMembers (level : Nat) : List (String × Value) → List Char
  | [] => []
  | m :: ms => ',' :: newLine level ++ layoutMember level m ++ layoutMembers level ms

end

/-- A value laid out over several lines. -/
def Value.text (v : Value) : String := String.ofList (layoutValue 0 v)

end HexAsm.Json
