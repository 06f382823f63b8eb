/-!
# Hexadecimal digits

Digits are read in either case and written in upper case. Only the ASCII digits and letters count.
-/

namespace HexAsm.Hex

/-- The sixteen digits as they are written. -/
def alphabet : List Char :=
  ['0', '1', '2', '3', '4', '5', '6', '7', '8', '9', 'A', 'B', 'C', 'D', 'E', 'F']

/-- The digit of a value below sixteen; any other value gives `0`. -/
def digit (n : Nat) : Char := alphabet.getD n '0'

/-- The value of a digit in either case. -/
def digit? (c : Char) : Option Nat :=
  if '0' ≤ c ∧ c ≤ '9' then some (c.toNat - '0'.toNat)
  else if 'A' ≤ c ∧ c ≤ 'F' then some (c.toNat - 'A'.toNat + 10)
  else if 'a' ≤ c ∧ c ≤ 'f' then some (c.toNat - 'a'.toNat + 10)
  else none

/-- The last `width` digits of `n`, most significant first. -/
def digits : (width : Nat) → (n : Nat) → List Char
  | 0, _ => []
  | width + 1, n => digits width (n / 16) ++ [digit (n % 16)]

theorem digit?_digit {n : Nat} (h : n < 16) : digit? (digit n) = some n := by
  have all : ∀ m : Fin 16, digit? (digit m) = some m.val := by decide
  exact all ⟨n, h⟩

theorem digits_length (width n : Nat) : (digits width n).length = width := by
  induction width generalizing n with
  | zero => rfl
  | succ width ih => simp [digits, ih]

/-- The number that a sequence of digits stands for, most significant first. -/
def number (ds : List Nat) : Nat := ds.foldl (fun v d => 16 * v + d) 0

/-- The number that a text of digits stands for; `none` if another character occurs. -/
def number? (cs : List Char) : Option Nat := (cs.mapM digit?).map number

end HexAsm.Hex
