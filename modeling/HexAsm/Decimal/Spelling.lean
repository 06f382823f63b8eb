import HexAsm.Decimal.Shortest

/-!
# Spelling of doubles

A double is written with the digits of its shortest decimal, positionally if it is neither large nor small, and with
an exponent otherwise.
-/

namespace HexAsm.Decimal

/-- When a number is written positionally, and how its exponent is written otherwise. -/
structure Style where
  /-- The least position of the point, counted from the first digit, in positional form. -/
  pointFrom : Int
  /-- The greatest position of the point in positional form. -/
  pointTo : Int
  /-- The mark of a positive exponent. -/
  positiveMark : List Char

/-- The digits of a number without the zeros at its end. -/
def significant (n : Nat) : List Char :=
  ((Nat.toDigits 10 n).reverse.dropWhile (· == '0')).reverse

/-- Digits with the point at a position, counted from the first digit; at least one digit stands on each side. -/
def positional (digits : List Char) (point : Int) : List Char :=
  let padded := List.replicate (1 - point).toNat '0' ++ digits
  let left := (max point 1).toNat
  let whole := padded.take left
  let fraction := padded.drop left
  whole ++ List.replicate (left - whole.length) '0' ++ '.' :: (if fraction = [] then ['0'] else fraction)

/-- Digits with the point after the first one, and an exponent. -/
def scientific (style : Style) (digits : List Char) (exponent : Int) : List Char :=
  digits.take 1 ++ (if digits.length ≤ 1 then [] else '.' :: digits.drop 1) ++
    'e' :: (if exponent < 0 then ['-'] else style.positiveMark) ++ Nat.toDigits 10 exponent.natAbs

/-- The text of a finite double. -/
def spell (style : Style) (x : Float) : String :=
  let decimal := shortest x
  let digits := significant decimal.digits
  let point := (Nat.toDigits 10 decimal.digits).length + decimal.exponent
  let magnitude :=
    if x == 0 then ['0', '.', '0']
    else if style.pointFrom ≤ point ∧ point ≤ style.pointTo then positional digits point
    else scientific style digits (point - 1)
  let negative := 0x8000000000000000 ≤ x.toBits.toNat
  String.ofList (if negative then '-' :: magnitude else magnitude)

end HexAsm.Decimal
