/-!
# Shortest decimals

A double stands for every real number that rounds to it. Among the decimals in that interval, the shortest one is the
nearest to the double of those with the fewest digits.
-/

namespace HexAsm.Decimal

/-! ## Doubles -/

/-- The number `mantissa * 2 ^ exponent`. -/
structure Dyadic where
  mantissa : Nat
  exponent : Int

/-- The leading bit of the mantissa of a normal double, which its bits leave out. -/
def hiddenBit : Nat := 0x10000000000000

/-- The magnitude of a finite double. -/
def Dyadic.ofDouble (x : Float) : Dyadic :=
  let bits := x.toBits.toNat
  let fraction : Nat := bits % hiddenBit
  let biased : Nat := bits / hiddenBit % 0x800
  if biased = 0 then ⟨fraction, -1074⟩ else ⟨hiddenBit + fraction, (biased : Int) - 1075⟩

/-! ## The interval of a double -/

/-- A number and the ends of the interval that rounds to it, over a common denominator. -/
structure Interval where
  low : Nat
  value : Nat
  high : Nat
  denominator : Nat
  /-- The ends round to the number too. -/
  closed : Bool

/-- The interval that rounds to a double. It is narrower below a power of two, where the doubles are denser. -/
def Interval.ofDyadic (d : Dyadic) : Interval :=
  let scale := Nat.pow 2 (d.exponent - 2).toNat
  let margin := if d.mantissa = hiddenBit ∧ -1074 < d.exponent then 1 else 2
  { low := (4 * d.mantissa - margin) * scale
    value := 4 * d.mantissa * scale
    high := (4 * d.mantissa + 2) * scale
    denominator := Nat.pow 2 (2 - d.exponent).toNat
    closed := d.mantissa % 2 == 0 }

/-! ## Decimals -/

/-- The number `digits * 10 ^ exponent`. -/
structure Scaled where
  digits : Nat
  exponent : Int

namespace Interval

/-- The least power of ten above the number. -/
def magnitude (i : Interval) : Int :=
  (Nat.toDigits 10 (i.value * Nat.pow 10 400 / i.denominator)).length - 400

/-- The decimal with `count` digits that lies in the interval and is nearest to the number; an even last digit wins
a tie. -/
def nearest? (i : Interval) (count : Nat) : Option Scaled :=
  let exponent := i.magnitude - count
  let up := Nat.pow 10 exponent.toNat * i.denominator
  let down := Nat.pow 10 (-exponent).toNat
  let below := i.value * down / up
  let inside (d : Nat) : Bool :=
    if i.closed then i.low * down ≤ d * up && d * up ≤ i.high * down
    else i.low * down < d * up && d * up < i.high * down
  let gapBelow := i.value * down - below * up
  let gapAbove := (below + 1) * up - i.value * down
  let belowWins := gapBelow < gapAbove || (gapBelow == gapAbove && below % 2 == 0)
  if inside below && (belowWins || !inside (below + 1)) then some ⟨below, exponent⟩
  else if inside (below + 1) then some ⟨below + 1, exponent⟩
  else none

/-- The shortest decimal in the interval; seventeen digits are always enough for a double. -/
def shortest (i : Interval) : Scaled :=
  ((List.range' 1 17).findSome? i.nearest?).getD ⟨0, 0⟩

end Interval

/-- The shortest decimal for the magnitude of a finite double. -/
def shortest (x : Float) : Scaled := (Interval.ofDyadic (Dyadic.ofDouble x)).shortest

end HexAsm.Decimal
