import HexAsm.Json.Scan

/-!
# JSON numerals

A numeral is read into its parts, and the parts stand for an integer of 64 bits where they can, and for a double
otherwise.
-/

namespace HexAsm.Json

/-! ## Parts -/

/-- The parts of a numeral: its sign, its whole digits, its fraction digits, and its exponent. -/
structure Numeral where
  negative : Bool
  whole : List Nat
  /-- The digits after the point, if there is one. -/
  fraction : Option (List Nat)
  /-- Whether the exponent is negative, and its digits, if there is one. -/
  exponent : Option (Bool × List Nat)

/-- The digits at the front of a text; there must be one. -/
def digitRun (cs : List Char) : Except Halt (List Nat × List Char) :=
  match cs.takeWhile Char.isDigit, cs.dropWhile Char.isDigit with
  | [], [] => .error .ended
  | [], _ :: _ => .error .malformed
  | d :: ds, rest => .ok ((d :: ds).map fun c => c.toNat - '0'.toNat, rest)

/-- The digits before the point. A zero stands alone. -/
def wholeDigits (cs : List Char) : Except Halt (List Nat × List Char) := do
  let (ds, rest) ← digitRun cs
  match ds with
  | 0 :: _ :: _ => .error .malformed
  | _ => .ok (ds, rest)

/-- The digits after a point, if there is one. -/
def fractionDigits (cs : List Char) : Except Halt (Option (List Nat) × List Char) :=
  match cs with
  | '.' :: rest => (digitRun rest).map fun (ds, rest) => (some ds, rest)
  | _ => .ok (none, cs)

/-- The sign of an exponent, which may be left out. -/
def exponentSign : List Char → Bool × List Char
  | '-' :: rest => (true, rest)
  | '+' :: rest => (false, rest)
  | cs => (false, cs)

/-- The exponent, if there is one. -/
def exponentDigits (cs : List Char) : Except Halt (Option (Bool × List Nat) × List Char) :=
  match cs with
  | c :: rest =>
    if c = 'e' ∨ c = 'E' then
      let (negative, rest) := exponentSign rest
      (digitRun rest).map fun (ds, rest) => (some (negative, ds), rest)
    else .ok (none, cs)
  | [] => .ok (none, cs)

/-- The numeral at the front of a text, after its sign. -/
def unsignedNumeral (negative : Bool) (cs : List Char) : Except Halt (Numeral × List Char) := do
  let (whole, rest) ← wholeDigits cs
  let (fraction, rest) ← fractionDigits rest
  let (exponent, rest) ← exponentDigits rest
  .ok (⟨negative, whole, fraction, exponent⟩, rest)

/-- The numeral at the front of a text. -/
def numeral (cs : List Char) : Except Halt (Numeral × List Char) :=
  match cs with
  | '-' :: rest => unsignedNumeral true rest
  | _ => unsignedNumeral false cs

/-! ## Values -/

/-- What a numeral stands for. -/
inductive Number where
  /-- An integer from 0 to 2 ^ 64 - 1. -/
  | natural (n : Nat)
  /-- The integer `-n`, for an `n` from 1 to 2 ^ 63. -/
  | negative (n : Nat)
  | double (x : Float)

/-- The number of decimal digits. -/
def decimal (ds : List Nat) : Nat := ds.foldl (fun v d => 10 * v + d) 0

/-- Appends digits to a significand while it stays below 2 ^ 64, and counts those that are left. -/
def appendDigits (significand : Nat) : List Nat → Nat × Nat
  | [] => (significand, 0)
  | d :: ds =>
    if 10 * significand + d < UInt64.size then appendDigits (10 * significand + d) ds
    else (significand, ds.length + 1)

/-- The double `x / 10 ^ e`. A large power is divided out in steps of 308. -/
def shrink (x : Float) (e : Nat) : Float :=
  if e ≤ 308 then x / Float.ofScientific 1 false e
  else if x == 0 then x
  else shrink (x / Float.ofScientific 1 false 308) (e - 308)
termination_by e

/-- The double `significand * 10 ^ exponent`; a number beyond the doubles is malformed. -/
def scaled (significand : Nat) (exponent : Int) : Except Halt Float :=
  let x := (UInt64.ofNat significand).toFloat
  if exponent < 0 then .ok (shrink x exponent.natAbs)
  else if exponent ≤ 308 then
    let y := x * Float.ofScientific 1 false exponent.toNat
    if y.isInf then .error .malformed else .ok y
  else if significand = 0 then .ok x
  else .error .malformed

/-- The magnitude of a numeral as a double. -/
def Numeral.magnitude (n : Numeral) : Except Halt Float :=
  let (whole, left) := appendDigits 0 n.whole
  let fraction := n.fraction.getD []
  let (significand, unused) := appendDigits whole fraction
  let shift : Int := (left : Int) - ((fraction.length - unused : Nat) : Int)
  match n.exponent with
  | none => scaled significand shift
  | some (negative, ds) =>
    let e := decimal ds
    if e < 0x80000000 then scaled significand (if negative then shift - e else shift + e)
    else if significand = 0 ∨ negative then .ok 0
    else .error .malformed

/-- The double that a numeral stands for. -/
def Numeral.double (n : Numeral) : Except Halt Number :=
  n.magnitude.map fun x => .double (if n.negative then -x else x)

/-- The number that a numeral stands for. Minus zero is a double. -/
def Numeral.value (n : Numeral) : Except Halt Number :=
  match n.fraction, n.exponent with
  | none, none =>
    let m := decimal n.whole
    if !n.negative && m < UInt64.size then .ok (.natural m)
    else if n.negative && 0 < m && m ≤ 0x8000000000000000 then .ok (.negative m)
    else n.double
  | _, _ => n.double

/-- The number at the front of a text. -/
def number (cs : List Char) : Except Halt (Number × List Char) := do
  let (n, rest) ← numeral cs
  .ok (← n.value, rest)

end HexAsm.Json
