import HexAsm.Text.Hex

/-!
# Registers

An operand names a register by one hexadecimal digit. The digits `1` to `D` name the general registers, `E` reads
a fresh random value and `F` reads the payload of the word; the last two cannot be written.
-/

namespace HexAsm

/-- What a register operand names. An index outside 1 to 13 names no register of the machine, and no text or word
is read as one. -/
inductive Register where
  | numbered (index : UInt8)
  | random
  | immediate
  deriving DecidableEq

namespace Register

/-- The value that stands for the register in a slot. -/
def nibble : Register → UInt8
  | .numbered i => i
  | .random => 0xE
  | .immediate => 0xF

/-- The register that a slot value stands for. -/
def ofNibble? (v : UInt8) : Option Register :=
  if v = 0xE then some .random
  else if v = 0xF then some .immediate
  else if 1 ≤ v ∧ v ≤ 0xD then some (.numbered v)
  else none

/-- The register that a digit names, in either case. -/
def ofDigit? (c : Char) : Option Register :=
  (Hex.digit? c).bind fun v => ofNibble? (UInt8.ofNat v)

/-- The digit of the register; an index above fifteen is written `0`. -/
def digit (r : Register) : Char := Hex.digit r.nibble.toNat

/-- The register cannot be written. -/
def readOnly : Register → Bool
  | .numbered _ => false
  | .random | .immediate => true

end Register

end HexAsm
