import HexAsm.Text.Hex

/-!
# Machine words

A word has 32 bits: from the left an operation code and three register slots of four bits each, then a payload
of sixteen bits. It is written as eight hexadecimal digits.
-/

namespace HexAsm

/-- The register slots of a word, from the left. -/
inductive Slot where
  | n
  | r2
  | r1
  deriving DecidableEq

/-- The position of a slot among the digits of a word; the operation code is at position 0. -/
def Slot.position : Slot → Nat
  | .n => 1
  | .r2 => 2
  | .r1 => 3

/-- The value of a one in a slot. -/
def Slot.weight : Slot → Nat
  | .n => 0x1000000
  | .r2 => 0x100000
  | .r1 => 0x10000

/-- The name that messages use for a slot. -/
def Slot.name : Slot → String
  | .n => "N"
  | .r2 => "R2"
  | .r1 => "R1"

/-! ## Masks -/

/-- A choice among the parts of a word that follow the operation code. -/
structure Mask where
  n : Bool
  r2 : Bool
  r1 : Bool
  payload : Bool
  deriving DecidableEq

namespace Mask

/-- The choice of no part. -/
def empty : Mask := ⟨false, false, false, false⟩

/-- The choice of every part. -/
def all : Mask := ⟨true, true, true, true⟩

/-- The mask chooses the slot. -/
def has (m : Mask) : Slot → Bool
  | .n => m.n
  | .r2 => m.r2
  | .r1 => m.r1

/-- The mask with one slot more. -/
def add (m : Mask) : Slot → Mask
  | .n => { m with n := true }
  | .r2 => { m with r2 := true }
  | .r1 => { m with r1 := true }

/-- The parts that both masks choose. -/
def inter (a b : Mask) : Mask := ⟨a.n && b.n, a.r2 && b.r2, a.r1 && b.r1, a.payload && b.payload⟩

/-- A mask as a number: the bits of N, R2, R1 and the payload, lowest first. -/
def bits (m : Mask) : Nat := m.n.toNat + 2 * m.r2.toNat + 4 * m.r1.toNat + 8 * m.payload.toNat

/-- The mask with the given bits; bits above the fourth have no meaning. -/
def ofBits (b : Nat) : Mask := ⟨b.testBit 0, b.testBit 1, b.testBit 2, b.testBit 3⟩

end Mask

/-! ## Words -/

/-- A machine word. -/
structure Word where
  raw : UInt32
  deriving DecidableEq

namespace Word

/-- The operation code. -/
def code (w : Word) : UInt8 := UInt8.ofNat (w.raw.toNat / 0x10000000)

/-- The content of a register slot. -/
def slot (w : Word) (s : Slot) : UInt8 := UInt8.ofNat (w.raw.toNat / s.weight % 16)

/-- The operation code and the contents of the slots, by position. -/
def nibbles (w : Word) : List UInt8 := [w.code, w.slot .n, w.slot .r2, w.slot .r1]

/-- The last sixteen bits. -/
def payload (w : Word) : UInt16 := UInt16.ofNat (w.raw.toNat % 0x10000)

/-- The word with the given parts; only the low four bits of the code and of each slot count. -/
def pack (code : UInt8) (slots : Slot → UInt8) (payload : UInt16) : Word :=
  ⟨UInt32.ofNat
    (code.toNat % 16 * 0x10000000 + (slots .n).toNat % 16 * Slot.n.weight +
      (slots .r2).toNat % 16 * Slot.r2.weight + (slots .r1).toNat % 16 * Slot.r1.weight + payload.toNat)⟩

theorem toNat_pack (c : UInt8) (f : Slot → UInt8) (p : UInt16) :
    (pack c f p).raw.toNat = c.toNat % 16 * 0x10000000 + (f .n).toNat % 16 * 0x1000000 +
      (f .r2).toNat % 16 * 0x100000 + (f .r1).toNat % 16 * 0x10000 + p.toNat := by
  have := p.toNat_lt
  simp only [pack, Slot.weight, UInt32.toNat_ofNat']
  omega

theorem code_pack (c : UInt8) (f : Slot → UInt8) (p : UInt16) :
    (pack c f p).code.toNat = c.toNat % 16 := by
  have := p.toNat_lt
  simp only [code, toNat_pack, UInt8.toNat_ofNat']
  omega

theorem slot_pack (c : UInt8) (f : Slot → UInt8) (p : UInt16) (s : Slot) :
    ((pack c f p).slot s).toNat = (f s).toNat % 16 := by
  have := p.toNat_lt
  cases s <;> simp only [slot, toNat_pack, Slot.weight, UInt8.toNat_ofNat'] <;> omega

theorem payload_pack (c : UInt8) (f : Slot → UInt8) (p : UInt16) : (pack c f p).payload = p := by
  have := p.toNat_lt
  apply UInt16.toNat_inj.mp
  simp only [payload, toNat_pack, UInt16.toNat_ofNat']
  omega

/-- A word is made of its parts. -/
theorem pack_parts (w : Word) : pack w.code w.slot w.payload = w := by
  have := w.raw.toNat_lt
  have h : (pack w.code w.slot w.payload).raw.toNat = w.raw.toNat := by
    rw [toNat_pack]
    simp only [code, slot, payload, Slot.weight, UInt8.toNat_ofNat', UInt16.toNat_ofNat']
    omega
  exact congrArg Word.mk (UInt32.toNat_inj.mp h)

/-- The word with every part outside the mask zeroed. The operation code stays. -/
def keep (w : Word) (m : Mask) : Word :=
  pack w.code (fun s => if m.has s then w.slot s else 0) (if m.payload then w.payload else 0)

/-- The number of digits in a written word. -/
def width : Nat := 8

/-- A word as it is written. -/
def text (w : Word) : String := String.ofList (Hex.digits width w.raw.toNat)

end Word

end HexAsm
