import HexAsm.Machine.Instruction

/-!
# Words of instructions

A legal instruction other than a comment has one word. A word has an instruction if its code is known and no
operand slot of its layout is zero; the parts that the layout does not use are not read.
-/

namespace HexAsm

/-- The value of a slot: the register of the operand in that slot, else the fixed value, else zero. -/
def Layout.fill (l : Layout) (regs : List Register) (s : Slot) : UInt8 :=
  match (l.operands.zip regs).find? fun p => p.1.slot == s with
  | some p => p.2.nibble
  | none => ((l.fixed.filter fun f => f.1 == s).map (·.2)).getD 0

namespace Instruction

/-- The word of a legal instruction; a comment has none. A missing literal leaves the payload zero. -/
def toWord (i : Instruction) : Except LineFault (Option Word) :=
  i.legal.map fun i =>
    i.op.layout?.map fun l => Word.pack l.code (l.fill i.regs) (i.literal.getD 0)

/-- The register in an operand slot of a word. -/
def readSlot (w : Word) (l : Layout) (o : Operand) : Except WordFault Register :=
  match Register.ofNibble? (w.slot o.slot) with
  | some r => .ok r
  | none => .error (.emptySlot w o.slot l.mnemonic)

/-- The instruction that a word stands for. -/
def ofWord (w : Word) : Except WordFault Instruction :=
  match Layout.ofCode? w.code with
  | none => .error (.unknownCode w)
  | some l =>
    (l.operands.mapM (readSlot w l)).map fun regs =>
      ⟨l.operation, regs, if l.payload = .forbidden then none else some w.payload⟩

end Instruction

/-- The word that a text of eight digits stands for. -/
def Word.ofText (s : String) : Except WordFault Word :=
  if s.length = Word.width then
    match Hex.number? s.toList with
    | some n => .ok ⟨UInt32.ofNat n⟩
    | none => .error (.digits s)
  else .error (.width s)

end HexAsm
