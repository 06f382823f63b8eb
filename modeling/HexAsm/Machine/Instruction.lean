import HexAsm.Machine.Fault
import HexAsm.Machine.Layout

/-!
# Instructions

An instruction is an operation with its registers and its literal. It is legal if its operands obey the layout of
the operation.
-/

namespace HexAsm

/-- An operation with its operands, which may be any; `Instruction.fault?` compares them with the layout. -/
structure Instruction where
  op : Operation
  regs : List Register
  literal : Option UInt16
  deriving DecidableEq

/-! ## Operands under a layout -/

namespace Layout

/-- The number of registers differs from the number of operands. -/
def countFault? (l : Layout) (regs : List Register) : Option OperandFault :=
  if regs.length = l.operands.length then none
  else some (.registerCount l.operands.length regs.length)

/-- The first operand that is written and holds a read-only register. -/
def writeFault? (l : Layout) (regs : List Register) : Option OperandFault :=
  (l.operands.zip regs).findSome? fun (o, r) =>
    if o.role.writes && r.readOnly then some (.readOnlyDestination r) else none

/-- The literal, or a register that reads the payload, does not suit the payload rule. -/
def payloadFault? (l : Layout) (regs : List Register) (literal : Option UInt16) :
    Option OperandFault :=
  match l.payload, literal with
  | .forbidden, some _ => some .literalForbidden
  | .forbidden, none => none
  | .address, none => some .literalMissing
  | .address, some _ => if .immediate ∈ regs then some .immediateAtJump else none
  | .value, none => some .literalMissing
  | .value, some _ => if .immediate ∈ regs then some .immediateAtLoad else none
  | .immediate, none => if .immediate ∈ regs then some .immediateWithoutLiteral else none
  | .immediate, some _ => none

/-- The first fault of the operands: their count, then what is written, then the payload. -/
def fault? (l : Layout) (regs : List Register) (literal : Option UInt16) : Option OperandFault :=
  (l.countFault? regs).or ((l.writeFault? regs).or (l.payloadFault? regs literal))

end Layout

/-! ## Legality -/

namespace Instruction

/-- The instruction of a line that stands for no word. -/
def comment : Instruction := ⟨.comment, [], none⟩

/-- The instruction stands for no word. -/
def isComment (i : Instruction) : Bool := i.op == .comment

/-- What keeps the instruction from being legal. -/
def fault? (i : Instruction) : Option LineFault :=
  match i.op.layout? with
  | some l => (l.fault? i.regs i.literal).map (.operands l.mnemonic)
  | none => if i.regs = [] ∧ i.literal = none then none else some (.operands ";" .commentOperands)

/-- The instruction, if it is legal. -/
def legal (i : Instruction) : Except LineFault Instruction :=
  match i.fault? with
  | some f => .error f
  | none => .ok i

end Instruction

end HexAsm
