import HexAsm.Machine.Register
import HexAsm.Machine.Word

/-!
# Faults

Why a line of assembly or a word of an image cannot be converted, and the wording of each reason.
-/

namespace HexAsm

/-! ## Faults of a line -/

/-- What is wrong with the operands of a known operation. -/
inductive OperandFault where
  | commentOperands
  | registerCount (expected found : Nat)
  | operandCount (least most found : Nat)
  | emptyOperand
  | missingComma (token : String)
  | strayComma (token : String)
  | longRegister (token : String)
  | readOnlyDestination (register : Register)
  | literalForbidden
  | literalMissing
  | immediateAtJump
  | immediateAtLoad
  | immediateWithoutLiteral
  deriving DecidableEq

/-- The wording of a fault. -/
def OperandFault.message : OperandFault → String
  | .commentOperands => "a comment carries no operands"
  | .registerCount expected found =>
    "expected " ++ toString expected ++ " register operand(s), found " ++ toString found
  | .operandCount least most found =>
    let range := if least = most then toString least else toString least ++ " or " ++ toString most
    "expected " ++ range ++ " operand(s), found " ++ toString found
  | .emptyOperand => "empty operand"
  | .missingComma token => "expected ',' before `" ++ token ++ "`"
  | .strayComma token => "unexpected ',' before `" ++ token ++ "`"
  | .longRegister token => "register operand `" ++ token ++ "` must be a single digit"
  | .readOnlyDestination register => "register " ++ register.digit.toString ++ " cannot be written"
  | .literalForbidden => "takes no literal"
  | .literalMissing => "missing literal payload"
  | .immediateAtJump => "register F conflicts with the jump address in the payload"
  | .immediateAtLoad => "register F conflicts with the loaded value in the payload"
  | .immediateWithoutLiteral => "register F needs a literal payload"

/-- Why a line stands for no instruction. -/
inductive LineFault where
  | unknownMnemonic (name : String)
  | operands (mnemonic : String) (fault : OperandFault)
  | register (token : String)
  | literal (token : String)
  deriving DecidableEq

/-- The wording of a fault. -/
def LineFault.message : LineFault → String
  | .unknownMnemonic name => "unknown mnemonic `" ++ name ++ "`"
  | .operands mnemonic fault => "malformed operands for " ++ mnemonic ++ ": " ++ fault.message
  | .register token => "invalid register `" ++ token ++ "` (expected 1-9 or A-F)"
  | .literal token => "invalid literal `" ++ token ++ "` (expected 1 to 4 hex digits)"

/-! ## Faults of a word -/

/-- Why a text is no word, or a word stands for no instruction. -/
inductive WordFault where
  | width (text : String)
  | digits (text : String)
  | emptySlot (word : Word) (slot : Slot) (mnemonic : String)
  | unknownCode (word : Word)
  deriving DecidableEq

/-- The wording of a fault. -/
def WordFault.message : WordFault → String
  | .width text => "malformed word `" ++ text ++ "`: expected exactly 8 hex digits"
  | .digits text => "malformed word `" ++ text ++ "`: contains a non-hex character"
  | .emptySlot word slot mnemonic =>
    "malformed word `" ++ word.text ++ "`: " ++ slot.name ++ " register slot of " ++ mnemonic ++ " is empty"
  | .unknownCode word =>
    "unknown opcode `" ++ (Hex.digit word.code.toNat).toString ++ "` in word `" ++ word.text ++ "`"

/-! ## Kinds -/

/-- The kinds of fault that reports tell apart. -/
inductive FaultKind where
  | unknownMnemonic
  | malformedOperands
  | invalidRegister
  | invalidLiteral
  | malformedWord
  | unknownOpcode
  deriving DecidableEq

/-- The name of a kind in reports and logs. -/
def FaultKind.name : FaultKind → String
  | .unknownMnemonic => "UnknownMnemonic"
  | .malformedOperands => "MalformedOperands"
  | .invalidRegister => "InvalidRegister"
  | .invalidLiteral => "InvalidLiteral"
  | .malformedWord => "MalformedWord"
  | .unknownOpcode => "UnknownOpcode"

/-- The kind of a fault. -/
def LineFault.kind : LineFault → FaultKind
  | .unknownMnemonic _ => .unknownMnemonic
  | .operands _ _ => .malformedOperands
  | .register _ => .invalidRegister
  | .literal _ => .invalidLiteral

/-- The kind of a fault. -/
def WordFault.kind : WordFault → FaultKind
  | .width _ | .digits _ | .emptySlot _ _ _ => .malformedWord
  | .unknownCode _ => .unknownOpcode

/-- A fault on either side of the conversion. -/
inductive Fault where
  | line (fault : LineFault)
  | word (fault : WordFault)
  deriving DecidableEq

/-- The wording of a fault. -/
def Fault.message : Fault → String
  | .line f => f.message
  | .word f => f.message

/-- The kind of a fault. -/
def Fault.kind : Fault → FaultKind
  | .line f => f.kind
  | .word f => f.kind

end HexAsm
