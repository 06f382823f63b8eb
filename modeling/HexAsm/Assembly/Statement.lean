import HexAsm.Assembly.Line
import HexAsm.Machine.Encoding

/-!
# Written instructions

The text of an instruction is its mnemonic, the digits of its registers behind their separators, and its literal as
four digits. A line is read in stages, and the first stage that fails decides the fault: the mnemonic, the number of
operands and the commas between them, the registers from left to right, the literal, and the rules of the operation.
-/

namespace HexAsm

open HexAsm.Text

/-! ## Writing -/

namespace Layout

/-- What stands before each register operand: a comma where the layout asks for one, but never before the first. -/
def separators (l : Layout) : List Char :=
  match l.operands with
  | [] => []
  | _ :: os => ' ' :: os.map fun o => if o.separator = .comma then ',' else ' '

end Layout

namespace Instruction

/-- The canonical text of an instruction; a comment has none. -/
def chars (i : Instruction) : List Char :=
  match i.op.layout? with
  | none => []
  | some l =>
    l.mnemonic.toList ++ ((l.separators.zip i.regs).flatMap fun (s, r) => [s, r.digit]) ++
      match i.literal with
      | some v => ' ' :: Hex.digits 4 v.toNat
      | none => []

/-- The canonical text of an instruction; a comment has none. -/
def text (i : Instruction) : String := String.ofList i.chars

end Instruction

/-! ## Operand tokens -/

/-- An operand as written, and whether a comma joins it to the one before. -/
structure Token where
  chars : List Char
  comma : Bool
  deriving DecidableEq

namespace Token

/-- The token as a text. -/
def text (t : Token) : String := String.ofList t.chars

/-- The tokens of a word: its pieces between commas, all but the first joined by a comma. -/
def ofWord (cs : List Char) : List Token :=
  match cs.splitOnP (· == ',') with
  | [] => []
  | t :: ts => ⟨t, false⟩ :: ts.map (⟨·, true⟩)

/-- The tokens of the text after the mnemonic. -/
def scan (cs : List Char) : List Token := (words cs).flatMap ofWord

end Token

namespace Layout

/-- The number of tokens is outside the arity of the layout. -/
def arityFault? (l : Layout) (ts : List Token) : Option OperandFault :=
  if l.arity.1 ≤ ts.length ∧ ts.length ≤ l.arity.2 then none
  else some (.operandCount l.arity.1 l.arity.2 ts.length)

/-- Some token has no character. -/
def emptyFault? (ts : List Token) : Option OperandFault :=
  if ts.any (·.chars.isEmpty) then some .emptyOperand else none

/-- The first token whose comma differs from the separator of its operand. A literal takes no comma. -/
def commaFault? : List Operand → List Token → Option OperandFault
  | _, [] => none
  | os, t :: ts =>
    let wanted := os.head?.any fun o => o.separator == .comma
    if t.comma = wanted then commaFault? os.tail ts
    else some (if wanted then .missingComma t.text else .strayComma t.text)

/-- The first fault in the shape of the operands: their number, then an empty one, then the commas. -/
def shapeFault? (l : Layout) (ts : List Token) : Option OperandFault :=
  (l.arityFault? ts).or ((emptyFault? ts).or (commaFault? l.operands ts))

/-- The register that a token names. -/
def readRegister (l : Layout) (t : Token) : Except LineFault Register :=
  match t.chars with
  | [c] =>
    match Register.ofDigit? c with
    | some r => .ok r
    | none => .error (.register t.text)
  | _ => .error (.operands l.mnemonic (.longRegister t.text))

end Layout

/-! ## Reading -/

/-- The most digits in a literal. -/
def literalWidth : Nat := 4

/-- The number that a literal of one to four digits stands for. -/
def readLiteral (cs : List Char) : Except LineFault UInt16 :=
  if cs ≠ [] ∧ cs.length ≤ literalWidth then
    match Hex.number? cs with
    | some n => .ok (UInt16.ofNat n)
    | none => .error (.literal (String.ofList cs))
  else .error (.literal (String.ofList cs))

namespace Instruction

/-- The instruction that tokens of the right shape stand for. -/
def ofTokens (l : Layout) (ts : List Token) : Except LineFault Instruction := do
  let regs ← (ts.take l.operands.length).mapM l.readRegister
  let literal ← (ts.drop l.operands.length).head?.mapM fun t => readLiteral t.chars
  legal ⟨l.operation, regs, literal⟩

/-- The instruction of a layout whose operands are the given text. -/
def ofOperands (l : Layout) (cs : List Char) : Except LineFault Instruction :=
  match l.shapeFault? (Token.scan cs) with
  | some f => .error (.operands l.mnemonic f)
  | none => ofTokens l (Token.scan cs)

/-- The instruction that a trimmed line stands for, if it is no comment. -/
def ofCode (cs : List Char) : Except LineFault Instruction :=
  let head := cs.takeWhile (!isBlank ·)
  match Layout.ofMnemonic? head with
  | none => .error (.unknownMnemonic (String.ofList head))
  | some l => ofOperands l (cs.drop head.length)

/-- The instruction that a line stands for. A comment is recognised at the start of the line only. -/
def ofLine (s : String) : Except LineFault Instruction :=
  let cs := trim s.toList
  if cs = [] ∨ Line.isComment cs then .ok comment else ofCode cs

end Instruction

/-- The word of a line; a blank line or a comment has none. -/
def Word.ofLine (s : String) : Except LineFault (Option Word) := do
  (← Instruction.ofLine s).toWord

/-- The canonical text of the instruction that a written word stands for. -/
def Instruction.textOfWord (s : String) : Except WordFault String := do
  return (← Instruction.ofWord (← Word.ofText s)).text

end HexAsm
