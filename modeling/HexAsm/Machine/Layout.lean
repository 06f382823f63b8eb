import HexAsm.Machine.Word

/-!
# Operations and their layouts

A layout says how an operation is written and packed: its mnemonic, its code, where each register operand goes, what
the payload means, and which slot always holds the same value.
-/

namespace HexAsm

/-- What a line asks the machine to do. -/
inductive Operation where
  | jump
  | jumpIfZero
  | jumpIfNegative
  | add
  | subtract
  | multiply
  | divide
  | store
  | input
  | plot
  | clearScreen
  | loadConstant
  | load
  /-- A blank line or a comment, which stands for no word. -/
  | comment
  deriving DecidableEq

/-- The part that a register plays in an operation. -/
inductive Role where
  | compared
  | destination
  | sourceA
  | sourceB
  | data
  | address
  deriving DecidableEq

/-- The operation writes the register. -/
def Role.writes (r : Role) : Bool := r == .destination

/-- What stands before an operand. The first operand always follows a space. -/
inductive Separator where
  | space
  | comma
  deriving DecidableEq

/-- A register operand: its part in the operation, its slot, and what is written before it. -/
structure Operand where
  role : Role
  slot : Slot
  separator : Separator
  deriving DecidableEq

/-- What the payload of a word means. -/
inductive PayloadRule where
  /-- Always zero; no literal may be written. -/
  | forbidden
  /-- A jump target; the literal must be written. -/
  | address
  /-- A loaded constant; the literal must be written. -/
  | value
  /-- The value of every operand `F`; the literal may be left out if there is none. -/
  | immediate
  deriving DecidableEq

/-- The least and the greatest number of operands written for `registers` register operands. -/
def PayloadRule.arity (p : PayloadRule) (registers : Nat) : Nat × Nat :=
  match p with
  | .forbidden => (registers, registers)
  | .address | .value => (registers + 1, registers + 1)
  | .immediate => (registers, registers + 1)

/-- How an operation is written and packed. -/
structure Layout where
  operation : Operation
  mnemonic : String
  code : UInt8
  operands : List Operand
  payload : PayloadRule
  /-- A slot that always holds the same value. -/
  fixed : Option (Slot × UInt8)
  deriving DecidableEq

namespace Layout

/-! ## The operation table -/

/-- Two compared registers, joined by a comma. -/
def compares : List Operand := [⟨.compared, .r2, .space⟩, ⟨.compared, .r1, .comma⟩]

/-- Two sources, joined by a comma, and the destination. -/
def combines : List Operand :=
  [⟨.sourceA, .r2, .space⟩, ⟨.sourceB, .r1, .comma⟩, ⟨.destination, .n, .space⟩]

/-- One destination. -/
def sets : List Operand := [⟨.destination, .n, .space⟩]

/-- Jumps hold `F` in the slot N. -/
def jumpMark : Option (Slot × UInt8) := some (.n, 0xF)

/-- The layouts of all operations, by code. -/
def all : List Layout :=
  [⟨.jump, "JMP", 0x1, [], .address, jumpMark⟩,
    ⟨.jumpIfZero, "JMZ", 0x2, compares, .address, jumpMark⟩,
    ⟨.jumpIfNegative, "JNG", 0x3, compares, .address, jumpMark⟩,
    ⟨.add, "ADD", 0x4, combines, .immediate, none⟩,
    ⟨.subtract, "SUB", 0x5, combines, .immediate, none⟩,
    ⟨.multiply, "MUL", 0x6, combines, .immediate, none⟩,
    ⟨.divide, "DIV", 0x7, combines, .immediate, none⟩,
    ⟨.store, "WTR", 0x8, [⟨.data, .r2, .space⟩, ⟨.address, .r1, .space⟩], .immediate, none⟩,
    ⟨.input, "INP", 0x9, sets, .forbidden, none⟩,
    ⟨.plot, "WOP", 0xA, [⟨.data, .r2, .space⟩, ⟨.address, .r1, .comma⟩], .immediate, none⟩,
    ⟨.clearScreen, "RES", 0xB, [], .forbidden, none⟩,
    ⟨.loadConstant, "LDI", 0xC, sets, .value, none⟩,
    ⟨.load, "LDR", 0xD, [⟨.destination, .n, .space⟩, ⟨.address, .r1, .space⟩], .immediate, none⟩]

/-! ## Look-up -/

/-- The layout with the given mnemonic. The case of ASCII letters does not matter. -/
def ofMnemonic? (name : List Char) : Option Layout :=
  all.find? fun l => l.mnemonic.toList == name.map Char.toUpper

/-- The layout with the given operation code. -/
def ofCode? (code : UInt8) : Option Layout := all.find? fun l => l.code == code

/-! ## Parts of the word -/

/-- The least and the greatest number of operands written after the mnemonic. -/
def arity (l : Layout) : Nat × Nat := l.payload.arity l.operands.length

/-- The parts of a word that the layout gives a meaning. -/
def used (l : Layout) : Mask :=
  let slots := l.operands.map (·.slot) ++ (l.fixed.map (·.1)).toList
  { slots.foldl Mask.add Mask.empty with payload := l.payload != .forbidden }

end Layout

/-- The layout of an operation; a comment has none. -/
def Operation.layout? (op : Operation) : Option Layout := Layout.all.find? fun l => l.operation == op

end HexAsm
