import MipsLowering.Source.ValueType

/-!
# Machine operations

The operations that lowering selects, as the assembler names them; some of them (`li`, `la`, `move`,
`mul` with three registers) are the assembler's own and stand for one or more machine words.

Registers are known by name, and addresses are a label of the data section or the content of a base
register.
-/

namespace MipsLowering

/-- A register, by its name in the listing. -/
abbrev Register := String

/-- Operations on two registers with the result in a third. -/
inductive AluOp where
  | add
  | addu
  | sub
  | mul
  | and
  | or
  | slt
  | sltu
  deriving Repr, DecidableEq

/-- The assembler's name of an operation on registers. -/
def AluOp.mnemonic : AluOp → String
  | .add => "add"
  | .addu => "addu"
  | .sub => "sub"
  | .mul => "mul"
  | .and => "and"
  | .or => "or"
  | .slt => "slt"
  | .sltu => "sltu"

/-- Operations on a register and a constant with the result in another register. -/
inductive ImmOp where
  | addiu
  | sltiu
  | xori
  deriving Repr, DecidableEq

/-- The assembler's name of an operation with a constant. -/
def ImmOp.mnemonic : ImmOp → String
  | .addiu => "addiu"
  | .sltiu => "sltiu"
  | .xori => "xori"

/-- Where a load or store finds its cell. -/
inductive Address where
  /-- At a label of the data section. -/
  | label (name : String)
  /-- At the address held by a base register. -/
  | base (register : Register)
  deriving Repr, DecidableEq

/-- The spelling of an address. -/
def Address.text : Address → String
  | .label name => name
  | .base register => "0(" ++ register ++ ")"

/-- The assembler's name of a load. -/
def Width.loadMnemonic : Width → String
  | .byte => "lb"
  | .word => "lw"

/-- The assembler's name of a store. -/
def Width.storeMnemonic : Width → String
  | .byte => "sb"
  | .word => "sw"

/-- A machine operation. -/
inductive Op where
  /-- An operation on two registers. -/
  | alu (op : AluOp) (dest left right : Register)
  /-- An operation on a register and a constant. -/
  | aluImm (op : ImmOp) (dest source : Register) (value : Int)
  /-- Divides; the quotient goes to the register LO. -/
  | div (left right : Register)
  /-- Fetches the register LO. -/
  | mflo (dest : Register)
  /-- Loads a constant, spelled as in the source. -/
  | li (dest : Register) (value : String)
  /-- Loads the address of a label. -/
  | la (dest : Register) (label : String)
  /-- Copies a register. -/
  | move (dest source : Register)
  /-- Loads from memory. -/
  | load (width : Width) (dest : Register) (address : Address)
  /-- Stores to memory. -/
  | store (width : Width) (source : Register) (address : Address)
  /-- Copies a register to a floating-point register. -/
  | mtc1 (source dest : Register)
  /-- Jumps if a register is not zero. -/
  | bnez (register : Register) (label : String)
  /-- Jumps if two registers are equal. -/
  | beq (left right : Register) (label : String)
  /-- Jumps. -/
  | j (label : String)
  /-- Jumps and leaves the return address in the link register. -/
  | jal (label : String)
  /-- Jumps to the address in a register. -/
  | jr (register : Register)
  /-- Asks the console for a service. -/
  | syscall
  /-- Any other operation, by its name and operands; operands that are absent are not written. -/
  | other (mnemonic : String) (operands : List (Option String))
  deriving Repr, DecidableEq

namespace Op

/-- The assembler's name of an operation. -/
def mnemonic : Op → String
  | .alu op _ _ _ => op.mnemonic
  | .aluImm op _ _ _ => op.mnemonic
  | .div _ _ => "div"
  | .mflo _ => "mflo"
  | .li _ _ => "li"
  | .la _ _ => "la"
  | .move _ _ => "move"
  | .load width _ _ => width.loadMnemonic
  | .store width _ _ => width.storeMnemonic
  | .mtc1 _ _ => "mtc1"
  | .bnez _ _ => "bnez"
  | .beq _ _ _ => "beq"
  | .j _ => "j"
  | .jal _ => "jal"
  | .jr _ => "jr"
  | .syscall => "syscall"
  | .other mnemonic _ => mnemonic

/-- The operands of an operation as the listing writes them. -/
def operands : Op → List String
  | .alu _ dest left right => [dest, left, right]
  | .aluImm _ dest source value => [dest, source, toString value]
  | .div left right => [left, right]
  | .mflo dest => [dest]
  | .li dest value => [dest, value]
  | .la dest label => [dest, label]
  | .move dest source => [dest, source]
  | .load _ dest address => [dest, address.text]
  | .store _ source address => [source, address.text]
  | .mtc1 source dest => [source, dest]
  | .bnez register label => [register, label]
  | .beq left right label => [left, right, label]
  | .j label => [label]
  | .jal label => [label]
  | .jr register => [register]
  | .syscall => []
  | .other _ operands => operands.filterMap id

end Op

end MipsLowering
