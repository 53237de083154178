import MipsLowering.Assembly.Node

/-!
# Operators

The operators that have machine code, and that code.  Comparisons leave 1 or 0.  There is no machine
operation for "at most": it is the negation of the reverse comparison.  Two values are equal if their
difference is zero, which is the only number below 1 without sign.
-/

namespace MipsLowering

/-! ## Operators -/

/-- Operators with two operands. -/
inductive BinaryOp where
  | add
  | sub
  | mul
  | div
  | and
  | or
  | eq
  | ne
  | lt
  | le
  | gt
  | ge
  deriving Repr, DecidableEq

/-- Operators with one operand. -/
inductive UnaryOp where
  | neg
  | not
  deriving Repr, DecidableEq

namespace BinaryOp

/-- The spelling of an operator. -/
def symbol : BinaryOp → String
  | .add => "+"
  | .sub => "-"
  | .mul => "*"
  | .div => "/"
  | .and => "&&"
  | .or => "||"
  | .eq => "=="
  | .ne => "!="
  | .lt => "<"
  | .le => "<="
  | .gt => ">"
  | .ge => ">="

/-- Every operator. -/
def all : List BinaryOp :=
  [.add, .sub, .mul, .div, .and, .or, .eq, .ne, .lt, .le, .gt, .ge]

/-- The operator with a given spelling. -/
def ofSymbol? (s : String) : Option BinaryOp :=
  all.find? (·.symbol == s)

@[simp] theorem ofSymbol?_symbol (op : BinaryOp) : ofSymbol? op.symbol = some op := by
  cases op <;> decide

/-- The type of an operator's result. -/
def resultType : BinaryOp → ValueType
  | .add | .sub | .mul | .div => .int
  | _ => .bool

end BinaryOp

namespace UnaryOp

/-- The spelling of an operator. -/
def symbol : UnaryOp → String
  | .neg => "-"
  | .not => "!"

/-- The operator with a given spelling. -/
def ofSymbol? (s : String) : Option UnaryOp :=
  [.neg, .not].find? (·.symbol == s)

@[simp] theorem ofSymbol?_symbol (op : UnaryOp) : ofSymbol? op.symbol = some op := by
  cases op <;> decide

/-- The type of an operator's result. -/
def resultType : UnaryOp → ValueType
  | .neg => .int
  | .not => .bool

end UnaryOp

/-- The type of the result of an operator with two operands, by its spelling; integers for spellings
    without an operator. -/
def resultTypeOf (symbol : String) : ValueType :=
  ((BinaryOp.ofSymbol? symbol).map BinaryOp.resultType).getD .int

/-! ## Code -/

/-- The register that always holds zero. -/
def zeroRegister : Register := "$zero"

/-- An operation on registers with a comment. -/
def aluCode (op : AluOp) (dest left right : Register) (comment : String) : Instr :=
  ⟨.alu op dest left right, some comment⟩

/-- An operation with the constant 1 on the register that also takes the result. -/
def flipCode (op : ImmOp) (dest : Register) (comment : String) : Instr :=
  ⟨.aluImm op dest dest 1, some comment⟩

/-- The comment of an operation that writes `left op right` to `dest`. -/
def resultNote (dest left op right : String) : String :=
  dest ++ " = " ++ left ++ " " ++ op ++ " " ++ right

/-- The comment of a comparison that writes the truth of `left op right` to `dest`. -/
def truthNote (dest left op right : String) : String :=
  dest ++ " = (" ++ left ++ " " ++ op ++ " " ++ right ++ ")"

/-- The code that leaves the value of an operator on `left` and `right` in `dest`. -/
def BinaryOp.code (op : BinaryOp) (dest left right : Register) : List Instr :=
  match op with
  | .add => [aluCode .add dest left right (resultNote dest left "+" right)]
  | .sub => [aluCode .sub dest left right (resultNote dest left "-" right)]
  | .mul => [aluCode .mul dest left right (resultNote dest left "*" right)]
  | .div =>
    [⟨.div left right, some ("divide " ++ left ++ " / " ++ right)⟩,
      ⟨.mflo dest, some (dest ++ " = quotient")⟩]
  | .and => [aluCode .and dest left right (resultNote dest left "&&" right)]
  | .or => [aluCode .or dest left right (resultNote dest left "||" right)]
  | .eq =>
    [aluCode .sub dest left right (resultNote dest left "-" right),
      flipCode .sltiu dest (truthNote dest left "==" right)]
  | .ne =>
    [aluCode .sub dest left right (resultNote dest left "-" right),
      aluCode .sltu dest zeroRegister dest (truthNote dest left "!=" right)]
  | .lt => [aluCode .slt dest left right (truthNote dest left "<" right)]
  | .le =>
    [aluCode .slt dest right left (truthNote dest right "<" left),
      flipCode .xori dest (truthNote dest left "<=" right)]
  | .gt => [aluCode .slt dest right left (truthNote dest left ">" right)]
  | .ge =>
    [aluCode .slt dest left right (truthNote dest left "<" right),
      flipCode .xori dest (truthNote dest left ">=" right)]

/-- The code that leaves the value of an operator on `source` in `dest`.  Negation of a truth value
    flips its lowest bit. -/
def UnaryOp.code (op : UnaryOp) (dest source : Register) : List Instr :=
  match op with
  | .neg => [aluCode .sub dest zeroRegister source (dest ++ " = -" ++ source)]
  | .not => [⟨.aluImm .xori dest source 1, some (dest ++ " = !" ++ source)⟩]

end MipsLowering
