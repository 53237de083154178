import MipsLowering.Operator
import MipsLowering.Pass

/-!
# Assignments

The target gets its register before the operands are fetched, and the result is written back to the
cell of the target if it has one.
-/

namespace MipsLowering.Lower

open Emit

/-- The operand of an assignment. -/
def operand (given : Option String) : Emit String :=
  match given with
  | some text => pure text
  | none => throw .missingOperand

/-- Assigns the result of an operator with two operands. -/
def binary (target : String) (left : Option String) (symbol right : String) : Emit Unit := do
  match BinaryOp.ofSymbol? symbol with
  | none => diagnose (.binaryOperator target (Stmt.operandText left) symbol right)
  | some o =>
    note target o.resultType
    let dest ← registerFor target
    let first ← materialize (← operand left) (some (← get).config.scratch0)
    let second ← materialize right (some (← get).config.scratch1)
    code (o.code dest first second)
    storeBack target dest

/-- Assigns the result of an operator with one operand. -/
def unary (target symbol : String) (source : Option String) : Emit Unit := do
  match UnaryOp.ofSymbol? symbol with
  | none => diagnose (.unaryOperator target symbol (Stmt.operandText source))
  | some o =>
    note target o.resultType
    let dest ← registerFor target
    let register ← materialize (← operand source) none
    code (o.code dest register)
    storeBack target dest

/-- Copies a value into a register. -/
def loadInto (dest : Register) (source : String) : Emit Unit := do
  match Operand.ofString source with
  | .immediate value => op (.li dest value)
  | .float value =>
    let name ← intern .float value
    opNote (.load .word dest (.label name)) ("float " ++ value)
  | .text value =>
    let name ← intern .string value
    op (.la dest name)
  | .name name =>
    let register ← materialize name none
    if register != dest then
      op (.move dest register)

/-- Assigns a copy. -/
def copy (target : String) (source : Option String) : Emit Unit := do
  note target ((source.map (← get).symbols.operandType).getD .unknown)
  let dest ← registerFor target
  loadInto dest (← operand source)
  storeBack target dest

/-- Lowers an assignment. -/
def assign (target : String) (operand1 operator operand2 : Option String) : Emit Unit :=
  match operator, operand2 with
  | some symbol, some right => binary target operand1 symbol right
  | some symbol, none => unary target symbol operand1
  | none, _ => copy target operand1

end MipsLowering.Lower
