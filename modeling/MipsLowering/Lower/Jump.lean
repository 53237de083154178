import MipsLowering.Operator
import MipsLowering.Pass

/-!
# Jumps

A jump counts as a use of its label even if no code can be selected for its condition.  The truth of a
relation is computed into the first scratch register.
-/

namespace MipsLowering.Lower

open Emit

/-- Lowers a jump. -/
def goto (target : String) : Emit Unit := do
  reference target
  op (.j target)

/-- Jumps if a register is not zero. -/
def branchOn (register : Register) (target : String) : Emit Unit :=
  opNote (.bnez register target) ("branch to " ++ target)

/-- The register that holds the truth of a relation, unless its operator has no code. -/
def relation (left symbol right line : String) : Emit (Option Register) := do
  match BinaryOp.ofSymbol? symbol with
  | none =>
    diagnose (.conditionOperator symbol line)
    return none
  | some o =>
    let config := (← get).config
    let first ← materialize left (some config.scratch0)
    let second ← materialize right (some config.scratch1)
    code (o.code config.scratch0 first second)
    return some config.scratch0

/-- Lowers a conditional jump. -/
def branch (condition target : String) (operand2 operator : Option String) : Emit Unit := do
  reference target
  match Stmt.given operator, Stmt.given operand2 with
  | some symbol, some right =>
    let line := (Stmt.branch condition target operand2 operator).text
    match ← relation condition symbol right line with
    | some register => branchOn register target
    | none => return
  | _, _ =>
    let register ← materialize condition (some (← get).config.scratch0)
    branchOn register target

end MipsLowering.Lower
