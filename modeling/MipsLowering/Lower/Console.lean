import MipsLowering.Pass

/-!
# Console

Values are written and read by services of the console, which are told apart by a number in the result
register.  The type of a value decides the service.  A word that names nothing is written as the text
it is.
-/

namespace MipsLowering.Lower

open Emit

/-- The services of the console. -/
inductive Service where
  | printInt
  | printFloat
  | printString
  | readInt
  | exit
  | printChar
  deriving Repr, DecidableEq

/-- The number of a service. -/
def Service.number : Service → Nat
  | .printInt => 1
  | .printFloat => 2
  | .printString => 4
  | .readInt => 5
  | .exit => 10
  | .printChar => 11

/-- The service that writes a value of a type from the argument register. -/
def Service.forType : ValueType → Service
  | .string => .printString
  | .char => .printChar
  | _ => .printInt

/-- Names the service that the next call of the console asks for. -/
def selectService (service : Service) : Emit Unit :=
  op (.li resultRegister (toString service.number))

/-- Puts a value, or the address of a text or an array, into the argument register. -/
def loadArgument (operand : String) : Emit Unit := do
  match Operand.ofString operand with
  | .immediate value => op (.li argumentRegister value)
  | .float _ | .text _ =>
    let register ← materialize operand (some argumentRegister)
    if register != argumentRegister then
      op (.move argumentRegister register)
  | .name name =>
    match ((← get).symbols.lookup? name).filter fun s => s.inMemory && !s.isArray with
    | some s => opNote (.load s.type.width argumentRegister (.label name)) ("load " ++ name)
    | none =>
      let register ← materialize name none
      op (.move argumentRegister register)

/-- Puts an operand where the service that writes it expects it, and returns the service. -/
def prepare (operand : String) : Emit Service := do
  let symbols := (← get).symbols
  if isVariableName operand && !symbols.contains operand then
    let name ← intern .string operand
    opNote (.la argumentRegister name) ("text " ++ operand)
    return .printString
  match symbols.operandType operand with
  | .float =>
    let register ← materialize operand (some (← get).config.scratch0)
    op (.mtc1 register floatArgumentRegister)
    return .printFloat
  | type =>
    loadArgument operand
    return .forType type

/-- Lowers the writing of a value. -/
def print (value : String) : Emit Unit := do
  let service ← prepare value
  selectService service
  opNote .syscall ("print " ++ value)

/-- Lowers the reading of an integer.  The target gets a cell if it has none. -/
def read (target : String) : Emit Unit := do
  if !(← get).symbols.isInMemory target then
    declare target .int
  selectService .readInt
  opNote .syscall ("read " ++ target)
  storeBack target resultRegister

/-- Lays out the end of the program. -/
def exit : Emit Unit := do
  comment "program exit"
  selectService .exit
  op .syscall

end MipsLowering.Lower
