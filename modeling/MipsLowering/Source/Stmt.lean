import MipsLowering.Text.Numeral

/-!
# Statements of three-address code

One statement per line.  `Stmt.spell` spells a statement as a line; reading lines is in
`MipsLowering.Source.Reader`.
-/

namespace MipsLowering

/-- A statement of three-address code.  Operands are kept as they were written. -/
inductive Stmt where
  /-- Declares a scalar variable.  The type may be left open. -/
  | declare (name : String) (typeName : Option String) (isGlobal : Bool)
  /-- Declares an array.  The type of its elements may be left open. -/
  | declareArray (name : String) (length : Int) (typeName : Option String) (isGlobal : Bool)
  /-- Marks a jump target. -/
  | label (name : String)
  /-- A remark that is kept in the listing. -/
  | comment (text : String)
  /-- Jumps. -/
  | goto (label : String)
  /-- Jumps if a condition holds: an operand that is not zero or, with an operator and a second
      operand, a relation. -/
  | branch (condition label : String) (operand2 operator : Option String)
  /-- Assigns a copy, the result of a unary operator, or the result of a binary operator. -/
  | assign (target : String) (operand1 operator operand2 : Option String)
  /-- Reads an array element. -/
  | arrayLoad (target array index : String)
  /-- Writes an array element. -/
  | arrayStore (array index value : String)
  /-- Writes zero to the elements from `start` up to, and without, `stop`. -/
  | zeroFill (array start stop : String)
  /-- Queues an argument for the next call. -/
  | param (operand : String)
  /-- Calls a function.  Without a count every queued argument is passed; `rawCount` keeps a count
      that is no number. -/
  | call (function : String) (count : Option Int) (target rawCount : Option String)
  /-- Returns from a function. -/
  | ret (value : Option String)
  /-- Writes a value to the console. -/
  | print (value : String)
  /-- Reads an integer from the console. -/
  | read (target : String)
  /-- A line that begins like a statement but does not have its shape. -/
  | malformed (text reason : String)
  /-- A line that no rule recognises. -/
  | unsupported (text : String)
  /-- A statement of a kind that has no rule here, known by its spelling only. -/
  | foreign (text : String)
  deriving Repr, DecidableEq

namespace Stmt

/-! ## Shapes of assignments -/

/-- An operand that is present and not empty. -/
def given : Option String → Option String
  | some "" => none
  | operand => operand

/-- An assignment with an operator and two operands. -/
def isBinary : Stmt → Bool
  | .assign _ _ (some _) (some _) => true
  | _ => false

/-- An assignment with an operator and one operand. -/
def isUnary : Stmt → Bool
  | .assign _ _ (some _) none => true
  | _ => false

/-! ## Spelling -/

/-- The keyword of a declaration. -/
def declareKeyword (isGlobal : Bool) : String :=
  if isGlobal then "declare_global" else "declare"

/-- The keyword of an array declaration. -/
def declareArrayKeyword (isGlobal : Bool) : String :=
  declareKeyword isGlobal ++ "_arr"

/-- The spelling of an operand or type that may be missing. -/
def operandText (operand : Option String) : String :=
  operand.getD "None"

/-- The spelling of a relation. -/
def conditionText (condition : String) (operand2 operator : Option String) : String :=
  match given operator, given operand2 with
  | some op, some right => condition ++ " " ++ op ++ " " ++ right
  | _, _ => condition

/-- The spelling of the right side of an assignment. -/
def valueText (operand1 operator operand2 : Option String) : String :=
  match operator, operand2 with
  | some op, some right => operandText operand1 ++ " " ++ op ++ " " ++ right
  | some op, none => op ++ operandText operand1
  | none, _ => operandText operand1

/-- The spelling of a call without its target. -/
def callText (function : String) (count : Option Int) (rawCount : Option String) : String :=
  match count, rawCount with
  | some n, _ => "call " ++ function ++ ", " ++ toString n
  | none, some raw => "call " ++ function ++ ", " ++ raw
  | none, none => "call " ++ function

/-- The line of a statement, with a number in full. -/
def text : Stmt → String
  | .declare name typeName isGlobal => 
    declareKeyword isGlobal ++ " " ++ name ++ ":" ++ operandText typeName
  | .declareArray name length typeName isGlobal =>
    declareArrayKeyword isGlobal ++ " " ++ name ++ "[" ++ toString length ++ "] " ++
      operandText typeName
  | .label name => name ++ ":"
  | .comment text => "# " ++ text
  | .goto target => "goto " ++ target
  | .branch condition target operand2 operator =>
    "if " ++ conditionText condition operand2 operator ++ " goto " ++ target
  | .assign target operand1 operator operand2 =>
    target ++ " = " ++ valueText operand1 operator operand2
  | .arrayLoad target array index => target ++ " = " ++ array ++ "[" ++ index ++ "]"
  | .arrayStore array index value => "astore " ++ array ++ ", " ++ index ++ ", " ++ value
  | .zeroFill array start stop => "arr_pad_zero " ++ array ++ ", " ++ start ++ ", " ++ stop
  | .param operand => "param " ++ operand
  | .call function count target rawCount =>
    match given target with
    | some name => name ++ " = " ++ callText function count rawCount
    | none => callText function count rawCount
  | .ret value =>
    match given value with
    | some operand => "return " ++ operand
    | none => "return"
  | .print value => "print " ++ value
  | .read target => "read " ++ target
  | .malformed text _ => text
  | .unsupported text => text
  | .foreign text => text

/-- The number on the line of a statement: the length of an array or the count of a call. -/
def numeral? : Stmt → Option Int
  | .declareArray _ length _ _ => some length
  | .call _ count _ _ => count
  | _ => none

/-- Whether the number on the line of a statement can be written. -/
def isWritable (s : Stmt) : Bool :=
  s.numeral?.all Text.isWritable

/-- The spelling of a statement as a line. -/
def spell (s : Stmt) : Except Text.NumeralFault String :=
  if s.isWritable then .ok s.text else .error .write

end Stmt

end MipsLowering
