import MipsLowering.Config
import MipsLowering.Text.Numeral
import MipsLowering.Text.Quoted

/-!
# Diagnostics, warnings and faults

A *diagnostic* stands in the listing in place of code that could not be selected.  A *warning* is a
record for the log; every diagnostic is one.  A *fault* ends the pass.
-/

namespace MipsLowering

/-! ## Diagnostics -/

/-- What stands in the listing in place of code. -/
inductive Diagnostic where
  /-- An operator with two operands that has no code. -/
  | binaryOperator (target left operator right : String)
  /-- An operator with one operand that has no code. -/
  | unaryOperator (target operator operand : String)
  /-- An operator in a condition that has no code. -/
  | conditionOperator (operator line : String)
  /-- A line of wrong shape. -/
  | malformed (text reason : String)
  /-- A statement without a rule. -/
  | unsupported (text : String)
  /-- A count of arguments that is no number. -/
  | argumentCount (written line : String) (queued : Nat)
  /-- An assignment to a whole array. -/
  | wholeArray (name : String) (register : Register)
  /-- A remark of the caller's own. -/
  | remark (text : String)
  deriving Repr, DecidableEq

/-- The text of a diagnostic. -/
def Diagnostic.message : Diagnostic → String
  | .binaryOperator target left operator right =>
    "unsupported operator '" ++ operator ++ "' in: " ++ target ++ " = " ++ left ++ " " ++ operator ++
      " " ++ right
  | .unaryOperator target operator operand =>
    "unsupported unary operator '" ++ operator ++ "' in: " ++ target ++ " = " ++ operator ++ operand
  | .conditionOperator operator line =>
    "unsupported condition operator '" ++ operator ++ "' in: " ++ line
  | .malformed text reason => "malformed instruction (" ++ reason ++ "): " ++ text
  | .unsupported text => "unsupported instruction: " ++ text
  | .argumentCount written line queued =>
    "non-numeric argument count '" ++ written ++ "' in: " ++ line ++ "; passing " ++
      toString queued ++ " buffered parameters"
  | .wholeArray name register =>
    "cannot assign to array '" ++ name ++ "' without an index; value left in " ++ register
  | .remark text => text

/-! ## Warnings -/

/-- A record for the log. -/
inductive Warning where
  /-- A diagnostic was left in the listing. -/
  | diagnostic (diagnostic : Diagnostic)
  /-- The pool is used up at a name, which shares a register. -/
  | poolExhausted (name : String) (register : Register)
  /-- A label is defined again. -/
  | labelRedefined (label : String)
  /-- A call expects more arguments than are queued. -/
  | missingArguments (function : String) (expected : Int) (queued : Nat)
  /-- Labels are used and not defined. -/
  | undefinedLabels (labels : List String)
  deriving Repr, DecidableEq

namespace Warning

/-- The part of the program that a record names as its origin. -/
def origin : Warning → String
  | .diagnostic _ => "mips.translator_base"
  | .poolExhausted _ _ => "mips.register_allocator"
  | .labelRedefined _ => "mips.label_manager"
  | .missingArguments _ _ _ => "mips.calling_convention"
  | .undefinedLabels _ => "mips.integrated_mips_generator"

/-- The text of a record. -/
def message : Warning → String
  | .diagnostic d => d.message
  | .poolExhausted name register =>
    "register pool exhausted at " ++ Text.quoted name ++ "; further names share " ++ register
  | .labelRedefined label => "label " ++ Text.quoted label ++ " is defined more than once"
  | .missingArguments function expected queued =>
    "call " ++ function ++ " expects " ++ toString expected ++ " arguments but only " ++
      toString queued ++ " were queued"
  | .undefinedLabels labels => "labels referenced but never defined: " ++ Text.commaList labels

/-- A record as a line of the log. -/
def record (w : Warning) : String :=
  "WARNING " ++ w.origin ++ ": " ++ w.message

end Warning

/-! ## Faults -/

/-- The reasons for which a pass ends early. -/
inductive Fault where
  /-- A register was asked for a name without characters. -/
  | emptyName
  /-- An assignment has no operand to fetch. -/
  | missingOperand
  /-- Labels are used and not defined, and the settings are strict. -/
  | undefinedLabels (labels : List String)
  /-- Literals of this type do not live in memory. -/
  | noLiteralPool (type : ValueType)
  /-- A numeral is too long. -/
  | numeral (fault : Text.NumeralFault)
  deriving Repr, DecidableEq

/-- The message for a fault. -/
def Fault.message : Fault → String
  | .emptyName => "Cannot allocate register for an empty name."
  | .missingOperand => "'NoneType' object has no attribute 'strip'"
  | .undefinedLabels labels => "Undefined labels referenced: " ++ Text.commaList labels
  | .noLiteralPool type => "no literal pool for " ++ type.name ++ " values"
  | .numeral fault => fault.message

/-- Whether a fault concerns the program, so that it can be reported to who wrote it. -/
def Fault.isReported : Fault → Bool
  | .emptyName | .undefinedLabels _ => true
  | .missingOperand | .noLiteralPool _ | .numeral _ => false

end MipsLowering
