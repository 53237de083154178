import MipsLowering.Source.ValueType
import MipsLowering.Text.Blank
import MipsLowering.Text.Numeral
import MipsLowering.Text.Word

/-!
# Operands

Operands arrive as text: names, integers, floats, `true` and `false`, quoted characters and quoted
strings.  This module sorts that text into classes, so that reading a program and lowering it agree
on what counts as a literal.

The classes overlap: `Operand.ofString` fixes which of them decides how an operand is fetched.
-/

namespace MipsLowering

/-! ## Lexical classes -/

namespace Lexeme

/-- One decimal digit or more, of any script. -/
def isNumeral (cs : List Char) : Bool :=
  !cs.isEmpty && cs.all Text.isDecimal

/-- The text after a minus sign, if it begins with one. -/
def dropMinus : List Char → List Char
  | '-' :: cs => cs
  | cs => cs

/-- The text after a sign, if it begins with one. -/
def dropSign : List Char → List Char
  | '-' :: cs => cs
  | '+' :: cs => cs
  | cs => cs

/-- A numeral with an optional minus sign. -/
def isInteger (cs : List Char) : Bool :=
  isNumeral (dropMinus cs)

/-- Nothing, or the exponent of a float: a letter e, an optional sign and a numeral. -/
def isExponent : List Char → Bool
  | [] => true
  | e :: cs => (e == 'e' || e == 'E') && isNumeral (dropSign cs)

/-- Digits around a point, at least one of them, with an optional minus sign and exponent. -/
def isFloat (cs : List Char) : Bool :=
  let body := dropMinus cs
  match body.dropWhile Text.isDecimal with
  | '.' :: tail =>
    (!(body.takeWhile Text.isDecimal).isEmpty || !(tail.takeWhile Text.isDecimal).isEmpty) &&
      isExponent (tail.dropWhile Text.isDecimal)
  | _ => false

/-- The word `true` in any case.  No character outside ASCII has a lower case among its letters. -/
def isTrue (cs : List Char) : Bool :=
  cs.map Char.toLower == ['t', 'r', 'u', 'e']

/-- The word `false` in any case.  No character outside ASCII has a lower case among its letters. -/
def isFalse (cs : List Char) : Bool :=
  cs.map Char.toLower == ['f', 'a', 'l', 's', 'e']

/-- One of the two truth values in any case. -/
def isBoolean (cs : List Char) : Bool :=
  isTrue cs || isFalse cs

/-- The character between two single quotes. -/
def charLiteral? : List Char → Option Char
  | [a, c, b] => if a == '\'' && b == '\'' then some c else none
  | _ => none

/-- Exactly one character between single quotes. -/
def isCharLiteral (cs : List Char) : Bool :=
  (charLiteral? cs).isSome

/-- Text that begins and ends with a double quote, two different ones. -/
def isQuoted : List Char → Bool
  | '"' :: cs => cs.getLast? == some '"'
  | _ => false

/-- Quoted text, or text of several words. -/
def isText (cs : List Char) : Bool :=
  isQuoted cs || cs.any Text.isBlank

/-- An ASCII letter or underscore, followed by word characters and points. -/
def isIdentifier : List Char → Bool
  | c :: cs => (c.isAlpha || c == '_') && cs.all fun d => Text.isWordChar d || d == '.'
  | [] => false

/-- The characters that operators are made of. -/
def operatorChars : List Char :=
  ['+', '-', '*', '/', '%', '&', '|', '^', '<', '>', '=', '!', '~']

/-- One operator character or more.  Operators that no rule lowers are recognised too, so that they
    can be named in a diagnostic. -/
def isOperator (cs : List Char) : Bool :=
  !cs.isEmpty && cs.all operatorChars.contains

/-- The text between the double quotes around quoted text; any other text as it is. -/
def unquote (cs : List Char) : List Char :=
  if isQuoted cs then cs.tail.dropLast else cs

/-! ## The sign of an assignment -/

/-- Where a scan of a line stands with respect to quotes. -/
inductive Scan where
  /-- Outside of quotes. -/
  | plain
  /-- Between quotes `quote`. -/
  | inside (quote : Char)
  /-- Between quotes `quote`, after a backslash. -/
  | escaped (quote : Char)
  deriving Repr, DecidableEq

/-- The scan after one more character.  Between quotes a backslash hides the next character, and only
    the quote that began the text ends it. -/
def Scan.step : Scan → Char → Scan
  | .plain, c => if c == '\'' || c == '"' then .inside c else .plain
  | .inside quote, c =>
    if c == '\\' then .escaped quote else if c == quote then .plain else .inside quote
  | .escaped quote, _ => .inside quote

/-- Whether an equals sign after this character ends a comparison. -/
def endsComparison (previous : Option Char) : Bool :=
  previous == some '=' || previous == some '!' || previous == some '<' || previous == some '>'

/-- The place of the first sign of assignment, for a scan that has come to place `index`. -/
def findAssignmentFrom (scan : Scan) (previous : Option Char) (index : Nat) :
    List Char → Option Nat
  | [] => none
  | c :: rest =>
    if scan == .plain && c == '=' && !endsComparison previous && rest.head? != some '=' then
      some index
    else
      findAssignmentFrom (scan.step c) (some c) (index + 1) rest

/-- The place of the first equals sign outside of quotes that belongs to no comparison. -/
def findAssignment (cs : List Char) : Option Nat :=
  findAssignmentFrom .plain none 0 cs

/-! ## Types of literals -/

/-- The value of a literal that fits an immediate operand: 1 and 0 for the truth values, the code
    point of a character; any other text as it is. -/
def immediate (cs : List Char) : String :=
  if isTrue cs then "1"
  else if isFalse cs then "0"
  else
    match charLiteral? cs with
    | some c => toString c.toNat
    | none => String.ofList cs

/-- The type of a literal, or the best guess for a name that nothing declares. -/
def inferType (cs : List Char) : ValueType :=
  if cs.isEmpty then .unknown
  else if isQuoted cs then .string
  else if isCharLiteral cs then .char
  else if isInteger cs then .int
  else if isBoolean cs then .bool
  else if cs.contains '.' then .float
  else if cs.length == 1 then .char
  else .string

end Lexeme

/-! ## How an operand is fetched -/

/-- The four ways in which an operand is brought into a register. -/
inductive Operand where
  /-- An integer, truth value or character: loaded as an immediate. -/
  | immediate (value : String)
  /-- A float: loaded from the literal pool. -/
  | float (text : String)
  /-- Text: its address in the literal pool is loaded. -/
  | text (text : String)
  /-- Anything else is a name. -/
  | name (name : String)
  deriving Repr, DecidableEq

/-- The class of an operand. -/
def Operand.ofString (s : String) : Operand :=
  let cs := s.toList
  if Lexeme.isInteger cs || Lexeme.isBoolean cs || Lexeme.isCharLiteral cs then
    .immediate (Lexeme.immediate cs)
  else if Lexeme.isFloat cs then .float s
  else if Lexeme.isText cs then .text s
  else .name s

/-- Whether an operand is loaded as an immediate or from the literal pool. -/
def Operand.isLiteral : Operand → Bool
  | .name _ => false
  | _ => true

/-- Whether a text names a variable: an identifier other than a truth value. -/
def isVariableName (s : String) : Bool :=
  Lexeme.isIdentifier s.toList && !Lexeme.isBoolean s.toList

end MipsLowering
