import MipsLowering.Source.Operand
import MipsLowering.Source.Stmt
import MipsLowering.Text.Numeral

/-!
# Reading statements

A line is classified by the first rule that recognises it: declarations, labels, remarks, jumps,
conditional jumps, assignments to an identifier, statements with a keyword, and last any other line
with a sign of assignment.  A line with a known keyword and a wrong shape becomes `Stmt.malformed`, and
a line without a rule `Stmt.unsupported`.  Reading fails only at a numeral that is too long, which can
be the length of an array or the count of a call.
-/

namespace MipsLowering

namespace Stmt

/-! ## What can be wrong with a line -/

/-- The ways in which a line with a known keyword can have a wrong shape. -/
inductive Flaw where
  | jumpTarget
  | branchWithoutGoto
  | branchWithoutCondition
  | branchTarget
  | assignmentWithoutValue
  | storeOperands
  | fillOperands
  | paramOperand
  | printArgument
  | readDestination
  | callName
  deriving Repr, DecidableEq

/-- The reason that a diagnostic gives. -/
def Flaw.reason : Flaw → String
  | .jumpTarget => "goto without a single target label"
  | .branchWithoutGoto => "conditional jump without goto"
  | .branchWithoutCondition => "conditional jump without condition"
  | .branchTarget => "conditional jump without a single target label"
  | .assignmentWithoutValue => "assignment without a value"
  | .storeOperands => "astore expects <array>, <index>, <value>"
  | .fillOperands => "arr_pad_zero expects <array>, <start>, <end>"
  | .paramOperand => "param without an operand"
  | .printArgument => "print without an argument"
  | .readDestination => "read without a destination"
  | .callName => "call without a function name"

/-- A line of wrong shape. -/
def flawed (line : List Char) (flaw : Flaw) : Stmt :=
  .malformed (String.ofList line) flaw.reason

/-- The outcome of reading a line: its statement, unless a numeral on it is too long. -/
abbrev Reading := Except Text.NumeralFault Stmt

/-! ## Pieces of a line -/

/-- The text after a keyword, in any case.  The keyword is given in lower case. -/
def dropKeyword : List Char → List Char → Option (List Char)
  | [], cs => some cs
  | k :: ks, c :: cs => if c.toLower == k then dropKeyword ks cs else none
  | _ :: _, [] => none

/-- The text after one blank or more. -/
def dropBlanks : List Char → Option (List Char)
  | [] => none
  | c :: cs => if Text.isBlank c then some (Text.stripStart cs) else none

/-- The text after a given character and the blanks around it. -/
def dropMark (mark : Char) (cs : List Char) : Option (List Char) :=
  match Text.stripStart cs with
  | [] => none
  | c :: rest => if c == mark then some (Text.stripStart rest) else none

/-- The text right after a closing bracket and the blanks before it. -/
def dropBracket (cs : List Char) : Option (List Char) :=
  match Text.stripStart cs with
  | ']' :: rest => some rest
  | _ => none

/-- The longest start of a text whose characters are in a class, unless it is empty, and the rest. -/
def takeSome (inClass : Char → Bool) (cs : List Char) : Option (List Char × List Char) :=
  match cs.takeWhile inClass with
  | [] => none
  | found => some (found, cs.dropWhile inClass)

/-- A text of word characters, at least one. -/
def wordOnly? (cs : List Char) : Option String :=
  if !cs.isEmpty && cs.all Text.isWordChar then some (String.ofList cs) else none

/-- What stands before and after the first comma. -/
def cutComma (cs : List Char) : List Char × Option (List Char) :=
  match cs.dropWhile (· != ',') with
  | [] => (cs, none)
  | _ :: rest => (cs.takeWhile (· != ','), some rest)

/-- Three operands with commas between them, none of them empty; commas after the second belong to
    the third operand. -/
def threeOperands? (cs : List Char) : Option (String × String × String) :=
  match cutComma cs with
  | (_, none) => none
  | (first, some rest) =>
    match cutComma rest with
    | (_, none) => none
    | (second, some third) =>
      let a := Text.strip first
      let b := Text.strip second
      let c := Text.strip third
      if a.isEmpty || b.isEmpty || c.isEmpty then none
      else some (String.ofList a, String.ofList b, String.ofList c)

/-! ## Declarations -/

/-- The keyword that begins a declaration, whether it is a global one, and the text after it. -/
def dropDeclare (line : List Char) : Option (Bool × List Char) := do
  let rest ← dropKeyword "declare".toList line
  match dropKeyword "_global".toList rest with
  | some rest => return (true, rest)
  | none => return (false, rest)

/-- An array declaration: a name, a length in brackets, a type. -/
def readDeclareArray (line : List Char) : Option Reading := do
  let (isGlobal, rest) ← dropDeclare line
  let rest ← dropBlanks (← dropKeyword "_arr".toList rest)
  let (name, rest) ← takeSome Text.isWordChar rest
  let (digits, rest) ← takeSome Text.isDecimal (← dropMark '[' rest)
  let typeName ← wordOnly? (← dropBlanks (← dropBracket rest))
  return (Text.readNat digits).map fun length =>
    .declareArray (String.ofList name) length (some typeName) isGlobal

/-- A scalar declaration: a name, a colon, a type. -/
def readDeclare (line : List Char) : Option Stmt := do
  let (isGlobal, rest) ← dropDeclare line
  let (name, rest) ← takeSome (fun c => c != ':' && !Text.isBlank c) (← dropBlanks rest)
  let typeName ← wordOnly? (← dropMark ':' rest)
  return .declare (String.ofList name) (some typeName) isGlobal

/-! ## Labels, remarks and jumps -/

/-- Whether a line begins like a remark. -/
def beginsRemark : List Char → Bool
  | '#' :: _ => true
  | '/' :: '/' :: _ => true
  | _ => false

/-- A label: a line that ends with a colon. -/
def readLabel (line : List Char) : Option Stmt :=
  if line.getLast? == some ':' && !beginsRemark line then
    some (.label (String.ofList (Text.strip line.dropLast)))
  else none

/-- A remark, or one of the two marks around the main part. -/
def readComment (line : List Char) : Option Stmt :=
  match line with
  | '/' :: '/' :: rest => some (.comment (String.ofList (Text.strip rest)))
  | '#' :: rest => some (.comment (String.ofList (Text.strip rest)))
  | _ =>
    if line == "begin_main".toList || line == "end_main".toList then
      some (.comment (String.ofList line))
    else none

/-- A jump. -/
def readGoto (line : List Char) : Option Stmt :=
  let (keyword, rest) := Text.cutWord line
  if keyword != "goto".toList then none
  else if Text.isOneWord rest then some (.goto (String.ofList rest))
  else some (flawed line .jumpTarget)

/-- The words of a relation: two operands and an operator between them. -/
def relation? : List (List Char) → Option (List Char × List Char × List Char)
  | [left, op, right] => if Lexeme.isOperator op then some (left, op, right) else none
  | _ => none

/-- A conditional jump on a relation or on one operand, of which the words are joined by blanks. -/
def readCondition (condition : List (List Char)) (label : List Char) : Stmt :=
  match relation? condition with
  | some (left, op, right) =>
    .branch (String.ofList left) (String.ofList label) (some (String.ofList right))
      (some (String.ofList op))
  | none =>
    .branch (String.ofList (List.intercalate [' '] condition)) (String.ofList label) none none

/-- A conditional jump. -/
def readBranch (line : List Char) : Option Stmt :=
  let (keyword, rest) := Text.cutWord line
  if keyword != "if".toList then none
  else
    let tokens := Text.words rest
    let condition := tokens.takeWhile (· != "goto".toList)
    match tokens.dropWhile (· != "goto".toList) with
    | [] => some (flawed line .branchWithoutGoto)
    | _ :: target =>
      if condition.isEmpty then some (flawed line .branchWithoutCondition)
      else
        match target with
        | [place] => some (readCondition condition place)
        | _ => some (flawed line .branchTarget)

/-! ## Calls -/

/-- A call, from the text after its keyword.  A count that is no number from zero up is kept as it was
    written. -/
def readCall (line rest : List Char) (target : Option String) : Reading :=
  let (before, after) := cutComma rest
  let name := Text.strip before
  let count := Text.strip (after.getD [])
  if name.isEmpty then .ok (flawed line .callName)
  else if count.isEmpty then .ok (.call (String.ofList name) none target none)
  else if Lexeme.isInteger count then
    (Text.readInt count).map fun n =>
      if 0 ≤ n then .call (String.ofList name) (some n) target none
      else .call (String.ofList name) none target (some (String.ofList count))
  else .ok (.call (String.ofList name) none target (some (String.ofList count)))

/-! ## Assignments -/

/-- An assignment of a copy. -/
def copy (target : String) (value : List Char) : Stmt :=
  .assign target (some (String.ofList value)) none none

/-- An assignment of a binary operator's result: three words with an operator in the middle. -/
def readBinary (target : String) (value : List Char) : Option Stmt :=
  match Text.words value with
  | [left, op, right] =>
    if Lexeme.isOperator op && !Lexeme.isOperator left then
      some (.assign target (some (String.ofList left)) (some (String.ofList op))
        (some (String.ofList right)))
    else none
  | _ => none

/-- An element of an array: an identifier and, in brackets, an index on the same line. -/
def readElement (target : String) (value : List Char) : Option Stmt :=
  let array := value.takeWhile (· != '[')
  match value.dropWhile (· != '[') with
  | [] => none
  | _ :: inner =>
    let index := inner.dropLast
    if Lexeme.isIdentifier array && inner.getLast? == some ']' && !index.isEmpty &&
        !index.contains '\n' then
      some (.arrayLoad target (String.ofList array) (String.ofList (Text.strip index)))
    else none

/-- An assignment of a unary operator's result: a sign and one word that does not begin with an equals
    sign. -/
def readUnary (target : String) (value : List Char) : Option Stmt :=
  match value with
  | op :: next :: rest =>
    if (op == '-' || op == '!') && next != '=' && Text.isOneWord (next :: rest) then
      some (.assign target (some (String.ofList (Text.strip (next :: rest))))
        (some (String.ofList [op])) none)
    else none
  | _ => none

/-- The right side of an assignment that is no call. -/
def readValue (target : String) (value : List Char) : Stmt :=
  if Lexeme.isQuoted value || Lexeme.isCharLiteral value then copy target value
  else
    match readBinary target value <|> readElement target value with
    | some stmt => stmt
    | none =>
      if Lexeme.isInteger value || Lexeme.isFloat value then copy target value
      else (readUnary target value).getD (copy target value)

/-- An assignment.  The first attempt takes only identifiers as targets, so that statements with a
    keyword come before it; the last takes any target. -/
def readAssignment (anyTarget : Bool) (line : List Char) : Option Reading :=
  match Lexeme.findAssignment line with
  | none | some 0 => none
  | some place =>
    let target := Text.strip (line.take place)
    let value := Text.strip (line.drop (place + 1))
    if !anyTarget && !Lexeme.isIdentifier target then none
    else if value.isEmpty then some (.ok (flawed line .assignmentWithoutValue))
    else
      let (keyword, rest) := Text.cutWord value
      if keyword == "call".toList then some (readCall line rest (some (String.ofList target)))
      else some (.ok (readValue (String.ofList target) value))

/-! ## Statements with a keyword -/

/-- A statement that begins with a keyword other than those of jumps and calls. -/
def readKeyword (line : List Char) : Option Stmt :=
  let (keyword, rest) := Text.cutWord line
  match String.ofList keyword with
  | "astore" =>
    match threeOperands? rest with
    | some (array, index, value) => some (.arrayStore array index value)
    | none => some (flawed line .storeOperands)
  | "arr_pad_zero" =>
    match threeOperands? rest with
    | some (array, start, stop) => some (.zeroFill array start stop)
    | none => some (flawed line .fillOperands)
  | "param" =>
    if rest.isEmpty then some (flawed line .paramOperand)
    else some (.param (String.ofList rest))
  | "return" => some (.ret (if rest.isEmpty then none else some (String.ofList rest)))
  | "print" =>
    if rest.isEmpty then some (flawed line .printArgument)
    else some (.print (String.ofList rest))
  | "read" =>
    if Lexeme.isIdentifier rest then some (.read (String.ofList rest))
    else some (flawed line .readDestination)
  | _ => none

/-- A call whose value is not used. -/
def readCallLine (line : List Char) : Option Reading :=
  let (keyword, rest) := Text.cutWord line
  if keyword == "call".toList then some (readCall line rest none) else none

/-! ## Lines -/

/-- A declaration of a scalar, a label, a remark or a jump. -/
def readPlain (line : List Char) : Option Stmt :=
  readDeclare line <|> readLabel line <|> readComment line <|> readGoto line <|> readBranch line

/-- The statement on a line that is not empty and has no blanks around it. -/
def ofChars (line : List Char) : Reading :=
  let found := readDeclareArray line <|> (readPlain line).map .ok <|> readAssignment false line <|>
    (readKeyword line).map .ok <|> readCallLine line <|> readAssignment true line
  found.getD (.ok (.unsupported (String.ofList line)))

/-- The statement on a line that is not empty and has no blanks around it. -/
def ofLine (line : String) : Reading :=
  ofChars line.toList

/-- The lines that hold a statement, without the blanks around them. -/
def filledLines (lines : List String) : List String :=
  (lines.map Text.stripped).filter (!·.isEmpty)

/-- The statements of the lines of a program; blank lines hold none. -/
def ofLines (lines : List String) : Except Text.NumeralFault (List Stmt) :=
  (filledLines lines).mapM ofLine

end Stmt

end MipsLowering
