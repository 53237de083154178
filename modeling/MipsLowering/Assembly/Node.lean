import MipsLowering.Assembly.Op
import MipsLowering.Text.Order

/-!
# Lines of a listing

A listing is made of machine instructions, label lines, remarks and storage directives, one to a line.
Instructions and directives may carry a comment, which begins at a fixed column or, after a longer
line, one blank further on.
-/

namespace MipsLowering

/-! ## Layout of a line -/

/-- The column at which comments begin. -/
def commentColumn : Nat := 24

/-- A line with a comment behind it.  An empty comment is none. -/
def withComment (line : String) : Option String → String
  | none => line
  | some comment =>
    if comment.isEmpty then line
    else
      line ++ String.ofList (List.replicate (max 1 (commentColumn - line.length)) ' ') ++ "# " ++
        comment

/-- A name with its operands behind it, if these have any text. -/
def withOperands (name : String) (operands : List String) : String :=
  let text := Text.commaList operands
  if text.isEmpty then name else name ++ " " ++ text

/-! ## Machine instructions -/

/-- A machine operation with an optional comment. -/
structure Instr where
  op : Op
  comment : Option String
  deriving Repr, DecidableEq

/-- The instruction with another comment. -/
def Instr.commented (i : Instr) (comment : Option String) : Instr :=
  { i with comment := comment }

/-- An instruction as a line of the listing. -/
def Instr.render (i : Instr) : String :=
  withComment (withOperands ("\t" ++ i.op.mnemonic) i.op.operands) i.comment

/-! ## Storage directives -/

/-- The spelling of a text in a storage directive: backslashes and double quotes are written with a
    backslash before them. -/
def escapeText : List Char → List Char
  | [] => []
  | c :: cs => if c == '\\' || c == '"' then '\\' :: c :: escapeText cs else c :: escapeText cs

/-- What a directive puts into the data section. -/
inductive Storage where
  /-- A word that holds zero. -/
  | word
  /-- A byte that holds zero. -/
  | byte
  /-- A float. -/
  | float (value : String)
  /-- Bytes that hold zero. -/
  | space (bytes : Nat)
  /-- Text with a zero byte behind it. -/
  | asciiz (text : String)
  /-- Padding up to the next word boundary. -/
  | alignWord
  /-- Any other directive, by its name and operands; operands that are absent are not written. -/
  | other (name : String) (operands : List (Option String))
  deriving Repr, DecidableEq

/-- The name of a directive. -/
def Storage.name : Storage → String
  | .word => ".word"
  | .byte => ".byte"
  | .float _ => ".float"
  | .space _ => ".space"
  | .asciiz _ => ".asciiz"
  | .alignWord => ".align"
  | .other name _ => name

/-- The operands of a directive as the listing writes them. -/
def Storage.operands : Storage → List String
  | .word => ["0"]
  | .byte => ["0"]
  | .float value => [value]
  | .space bytes => [toString bytes]
  | .asciiz text => ["\"" ++ String.ofList (escapeText text.toList) ++ "\""]
  | .alignWord => ["2"]
  | .other _ operands => operands.filterMap id

/-- A storage directive, with the label of what it stores and a comment. -/
structure Directive where
  label : Option String
  storage : Storage
  comment : Option String
  deriving Repr, DecidableEq

/-- A directive as a line of the listing.  An empty label is none. -/
def Directive.render (d : Directive) : String :=
  let body := withOperands d.storage.name d.storage.operands
  let line := match d.label with
    | none => "\t" ++ body
    | some label => if label.isEmpty then "\t" ++ body else label ++ ": " ++ body
  withComment line d.comment

/-! ## Lines -/

/-- A line of a listing. -/
inductive Node where
  | instr (instr : Instr)
  | label (name : String)
  | comment (text : String)
  | directive (directive : Directive)
  deriving Repr, DecidableEq

namespace Node

/-- A node as a line of the listing. -/
def render : Node → String
  | .instr i => i.render
  | .label name => name ++ ":"
  | .comment text => if text.isEmpty then "#" else "# " ++ text
  | .directive d => d.render

/-- Whether a line is a machine instruction. -/
def isInstr : Node → Bool
  | .instr _ => true
  | _ => false

/-- The lines with `comment` behind the first machine instruction among them. -/
def annotate (comment : String) : List Node → List Node
  | [] => []
  | .instr i :: rest => .instr (i.commented (some comment)) :: rest
  | node :: rest => node :: annotate comment rest

end Node

end MipsLowering
