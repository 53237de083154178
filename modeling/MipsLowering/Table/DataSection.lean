import MipsLowering.Assembly.Node
import MipsLowering.Table.Symbol
import MipsLowering.Text.Numeral

/-!
# The data section

One cell per declared symbol, in the order of the declarations, and behind them a pool of string and
float literals in the order of their first use, each value once.

Cells for words and floats align themselves, space for an array does not.  The section therefore keeps
count of the bytes laid out, and an array of words that would begin off a word boundary gets padding.
-/

namespace MipsLowering

/-! ## Cells -/

/-- The next multiple of the word size. -/
def alignWord (offset : Nat) : Nat :=
  offset + (4 - offset % 4) % 4

/-- The storage of a scalar, which holds zero at first.  A string variable holds an address. -/
def scalarStorage : ValueType → Storage
  | .float => .float "0.0"
  | .char => .byte
  | _ => .word

/-- The directive that lays out the cell of a symbol. -/
def Symbol.directive (s : Symbol) : Directive :=
  match s.kind with
  | .scalar => ⟨some s.name, scalarStorage s.type, none⟩
  | .array =>
    ⟨some s.name, .space s.sizeBytes, some (s.type.name ++ "[" ++ toString s.length ++ "]")⟩

/-- Whether the numbers in the directive of a symbol can be written. -/
def Symbol.isWritable (s : Symbol) : Bool :=
  match s.kind with
  | .scalar => true
  | .array => Text.isWritable s.sizeBytes && Text.isWritable s.length

/-- The directive that pads up to a word boundary. -/
def paddingDirective : Directive :=
  ⟨none, .alignWord, none⟩

/-! ## Literals -/

/-- The kinds of literals that live in memory. -/
inductive LiteralKind where
  | string
  | float
  deriving Repr, DecidableEq

namespace LiteralKind

/-- The kind of the literals of a type, if they live in memory. -/
def ofType? : ValueType → Option LiteralKind
  | .string => some .string
  | .float => some .float
  | _ => none

/-- The label of the literal with a given number. -/
def label (kind : LiteralKind) (number : Nat) : String :=
  match kind with
  | .string => "str_lit_" ++ toString number
  | .float => "flt_lit_" ++ toString number

/-- The value that is stored for a literal as it was written: strings lose the quotes around them. -/
def stored (kind : LiteralKind) (written : String) : String :=
  match kind with
  | .string => String.ofList (Lexeme.unquote written.toList)
  | .float => written

end LiteralKind

/-- A literal of the pool; literals of one kind are numbered from zero. -/
structure Literal where
  kind : LiteralKind
  value : String
  number : Nat
  deriving Repr, DecidableEq

/-- The label of a literal. -/
def Literal.label (l : Literal) : String :=
  l.kind.label l.number

/-- The directive that lays out a literal. -/
def Literal.directive (l : Literal) : Directive :=
  match l.kind with
  | .string => ⟨some l.label, .asciiz l.value, none⟩
  | .float => ⟨some l.label, .float l.value, none⟩

/-- The numbers that the next literals of each kind get. -/
structure LiteralCounters where
  string : Nat
  float : Nat
  deriving Repr, DecidableEq

namespace LiteralCounters

def of (c : LiteralCounters) : LiteralKind → Nat
  | .string => c.string
  | .float => c.float

/-- The counters after one more literal of a kind. -/
def next (c : LiteralCounters) : LiteralKind → LiteralCounters
  | .string => { c with string := c.string + 1 }
  | .float => { c with float := c.float + 1 }

theorem of_next_self (c : LiteralCounters) (kind : LiteralKind) : (c.next kind).of kind = c.of kind + 1 := by
  cases kind <;> rfl

theorem of_next_of_ne (c : LiteralCounters) {kind other : LiteralKind} (different : kind ≠ other) :
    (c.next kind).of other = c.of other := by
  cases kind <;> cases other <;> first | rfl | exact absurd rfl different

end LiteralCounters

/-! ## The section -/

/-- The data section. -/
structure DataSection where
  /-- The directives of the symbols, padding included. -/
  cells : List Directive
  /-- The number of bytes that the cells take. -/
  offset : Nat
  /-- The literals in the order of first use. -/
  literals : List Literal
  counters : LiteralCounters
  deriving Repr, DecidableEq

namespace DataSection

/-- The section that holds nothing. -/
def empty : DataSection := ⟨[], 0, [], ⟨0, 0⟩⟩

/-- Goes on to where the cell of a symbol can begin, with a directive if its own does not do so. -/
def align (d : DataSection) (s : Symbol) : DataSection :=
  let start := match s.type.width with
    | .word => alignWord d.offset
    | .byte => d.offset
  let padding := if s.isArray && start != d.offset then [paddingDirective] else []
  { d with cells := d.cells ++ padding, offset := start }

/-- Lays out the cell of a symbol right behind the cells so far. -/
def append (d : DataSection) (s : Symbol) : DataSection :=
  { d with cells := d.cells ++ [s.directive], offset := d.offset + s.sizeBytes }

/-- The entry of a stored value. -/
def find? (d : DataSection) (kind : LiteralKind) (value : String) : Option Literal :=
  d.literals.find? fun l => l.kind == kind && l.value == value

/-- The label of a literal that is in the pool. -/
def literalLabel? (d : DataSection) (kind : LiteralKind) (written : String) : Option String :=
  (d.find? kind (kind.stored written)).map Literal.label

/-- The entry that a literal gets if it has none. -/
def newLiteral (d : DataSection) (kind : LiteralKind) (written : String) : Literal :=
  ⟨kind, kind.stored written, d.counters.of kind⟩

/-- The label of a literal, and the section with the literal in its pool. -/
def intern (d : DataSection) (kind : LiteralKind) (written : String) : String × DataSection :=
  match d.find? kind (kind.stored written) with
  | some l => (l.label, d)
  | none =>
    ((d.newLiteral kind written).label,
      { d with
        literals := d.literals ++ [d.newLiteral kind written]
        counters := d.counters.next kind })

/-- The cells are not touched by literals. -/
@[simp] theorem cells_intern (d : DataSection) (kind : LiteralKind) (written : String) :
    (d.intern kind written).2.cells = d.cells := by
  unfold intern
  split <;> rfl

/-- The label that a literal gets is the one under which it is found from then on. -/
theorem literalLabel?_intern (d : DataSection) (kind : LiteralKind) (written : String) :
    (d.intern kind written).2.literalLabel? kind written = some (d.intern kind written).1 := by
  unfold intern
  split
  next l h => simp [literalLabel?, h]
  next h =>
    simp only [find?] at h
    simp [literalLabel?, find?, List.find?_append, h, newLiteral]

/-- The directives of the whole section. -/
def directives (d : DataSection) : List Directive :=
  d.cells ++ d.literals.map Literal.directive

/-- The lines of the whole section. -/
def render (d : DataSection) : List String :=
  d.directives.map Directive.render

end DataSection

end MipsLowering
