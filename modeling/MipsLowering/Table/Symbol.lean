import MipsLowering.Source.Operand

/-!
# Symbols

Every name that a program declares or assigns is recorded with its type.  A name that is only assigned
lives in a register; its first declaration gives it a cell in memory, and from then on its entry never
changes.  Entries are kept in the order in which the names first appeared.
-/

namespace MipsLowering

/-- Whether a symbol is one value or a sequence of values. -/
inductive SymbolKind where
  | scalar
  | array
  deriving Repr, DecidableEq

/-- What is known of a name. -/
structure Symbol where
  name : String
  kind : SymbolKind
  type : ValueType
  /-- The declared length of an array. -/
  length : Int
  /-- Whether the name has a cell in memory. -/
  inMemory : Bool
  deriving Repr, DecidableEq

namespace Symbol

/-- Whether a symbol is an array. -/
def isArray (s : Symbol) : Bool :=
  s.kind == .array

/-- The size of a scalar or of one element, in bytes. -/
def elementSize (s : Symbol) : Nat :=
  s.type.size

/-- The size of the whole cell in bytes; an array has room for one element at least. -/
def sizeBytes (s : Symbol) : Nat :=
  match s.kind with
  | .scalar => s.elementSize
  | .array => max 1 s.length.toNat * s.elementSize

end Symbol

/-- The symbols of a program, in the order of first appearance. -/
structure SymbolTable where
  entries : List Symbol
  deriving Repr, DecidableEq

namespace SymbolTable

/-- The table without symbols. -/
def empty : SymbolTable := ⟨[]⟩

/-- The entry of a name. -/
def lookup? (t : SymbolTable) (name : String) : Option Symbol :=
  t.entries.find? (·.name == name)

/-- Adds an entry after all others. -/
def add (t : SymbolTable) (s : Symbol) : SymbolTable :=
  ⟨t.entries ++ [s]⟩

/-- Puts an entry in the place of the one with its name. -/
def replace (t : SymbolTable) (s : Symbol) : SymbolTable :=
  ⟨t.entries.map fun old => if old.name == s.name then s else old⟩

/-- An entry has the name under which it is found. -/
theorem name_of_lookup? {t : SymbolTable} {name : String} {s : Symbol}
    (h : t.lookup? name = some s) : s.name = name := by
  simpa using List.find?_some h

/-- An added entry is found unless its name had one before. -/
theorem lookup?_add (t : SymbolTable) (s : Symbol) (name : String) :
    (t.add s).lookup? name = (t.lookup? name).or (if s.name == name then some s else none) := by
  simp only [lookup?, add, List.find?_append]
  cases h : s.name == name <;> simp [h]

/-- A replaced entry is found under its name, if there was one to replace; all others are found as
    before. -/
theorem lookup?_replace (t : SymbolTable) (s : Symbol) (name : String) :
    (t.replace s).lookup? name =
      if s.name == name then (t.lookup? name).map fun _ => s else t.lookup? name := by
  obtain ⟨entries⟩ := t
  simp only [lookup?, replace]
  induction entries with
  | nil => simp
  | cons old rest ih =>
    simp only [List.map_cons, List.find?_cons, ih]
    cases hn : s.name == name <;> cases ho : old.name == s.name
    · simp
    · rw [beq_iff_eq] at ho
      simp [ho, hn]
    · rw [beq_iff_eq] at hn
      subst hn
      simp [ho]
    · rw [beq_iff_eq] at hn ho
      simp [ho, hn]

/-! ## Declarations -/

/-- Gives a name a cell of its own, unless it has one: `make` says what the entry becomes, from the
    entry so far.  The symbol that needs a new cell comes with the table. -/
def giveCell (t : SymbolTable) (name : String) (make : Option Symbol → Symbol) :
    SymbolTable × Option Symbol :=
  match t.lookup? name with
  | none => (t.add (make none), some (make none))
  | some old =>
    if old.inMemory then (t, none)
    else (t.replace (make (some old)), some (make (some old)))

/-- Declares a scalar.  A name that was only assigned so far takes the declared type. -/
def declare (t : SymbolTable) (name : String) (type : ValueType) : SymbolTable × Option Symbol :=
  t.giveCell name fun
    | none => ⟨name, .scalar, type, 0, true⟩
    | some old => { old with type := type, inMemory := true }

/-- Declares an array. -/
def declareArray (t : SymbolTable) (name : String) (type : ValueType) (length : Int) :
    SymbolTable × Option Symbol :=
  t.giveCell name fun _ => ⟨name, .array, type, length, true⟩

/-- Records a name that is assigned; a name that is known already stays as it is. -/
def note (t : SymbolTable) (name : String) (type : ValueType) : SymbolTable :=
  match t.lookup? name with
  | none => t.add ⟨name, .scalar, type, 0, false⟩
  | some _ => t

/-! ## Questions -/

/-- Whether a name has an entry. -/
def contains (t : SymbolTable) (name : String) : Bool :=
  (t.lookup? name).isSome

/-- Whether a name has a cell in memory. -/
def isInMemory (t : SymbolTable) (name : String) : Bool :=
  (t.lookup? name).any (·.inMemory)

/-- Whether a name is an array. -/
def isArray (t : SymbolTable) (name : String) : Bool :=
  (t.lookup? name).any Symbol.isArray

/-- The type of a name, or the type its spelling suggests. -/
def typeOf (t : SymbolTable) (name : String) : ValueType :=
  match t.lookup? name with
  | some s => s.type
  | none => Lexeme.inferType name.toList

/-- The type of an operand; unlike with `typeOf`, a variable without an entry has no known type. -/
def operandType (t : SymbolTable) (operand : String) : ValueType :=
  match t.lookup? operand with
  | some s => s.type
  | none => if isVariableName operand then .unknown else Lexeme.inferType operand.toList

/-- The size of the elements of an array; a name without an entry counts as an array of integers. -/
def elementSize (t : SymbolTable) (name : String) : Nat :=
  ((t.lookup? name).map Symbol.elementSize).getD ValueType.int.size

/-- The type of the elements of an array; any other name counts as an array of integers. -/
def elementType (t : SymbolTable) (name : String) : ValueType :=
  match t.lookup? name with
  | some s => if s.isArray then s.type else .int
  | none => .int

end SymbolTable

end MipsLowering
