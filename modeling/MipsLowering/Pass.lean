import MipsLowering.Diagnostic
import MipsLowering.Source.Stmt
import MipsLowering.Table.DataSection
import MipsLowering.Table.LabelTable
import MipsLowering.Table.RegisterFile

/-!
# The state of a pass

A pass lowers one program.  Its state holds the tables, the text laid out so far, and what there is to
say about it.  Lowering a statement is an action on that state that may end in a fault; what it did up
to the fault stays done.
-/

namespace MipsLowering

/-- The state of a pass. -/
structure Pass where
  config : Config
  symbols : SymbolTable
  data : DataSection
  registers : RegisterFile
  labels : LabelTable
  /-- The arguments queued for the next call. -/
  params : List String
  /-- The lines of the text section. -/
  text : List Node
  diagnostics : List Diagnostic
  warnings : List Warning

/-- The state in which a pass begins. -/
def Pass.start (config : Config) : Pass where
  config := config
  symbols := .empty
  data := .empty
  registers := .ofRegisters config.pool config.scratch
  labels := .empty
  params := []
  text := []
  diagnostics := []
  warnings := []

/-- An action on the state of a pass that may end in a fault and then leaves its state behind. -/
abbrev Emit := EStateM Fault Pass

namespace Emit

/-! ## Running actions -/

@[simp] theorem run_pure {α : Type} (a : α) (p : Pass) : (pure a : Emit α).run p = .ok a p :=
  rfl

@[simp] theorem run_throw {α : Type} (fault : Fault) (p : Pass) :
    (throw fault : Emit α).run p = .error fault p :=
  rfl

@[simp] theorem run_get (p : Pass) : (get : Emit Pass).run p = .ok p p :=
  rfl

@[simp] theorem run_modify (f : Pass → Pass) (p : Pass) :
    (modify f : Emit Unit).run p = .ok () (f p) :=
  rfl

/-- A sequence goes on from the state that its first part leaves, and ends with it in a fault. -/
theorem run_bind {α β : Type} (x : Emit α) (f : α → Emit β) (p : Pass) :
    (x >>= f).run p =
      match x.run p with
      | .ok a q => (f a).run q
      | .error fault q => .error fault q := by
  show EStateM.bind x f p = _
  unfold EStateM.bind EStateM.run
  cases x p <;> rfl

/-! ## Laying out text -/

/-- Lays out a line. -/
def node (n : Node) : Emit Unit :=
  modify fun p => { p with text := p.text ++ [n] }

/-- Lays out instructions. -/
def code (is : List Instr) : Emit Unit :=
  modify fun p => { p with text := p.text ++ is.map Node.instr }

/-- Lays out an operation without a comment. -/
def op (o : Op) : Emit Unit :=
  code [⟨o, none⟩]

/-- Lays out an operation with a comment. -/
def opNote (o : Op) (comment : String) : Emit Unit :=
  code [⟨o, some comment⟩]

/-- Lays out a remark. -/
def comment (text : String) : Emit Unit :=
  node (.comment text)

/-- Leaves a record for the log. -/
def warn (w : Warning) : Emit Unit :=
  modify fun p => { p with warnings := p.warnings ++ [w] }

/-- Leaves a diagnostic in place of code. -/
def diagnose (d : Diagnostic) : Emit Unit := do
  warn (.diagnostic d)
  modify fun p => { p with diagnostics := p.diagnostics ++ [d] }
  comment d.message

/-! ## Labels -/

/-- Lays out a label. -/
def label (name : String) : Emit Unit := do
  if (← get).labels.isDefined name then
    warn (.labelRedefined name)
  modify fun p => { p with labels := p.labels.define name }
  node (.label name)

/-- Records a use of a label. -/
def reference (name : String) : Emit Unit :=
  modify fun p => { p with labels := p.labels.reference name }

/-- A new numbered label. -/
def freshLabel (stem : String) (suffixes : List String) : Emit String :=
  modifyGet fun p =>
    let (name, labels) := p.labels.generate stem suffixes
    (name, { p with labels := labels })

/-! ## Symbols and literals -/

/-- Goes on with what a numeral allows, or ends the pass. -/
def ofNumeral {α : Type} : Except Text.NumeralFault α → Emit α
  | .ok a => pure a
  | .error fault => throw (.numeral fault)

/-- Lays out the cell of a symbol.  Where the cell begins is settled before its size is written. -/
def reserve (s : Symbol) : Emit Unit := do
  modify fun p => { p with data := p.data.align s }
  if !s.isWritable then
    throw (.numeral .write)
  modify fun p => { p with data := p.data.append s }

/-- Takes over the outcome of a declaration: the table, and the cell it calls for. -/
def declared (outcome : SymbolTable → SymbolTable × Option Symbol) : Emit Unit := do
  let (symbols, cell) := outcome (← get).symbols
  modify fun p => { p with symbols := symbols }
  match cell with
  | none => return
  | some s => reserve s

/-- Declares a scalar. -/
def declare (name : String) (type : ValueType) : Emit Unit :=
  declared (·.declare name type)

/-- Declares an array. -/
def declareArray (name : String) (type : ValueType) (length : Int) : Emit Unit :=
  declared (·.declareArray name type length)

/-- Records a name that is assigned. -/
def note (name : String) (type : ValueType) : Emit Unit :=
  modify fun p => { p with symbols := p.symbols.note name type }

/-- The label of a literal. -/
def intern (kind : LiteralKind) (written : String) : Emit String :=
  modifyGet fun p =>
    let (name, data) := p.data.intern kind written
    (name, { p with data := data })

/-- The label of a literal of a type; only strings and floats have one. -/
def internAs (type : ValueType) (written : String) : Emit String :=
  match LiteralKind.ofType? type with
  | some kind => intern kind written
  | none => throw (.noLiteralPool type)

/-! ## Operands -/

/-- The register of a name, which is bound now if it was not before. -/
def registerFor (name : String) : Emit Register := do
  if name.isEmpty then
    throw .emptyName
  let file := (← get).registers
  match file.lookup? name with
  | some register => return register
  | none =>
    let register := file.nextRegister
    if file.isExhausted && !file.reported then
      warn (.poolExhausted name register)
    modify fun p => { p with registers := p.registers.bind name }
    return register

/-- The code that brings a named value into its register: an array by its address, a scalar in memory
    by its content, and any other name is there already. -/
def loadCode (symbol : Option Symbol) (name : String) (register : Register) : List Instr :=
  match symbol with
  | none => []
  | some s =>
    if !s.inMemory then []
    else if s.isArray then [⟨.la register name, some ("&" ++ name)⟩]
    else [⟨.load s.type.width register (.label name), some ("load " ++ name)⟩]

/-- The register that will hold an operand, and the code that brings it there.  Literals go to the
    wanted register and bind nothing. -/
def fetch (operand : String) (wanted : Option Register) : Emit (Register × List Instr) := do
  let target := (← get).registers.literalRegister wanted
  match Operand.ofString (Text.stripped operand) with
  | .immediate value => return (target, [⟨.li target value, none⟩])
  | .float value =>
    let name ← intern .float value
    return (target, [⟨.load .word target (.label name), some ("float " ++ value)⟩])
  | .text value =>
    let name ← intern .string value
    return (target, [⟨.la target name, none⟩])
  | .name name =>
    let register ← registerFor name
    return (register, loadCode ((← get).symbols.lookup? name) name register)

/-- Brings an operand into a register. -/
def materialize (operand : String) (wanted : Option Register) : Emit Register := do
  let (register, load) ← fetch operand wanted
  code load
  return register

/-- Writes a register to the cell of a name, if the name has one. -/
def storeBack (name : String) (register : Register) : Emit Unit := do
  match (← get).symbols.lookup? name with
  | none => return
  | some s =>
    if !s.inMemory then return
    else if s.isArray then diagnose (.wholeArray name register)
    else opNote (.store s.type.width register (.label name)) ("store " ++ name)

end Emit

end MipsLowering
