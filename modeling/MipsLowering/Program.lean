import MipsLowering.Lower.Array
import MipsLowering.Lower.Assign
import MipsLowering.Lower.Call
import MipsLowering.Lower.Console
import MipsLowering.Lower.Jump
import MipsLowering.Source.Reader

/-!
# Programs

A program is lowered statement by statement, each from the state that the one before it left.  The
labels that the program names anywhere are reserved first.  At the end come the exit sequence and the
check of the labels, and the listing is printed from the final state.
-/

namespace MipsLowering

/-! ## Lines -/

/-- A statement with the line that it is annotated with. -/
structure Line where
  source : String
  stmt : Stmt
  deriving Repr, DecidableEq

/-- A program. -/
abbrev Program := List Line

namespace Program

/-- The program on lines of text; blank lines hold no statement. -/
def ofLines (lines : List String) : Except Text.NumeralFault Program :=
  (Stmt.filledLines lines).mapM fun line => (Stmt.ofLine line).map (⟨line, ·⟩)

/-- The program made of statements, each annotated with its own line. -/
def ofStmts (stmts : List Stmt) : Program :=
  stmts.map fun stmt => ⟨stmt.text, stmt⟩

/-- The same program, unless a statement cannot be spelled. -/
def spell (stmts : List Stmt) : Except Text.NumeralFault Program :=
  stmts.mapM fun stmt => stmt.spell.map (⟨·, stmt⟩)

end Program

/-- The label that a statement defines, jumps to, or calls. -/
def Stmt.namedLabel? : Stmt → Option String
  | .label name => some name
  | .goto name => some name
  | .branch _ name _ _ => some name
  | .call function _ _ _ => some function
  | _ => none

/-! ## Statements -/

namespace Lower

/-- Lowers a statement. -/
def stmt : Stmt → Emit Unit
  | .declare name typeName _ => Emit.declare name (.ofGivenName typeName)
  | .declareArray name length typeName _ => Emit.declareArray name (.ofGivenName typeName) length
  | .label name => Emit.label name
  | .comment text => Emit.comment text
  | .goto target => goto target
  | .branch condition target operand2 operator => branch condition target operand2 operator
  | .assign target operand1 operator operand2 => assign target operand1 operator operand2
  | .arrayLoad target array index => arrayLoad target array index
  | .arrayStore array index value => arrayStore array index value
  | .zeroFill array start stop => zeroFill array start stop
  | .param operand => param operand
  | .call function count target rawCount => call function count target rawCount
  | .ret value => ret value
  | .print value => print value
  | .read target => read target
  | .malformed text reason => Emit.diagnose (.malformed text reason)
  | .unsupported text => Emit.diagnose (.unsupported text)
  | .foreign text => Emit.diagnose (.unsupported text)

/-- Lowers a line: its statement is lowered into a text of its own, in which the first instruction is
    annotated with the source if the settings say so.  Text that a fault breaks off is kept as it
    is. -/
def line (l : Line) : Emit Unit := fun p =>
  match (stmt l.stmt).run { p with text := [] } with
  | .ok _ q =>
    let own := if p.config.annotate then Node.annotate l.source q.text else q.text
    .ok () { q with text := p.text ++ own }
  | .error fault q => .error fault { q with text := p.text ++ q.text }

/-- Lowers lines in order. -/
def lines : Program → Emit Unit
  | [] => pure ()
  | l :: rest => do
    line l
    lines rest

/-- Lowering two programs as one is lowering them one after the other. -/
theorem lines_append (first second : Program) :
    lines (first ++ second) = (do lines first; lines second) := by
  induction first with
  | nil => simp [lines]
  | cons l rest ih => simp [lines, ih]

/-- Reserves the labels that a program names. -/
def reserveLabels (program : Program) : Emit Unit :=
  modify fun p =>
    { p with
      labels := (program.filterMap fun l => l.stmt.namedLabel?).foldl LabelTable.reserve p.labels }

/-- Checks that every label in use is defined: a fault if the settings are strict, a warning
    otherwise. -/
def checkLabels : Emit Unit := do
  let p ← get
  match p.labels.validate with
  | .ok () => return
  | .error fault =>
    if p.config.strictLabels then
      throw fault
    Emit.warn (.undefinedLabels p.labels.undefined)

/-- Lowers a whole program. -/
def program (lines : Program) : Emit Unit := do
  reserveLabels lines
  Lower.lines lines
  if (← get).config.emitExit then
    exit
  checkLabels

end Lower

/-! ## Results -/

/-- Numbers about a pass. -/
structure Statistics where
  instructions : Nat
  labels : Nat
  symbols : Nat
  literals : Nat
  registersUsed : Nat
  poolExhausted : Bool
  undefinedLabels : List String
  diagnostics : Nat
  deriving Repr, DecidableEq

namespace Pass

/-- The lines of the listing. -/
def listingLines (p : Pass) : List String :=
  [".data"] ++ p.data.render ++
    ["", ".text", ".globl " ++ p.config.entryLabel, p.config.entryLabel ++ ":"] ++
    p.text.map Node.render

/-- The listing. -/
def listing (p : Pass) : String :=
  String.intercalate "\n" p.listingLines ++ "\n"

/-- The numbers about a pass. -/
def statistics (p : Pass) : Statistics where
  instructions := p.text.countP Node.isInstr
  labels := p.labels.all.length
  symbols := p.symbols.entries.length
  literals := p.data.literals.length
  registersUsed := p.registers.used
  poolExhausted := p.registers.isExhausted
  undefinedLabels := p.labels.undefined
  diagnostics := p.diagnostics.length

/-- The messages of the diagnostics. -/
def diagnosticMessages (p : Pass) : List String :=
  p.diagnostics.map Diagnostic.message

/-- The records of the log. -/
def records (p : Pass) : List String :=
  p.warnings.map Warning.record

/-- What an action does from a state: its value or fault, and the state it leaves. -/
def perform {α : Type} (p : Pass) (action : Emit α) : Except Fault α × Pass :=
  match action.run p with
  | .ok a q => (.ok a, q)
  | .error fault q => (.error fault, q)

end Pass

/-- Lowers a program: the listing or the fault, and the final state of the pass. -/
def lowerProgram (config : Config) (program : Program) : Except Fault String × Pass :=
  match (Pass.start config).perform (Lower.program program) with
  | (.ok _, p) => (.ok p.listing, p)
  | (.error fault, p) => (.error fault, p)

/-- Lowers a program that was read after an earlier pass.  A program that could not be read begins no
    pass of its own, so the earlier one stays the last. -/
def lowerNext (last : Pass) (read : Except Text.NumeralFault Program) :
    Except Fault String × Pass :=
  match read with
  | .ok program => lowerProgram last.config program
  | .error fault => (.error (.numeral fault), last)

/-- Lowers the program on lines of text. -/
def lowerLines (config : Config) (lines : List String) : Except Fault String × Pass :=
  lowerNext (Pass.start config) (Program.ofLines lines)

/-- Lowers the program made of statements, in a pass that begins before they are spelled. -/
def lowerStmts (config : Config) (stmts : List Stmt) : Except Fault String × Pass :=
  match Program.spell stmts with
  | .ok program => lowerProgram config program
  | .error fault => (.error (.numeral fault), Pass.start config)

/-! ## Traces -/

/-- One line of a trace: the fault it ended in, if any, and the states around it. -/
structure TraceStep where
  line : Line
  fault : Option Fault
  before : Pass
  after : Pass

/-- Lowers lines one after the other, past faults. -/
def traceFrom (p : Pass) : Program → List TraceStep
  | [] => []
  | l :: rest =>
    match p.perform (Lower.line l) with
    | (.ok _, q) => ⟨l, none, p, q⟩ :: traceFrom q rest
    | (.error fault, q) => ⟨l, some fault, p, q⟩ :: traceFrom q rest

/-- The steps of a program, without the exit sequence and the check of the labels, and the state after
    the last of them. -/
def traceProgram (config : Config) (program : Program) : List TraceStep × Pass :=
  let ready := ((Pass.start config).perform (Lower.reserveLabels program)).2
  let steps := traceFrom ready program
  (steps, (steps.getLast?.map TraceStep.after).getD ready)

end MipsLowering
