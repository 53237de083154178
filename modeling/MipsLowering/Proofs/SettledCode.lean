import MipsLowering.Proofs.Emission

/-! # Code under settled tables

Registers are bound while the text is laid out, in the order of the text, but the code runs in the
order of the jumps.  What makes this harmless is that a binding is never changed: the code of a
statement can be read off from the tables as they are at the *end* of the pass, together with the
symbols at the place of the statement.  `Tables.code` is that reading, without state, and the theorems
of this module say that it is what the pass has laid out, comments aside.

Covered are the statements on scalars: declarations, labels, jumps, assignments, calls without queued
arguments, and the console. -/

namespace MipsLowering

structure Tables where
  config : Config
  symbols : SymbolTable
  registers : RegisterFile
  data : DataSection

namespace Tables

variable (t : Tables)

def register (name : String) : Register :=
  (t.registers.lookup? name).getD ""

def literal (kind : LiteralKind) (written : String) : String :=
  (t.data.literalLabel? kind written).getD ""

/-! ## Operands -/

/-- The operations that bring a named value into its register. -/
def load (name : String) (register : Register) : List Op :=
  match t.symbols.cell? name with
  | none => []
  | some s =>
    if s.isArray then [.la register name] else [.load s.type.width register (.label name)]

/-- The register that holds an operand of a given class, and the operations that bring it there. -/
def fetchAs (scratch : Register) : Operand → Register × List Op
  | .immediate value => (scratch, [.li scratch value])
  | .float value => (scratch, [.load .word scratch (.label (t.literal .float value))])
  | .text value => (scratch, [.la scratch (t.literal .string value)])
  | .name name => (t.register name, t.load name (t.register name))

def fetch (operand : String) (wanted : Option Register) : Register × List Op :=
  t.fetchAs (t.registers.literalRegister wanted) (Operand.ofString (Text.stripped operand))

/-- The lines that write a register to the cell of a name, if it has one. -/
def store (name : String) (register : Register) : List Node :=
  match t.symbols.cell? name with
  | none => []
  | some s =>
    if s.isArray then [.comment (Diagnostic.wholeArray name register).message]
    else [(Op.store s.type.width register (.label name)).node]

/-! ## Assignments -/

def binaryCode (target left right : String) (op : BinaryOp) : List Node :=
  let first := t.fetch left (some t.config.scratch0)
  let second := t.fetch right (some t.config.scratch1)
  first.2.map Op.node ++ second.2.map Op.node ++
    (op.code (t.register target) first.1 second.1).map (·.op.node) ++ t.store target (t.register target)

def unaryCode (target source : String) (op : UnaryOp) : List Node :=
  let fetched := t.fetch source none
  fetched.2.map Op.node ++ (op.code (t.register target) fetched.1).map (·.op.node) ++
    t.store target (t.register target)

/-- The operations that leave in a register what another one holds; none if they are the same. -/
def moveCode (dest source : Register) : List Op :=
  if source != dest then [.move dest source] else []

/-- The operations that copy an operand of a given class into a register. -/
def copyInto (dest : Register) : Operand → List Op
  | .immediate value => [.li dest value]
  | .float value => [.load .word dest (.label (t.literal .float value))]
  | .text value => [.la dest (t.literal .string value)]
  | .name name => (t.fetch name none).2 ++ moveCode dest (t.fetch name none).1

def copyCode (target source : String) : List Node :=
  (t.copyInto (t.register target) (Operand.ofString source)).map Op.node ++
    t.store target (t.register target)

def assignCode (target : String) (operand1 operator operand2 : Option String) : List Node :=
  match operator, operand2 with
  | some symbol, some right =>
    match BinaryOp.ofSymbol? symbol with
    | some op => t.binaryCode target (operand1.getD "") right op
    | none =>
      [.comment (Diagnostic.binaryOperator target (Stmt.operandText operand1) symbol right).message]
  | some symbol, none =>
    match UnaryOp.ofSymbol? symbol with
    | some op => t.unaryCode target (operand1.getD "") op
    | none => [.comment (Diagnostic.unaryOperator target symbol (Stmt.operandText operand1)).message]
  | none, _ => t.copyCode target (operand1.getD "")

/-! ## Jumps -/

def relationCode (left right target : String) (op : BinaryOp) : List Node :=
  let first := t.fetch left (some t.config.scratch0)
  let second := t.fetch right (some t.config.scratch1)
  first.2.map Op.node ++ second.2.map Op.node ++
    (op.code t.config.scratch0 first.1 second.1).map (·.op.node) ++
    [(Op.bnez t.config.scratch0 target).node]

def branchCode (condition target : String) (operand2 operator : Option String) : List Node :=
  match Stmt.given operator, Stmt.given operand2 with
  | some symbol, some right =>
    match BinaryOp.ofSymbol? symbol with
    | some op => t.relationCode condition right target op
    | none =>
      [.comment (Diagnostic.conditionOperator symbol
        (Stmt.branch condition target operand2 operator).text).message]
  | _, _ =>
    let fetched := t.fetch condition (some t.config.scratch0)
    fetched.2.map Op.node ++ [(Op.bnez fetched.1 target).node]

/-! ## Console and calls -/

def serviceCode (service : Lower.Service) : Op :=
  .li resultRegister (toString service.number)

/-- The operations that put an operand of a given class into the argument register. -/
def argumentCode (operand : String) : Operand → List Op
  | .immediate value => [.li argumentRegister value]
  | .float _ | .text _ =>
    (t.fetch operand (some argumentRegister)).2 ++
      moveCode argumentRegister (t.fetch operand (some argumentRegister)).1
  | .name name =>
    match (t.symbols.lookup? name).filter fun s => s.inMemory && !s.isArray with
    | some s => [.load s.type.width argumentRegister (.label name)]
    | none => (t.fetch name none).2 ++ [.move argumentRegister (t.fetch name none).1]

/-- The operations that put an operand where the service that prints it expects it, and the service. -/
def prepareCode (operand : String) : List Op × Lower.Service :=
  if isVariableName operand && !t.symbols.contains operand then
    ([.la argumentRegister (t.literal .string operand)], .printString)
  else
    match t.symbols.operandType operand with
    | .float =>
      let fetched := t.fetch operand (some t.config.scratch0)
      (fetched.2 ++ [.mtc1 fetched.1 floatArgumentRegister], .printFloat)
    | type => (t.argumentCode operand (Operand.ofString operand), .forType type)

def printCode (value : String) : List Node :=
  let prepared := t.prepareCode value
  prepared.1.map Op.node ++ [(serviceCode prepared.2).node, Op.syscall.node]

def readCode (target : String) : List Node :=
  [(serviceCode .readInt).node, Op.syscall.node] ++ t.store target resultRegister

/-- The remark on a count that is no number, with the arguments that are queued. -/
def queueRemark (function : String) (count : Option Int) (target rawCount : Option String)
    (queued : Nat) : List Node :=
  match count, rawCount with
  | none, some raw =>
    [.comment
      (Diagnostic.argumentCount raw (Stmt.call function count target rawCount).text queued).message]
  | _, _ => []

/-- The remark on a count that is no number. -/
def countRemark (function : String) (count : Option Int) (target rawCount : Option String) :
    List Node :=
  match count, rawCount with
  | none, some raw =>
    [.comment (Diagnostic.argumentCount raw (Stmt.call function count target rawCount).text 0).message]
  | _, _ => []

theorem queueRemark_zero (function : String) (count : Option Int) (target rawCount : Option String) :
    queueRemark function count target rawCount 0 = countRemark function count target rawCount := by
  cases count <;> cases rawCount <;> rfl

/-- The lines that release the stack behind a call. -/
def releaseCode (count : Option Int) : List Node :=
  match Lower.popCode (count.getD 0) t.config.wordSize with
  | .ok is => is.map (·.op.node)
  | .error _ => []

/-- The lines that take the result of a call. -/
def resultCode (target : Option String) : List Node :=
  match Stmt.given target with
  | none => []
  | some name => t.store name resultRegister

/-- The code of a call without queued arguments.  The count is only used to release the stack. -/
def callCode (function : String) (count : Option Int) (target rawCount : Option String) : List Node :=
  countRemark function count target rawCount ++ [(Op.jal function).node] ++ t.releaseCode count ++
    t.resultCode target

/-- The code of a statement on scalars. -/
def code : Stmt → List Node
  | .label name => [.label name]
  | .goto target => [(Op.j target).node]
  | .branch condition target operand2 operator => t.branchCode condition target operand2 operator
  | .assign target operand1 operator operand2 => t.assignCode target operand1 operator operand2
  | .print value => t.printCode value
  | .read target => t.readCode target
  | .call function count target rawCount => t.callCode function count target rawCount
  | _ => []

end Tables

/-! ## Names -/

theorem Operand.eq_of_ofString_name {s name : String} (sort : Operand.ofString s = .name name) :
    name = s := by
  simp only [Operand.ofString] at sort
  split at sort
  · cases sort
  · split at sort
    · cases sort
    · split at sort
      · cases sort
      · cases sort; rfl

/-- The name in an operand of a given class. -/
def Operand.names : Operand → List String
  | .name found => [found]
  | _ => []

namespace Stmt

theorem eq_of_given {operand : Option String} {text : String} (present : given operand = some text) :
    operand = some text := by
  unfold given at present
  split at present
  · cases present
  · exact present

/-- The name that an operand is, if it is one. -/
def namesIn (operand : String) : List String :=
  (Operand.ofString (Text.stripped operand)).names

/-- The names that copying an operand binds; a literal is not stripped before it is classified. -/
def copiedNames (operand : String) : List String :=
  (Operand.ofString operand).names.flatMap namesIn

/-- The names that are bound when an operand of a given class is put into the argument register: a
    scalar that has a cell is loaded from there and needs no register of its own. -/
def argumentNames (symbols : SymbolTable) (operand : String) : Operand → List String
  | .immediate _ => []
  | .float _ | .text _ => namesIn operand
  | .name found =>
    match (symbols.lookup? found).filter fun s => s.inMemory && !s.isArray with
    | some _ => []
    | none => namesIn found

/-- The names that printing an operand binds. -/
def printedNames (symbols : SymbolTable) (operand : String) : List String :=
  if isVariableName operand && !symbols.contains operand then []
  else
    match symbols.operandType operand with
    | .float => namesIn operand
    | _ => argumentNames symbols operand (Operand.ofString operand)

/-- The names that a statement on scalars binds. -/
def names (symbols : SymbolTable) : Stmt → List String
  | .branch condition _ operand2 operator =>
    match given operator, given operand2 with
    | some symbol, some right =>
      if (BinaryOp.ofSymbol? symbol).isSome then namesIn condition ++ namesIn right else []
    | _, _ => namesIn condition
  | .assign target operand1 operator operand2 =>
    match operator, operand2 with
    | some symbol, some right =>
      if (BinaryOp.ofSymbol? symbol).isSome then
        target :: (namesIn (operand1.getD "") ++ namesIn right)
      else []
    | some symbol, none =>
      if (UnaryOp.ofSymbol? symbol).isSome then target :: namesIn (operand1.getD "") else []
    | none, _ => target :: copiedNames (operand1.getD "")
  | .print value => printedNames symbols value
  | _ => []

end Stmt

/-! ## Tables that a pass has come to -/

/-- Tables that hold what a pass has put into its own by now; registers and literals may be later
    ones. -/
structure Tables.Fits (t : Tables) (q : Pass) : Prop where
  config : t.config = q.config
  symbols : t.symbols = q.symbols
  registers : q.registers.Extends t.registers
  literals : q.data.literals <+: t.data.literals

/-- The tables of a state. -/
def Pass.tables (q : Pass) : Tables :=
  ⟨q.config, q.symbols, q.registers, q.data⟩

theorem Pass.fits_tables (q : Pass) : q.tables.Fits q :=
  ⟨rfl, rfl, .refl _, List.prefix_rfl⟩

namespace Tables.Fits

variable {t : Tables} {p q : Pass}

theorem before {nodes : List Node} {names : List String} (fits : t.Fits q)
    (lays : Lays p q nodes names) : t.Fits p where
  config := fits.config.trans lays.config
  symbols := fits.symbols.trans lays.symbols
  registers := lays.registers.trans fits.registers
  literals := lays.literals.trans fits.literals

theorem register {name : String} {r : Register} (fits : t.Fits q)
    (bound : q.registers.lookup? name = some r) : t.register name = r := by
  simp only [Tables.register, fits.registers.lookup? bound, Option.getD_some]

theorem literal {kind : LiteralKind} {written label : String} (fits : t.Fits q)
    (found : q.data.literalLabel? kind written = some label) : t.literal kind written = label := by
  simp only [Tables.literal, DataSection.literalLabel?_of_prefix fits.literals found,
    Option.getD_some]

theorem load (fits : t.Fits q) (name : String) (register : Register) :
    t.load name register = (Emit.loadCode (q.symbols.lookup? name) name register).map Instr.op := by
  simp only [Tables.load, Emit.loadCode, fits.symbols]
  cases entry : q.symbols.lookup? name with
  | none => rw [SymbolTable.cell?_of_lookup?_none entry]; rfl
  | some s =>
    rw [SymbolTable.cell?_of_lookup? entry]
    cases inMemory : s.inMemory <;> cases array : s.isArray <;> simp [inMemory, array]

end Tables.Fits

/-! ## What is laid out -/

namespace Emit

open Stmt (namesIn copiedNames argumentNames printedNames)

variable {p q : Pass}

theorem lays_fetch {operand : String} {wanted : Option Register} {r : Register} {is : List Instr}
    (ran : (fetch operand wanted).run p = .ok (r, is) q) :
    Lays p q [] (namesIn operand) ∧
      ∀ t : Tables, t.Fits q → t.fetch operand wanted = (r, is.map Instr.op) := by
  simp only [fetch, run_get_bind] at ran
  cases sort : Operand.ofString (Text.stripped operand) with
  | immediate value =>
    simp only [sort] at ran
    cases ran
    refine ⟨(Lays.refl p).congr (by simp [namesIn, sort, Operand.names]), fun t fits => ?_⟩
    simp [Tables.fetch, sort, Tables.fetchAs, fits.registers.literalRegister]
  | float value | text value =>
    simp only [sort] at ran
    obtain ⟨label, p₁, interned, done⟩ := run_bind_ok.mp ran
    cases done
    obtain ⟨lays, found⟩ := lays_intern interned
    refine ⟨lays.congr (by simp [namesIn, sort, Operand.names]), fun t fits => ?_⟩
    simp [Tables.fetch, sort, Tables.fetchAs, (fits.before lays).registers.literalRegister,
      fits.literal found]
  | name name =>
    simp only [sort] at ran
    obtain ⟨register, p₁, got, done⟩ := run_bind_ok.mp ran
    simp only [run_get_bind, run_pure, EStateM.Result.ok.injEq, Prod.mk.injEq] at done
    obtain ⟨⟨rfl, rfl⟩, rfl⟩ := done
    obtain ⟨lays, bound⟩ := lays_registerFor got
    refine ⟨?_, fun t fits => ?_⟩
    · rw [namesIn, sort]
      exact lays
    · simp [Tables.fetch, sort, Tables.fetchAs, fits.register bound, fits.load]

theorem lays_materialize {operand : String} {wanted : Option Register} {r : Register}
    (ran : (materialize operand wanted).run p = .ok r q) :
    ∃ is : List Instr, Lays p q (is.map Node.instr) (namesIn operand) ∧
      ∀ t : Tables, t.Fits q → t.fetch operand wanted = (r, is.map Instr.op) := by
  obtain ⟨⟨register, is⟩, p₁, fetched, rest⟩ := run_bind_ok.mp ran
  obtain ⟨_, p₂, coded, done⟩ := run_bind_ok.mp rest
  cases done
  obtain ⟨lays, settled⟩ := lays_fetch fetched
  exact ⟨is, by simpa using lays.andCode (lays_code coded),
    fun t fits => settled t (fits.before (lays_code coded))⟩

/-- An operand that is fetched, and moved unless it is in place already. -/
theorem lays_fetchInto {operand : String} {wanted : Option Register} {dest r : Register} {p₁ : Pass}
    (fetched : (materialize operand wanted).run p = .ok r p₁)
    (moved : (if (r != dest) = true then op (.move dest r) else pure ()).run p₁ = .ok () q) :
    ∃ is : List Instr, Lays p q (is.map Node.instr) (namesIn operand) ∧
      ∀ t : Tables, t.Fits q → (t.fetch operand wanted).2 ++ Tables.moveCode dest (t.fetch operand wanted).1 =
        is.map Instr.op := by
  obtain ⟨is, lays, settled⟩ := lays_materialize fetched
  cases elsewhere : r != dest with
  | false =>
    simp only [elsewhere] at moved
    cases moved
    exact ⟨is, lays, fun t fits => by simp [Tables.moveCode, settled t fits, elsewhere]⟩
  | true =>
    simp only [elsewhere] at moved
    have laysMove := lays_code moved
    refine ⟨is ++ [⟨.move dest r, none⟩], by simpa using lays.andCode laysMove, fun t fits => ?_⟩
    simp [Tables.moveCode, settled t (fits.before laysMove), elsewhere]

/-- A register is written to the cell of a scalar.  Of a name without a cell nothing is written, and that of an array
    is only remarked on. -/
theorem run_storeBack_ok {name : String} {register : Register} (ran : (storeBack name register).run p = .ok () q) :
    p.symbols.cell? name = none ∧ q = p ∨
      ∃ s, p.symbols.cell? name = some s ∧
        (s.isArray = true ∧ (diagnose (.wholeArray name register)).run p = .ok () q ∨
          s.isArray = false ∧
            (opNote (.store s.type.width register (.label name)) ("store " ++ name)).run p = .ok () q) := by
  simp only [storeBack, run_get_bind] at ran
  cases entry : p.symbols.lookup? name with
  | none =>
    simp only [entry] at ran
    cases ran
    exact .inl ⟨SymbolTable.cell?_of_lookup?_none entry, rfl⟩
  | some s =>
    rw [SymbolTable.cell?_of_lookup? entry]
    cases inMemory : s.inMemory with
    | false =>
      simp only [entry, inMemory] at ran
      cases ran
      exact .inl ⟨rfl, rfl⟩
    | true =>
      refine .inr ⟨s, rfl, ?_⟩
      cases array : s.isArray with
      | true =>
        simp only [entry, inMemory, array] at ran
        exact .inl ⟨rfl, ran⟩
      | false =>
        simp only [entry, inMemory, array] at ran
        exact .inr ⟨rfl, ran⟩

theorem lays_storeBack {name : String} {register : Register}
    (ran : (storeBack name register).run p = .ok () q) :
    ∃ nodes, Lays p q nodes [] ∧
      ∀ t : Tables, t.Fits q → nodes.map Node.bare = t.store name register := by
  -- The symbols do not change here, so the cell is the one that the tables have in the end.
  rcases run_storeBack_ok ran with ⟨absent, rfl⟩ | ⟨s, cell, ⟨array, ran⟩ | ⟨scalar, ran⟩⟩
  · refine ⟨[], .refl q, fun t fits => ?_⟩
    simp [Tables.store, fits.symbols, absent]
  · have lays := lays_diagnose ran
    refine ⟨_, lays, fun t fits => ?_⟩
    simp [Tables.store, fits.symbols, lays.symbols, cell, array]
  · have lays := lays_code ran
    refine ⟨_, lays, fun t fits => ?_⟩
    simp [Tables.store, fits.symbols, lays.symbols, cell, scalar]

end Emit

namespace Lower

open Emit
open Stmt (namesIn copiedNames argumentNames printedNames)

variable {p q : Pass}

/-! ### Assignments -/

/-- A symbol table in which one of the assigned names may have been recorded. -/
def Noted (assigned : List String) (before after : SymbolTable) : Prop :=
  after = before ∨ ∃ name ∈ assigned, ∃ type, after = before.note name type

/-- What is laid out for an assignment, with the code that the tables settle. -/
def LaysAssign (p q : Pass) (target : String) (operand1 operator operand2 : Option String) : Prop :=
  ∃ symbols nodes, Noted [target] p.symbols symbols ∧
    Lays { p with symbols := symbols } q nodes
      ((Stmt.assign target operand1 operator operand2).names q.symbols) ∧
    ∀ t : Tables, t.Fits q → nodes.map Node.bare = t.assignCode target operand1 operator operand2

theorem run_operand {given : Option String} {text : String}
    (ran : (operand given).run p = .ok text q) : given = some text ∧ q = p := by
  cases given with
  | none => cases ran
  | some given => cases ran; exact ⟨rfl, rfl⟩

theorem lays_binary {target symbol right : String} {left : Option String}
    (ran : (binary target left symbol right).run p = .ok () q) :
    LaysAssign p q target left (some symbol) (some right) := by
  unfold binary at ran
  cases known : BinaryOp.ofSymbol? symbol with
  | none =>
    simp only [known] at ran
    have lays := lays_diagnose ran
    exact ⟨p.symbols, _, .inl rfl, lays.congr (by simp [Stmt.names, known]), fun t _ => by
      simp [Tables.assignCode, known]⟩
  | some op =>
    simp only [known] at ran
    obtain ⟨_, p₁, noted, ran⟩ := run_bind_ok.mp ran
    obtain ⟨dest, p₂, got, ran⟩ := run_bind_ok.mp ran
    obtain ⟨text, p₃, present, rest⟩ := run_bind_ok.mp ran
    obtain ⟨rfl, rfl⟩ := run_operand present
    rw [run_get_bind] at rest
    obtain ⟨first, p₄, fetched, rest⟩ := run_bind_ok.mp rest
    rw [run_get_bind] at rest
    obtain ⟨second, p₅, fetched', rest⟩ := run_bind_ok.mp rest
    obtain ⟨_, p₆, coded, stored⟩ := run_bind_ok.mp rest
    cases noted
    obtain ⟨laysDest, bound⟩ := lays_registerFor got
    obtain ⟨is, laysFirst, settledFirst⟩ := lays_materialize fetched
    obtain ⟨is', laysSecond, settledSecond⟩ := lays_materialize fetched'
    have laysCode := lays_code coded
    obtain ⟨nodes, laysStore, settledStore⟩ := lays_storeBack stored
    refine ⟨_, _, .inr ⟨target, by simp, op.resultType, rfl⟩,
      ((((laysDest.trans laysFirst).trans laysSecond).andCode laysCode).andCode laysStore).congr
        (by simp [Stmt.names, known]), ?_⟩
    intro t fits
    -- Tables that fit the end fit every state on the way there.
    have fits₆ := fits.before laysStore
    have fits₅ := fits₆.before laysCode
    have fits₄ := fits₅.before laysSecond
    have fits₃ := fits₄.before laysFirst
    have scratch0 : t.config.scratch0 = p₃.config.scratch0 := by rw [fits₃.config]
    have scratch1 : t.config.scratch1 = p₄.config.scratch1 := by rw [fits₄.config]
    simp [Tables.assignCode, known, Tables.binaryCode, scratch0, scratch1, settledFirst t fits₄,
      settledSecond t fits₅, fits₃.register bound, settledStore t fits, Function.comp_def]

theorem lays_unary {target symbol : String} {source : Option String}
    (ran : (unary target symbol source).run p = .ok () q) :
    LaysAssign p q target source (some symbol) none := by
  unfold unary at ran
  cases known : UnaryOp.ofSymbol? symbol with
  | none =>
    simp only [known] at ran
    have lays := lays_diagnose ran
    exact ⟨p.symbols, _, .inl rfl, lays.congr (by simp [Stmt.names, known]), fun t _ => by
      simp [Tables.assignCode, known]⟩
  | some op =>
    simp only [known] at ran
    obtain ⟨_, p₁, noted, ran⟩ := run_bind_ok.mp ran
    obtain ⟨dest, p₂, got, ran⟩ := run_bind_ok.mp ran
    obtain ⟨text, p₃, present, rest⟩ := run_bind_ok.mp ran
    obtain ⟨rfl, rfl⟩ := run_operand present
    obtain ⟨register, p₄, fetched, rest⟩ := run_bind_ok.mp rest
    obtain ⟨_, p₅, coded, stored⟩ := run_bind_ok.mp rest
    cases noted
    obtain ⟨laysDest, bound⟩ := lays_registerFor got
    obtain ⟨is, laysFetch, settledFetch⟩ := lays_materialize fetched
    have laysCode := lays_code coded
    obtain ⟨nodes, laysStore, settledStore⟩ := lays_storeBack stored
    refine ⟨_, _, .inr ⟨target, by simp, op.resultType, rfl⟩,
      (((laysDest.trans laysFetch).andCode laysCode).andCode laysStore).congr
        (by simp [Stmt.names, known]), ?_⟩
    intro t fits
    have fits₄ := (fits.before laysStore).before laysCode
    have fits₃ := fits₄.before laysFetch
    simp [Tables.assignCode, known, Tables.unaryCode, settledFetch t fits₄, fits₃.register bound,
      settledStore t fits, Function.comp_def]

theorem lays_loadInto {dest : Register} {source : String}
    (ran : (loadInto dest source).run p = .ok () q) :
    ∃ is : List Instr, Lays p q (is.map Node.instr) (copiedNames source) ∧
      ∀ t : Tables, t.Fits q → t.copyInto dest (Operand.ofString source) = is.map Instr.op := by
  unfold loadInto at ran
  cases sort : Operand.ofString source with
  | immediate value =>
    simp only [sort] at ran
    exact ⟨_, (lays_code ran).congr (by simp [copiedNames, sort, Operand.names]), fun t _ => by
      simp [Tables.copyInto]⟩
  | float value | text value =>
    simp only [sort] at ran
    obtain ⟨label, p₁, interned, coded⟩ := run_bind_ok.mp ran
    obtain ⟨lays, found⟩ := lays_intern interned
    have laysCode := lays_code coded
    exact ⟨_, (lays.andCode laysCode).congr (by simp [copiedNames, sort, Operand.names]), fun t fits => by
      simp [Tables.copyInto, (fits.before laysCode).literal found]⟩
  | name name =>
    obtain rfl := Operand.eq_of_ofString_name sort
    simp only [sort] at ran
    obtain ⟨register, p₁, fetched, moved⟩ := run_bind_ok.mp ran
    obtain ⟨is, lays, settled⟩ := lays_fetchInto fetched moved
    have names : copiedNames name = namesIn name := by simp [copiedNames, sort, Operand.names]
    exact ⟨is, lays.congr names, settled⟩

theorem lays_copy {target : String} {source operand2 : Option String}
    (ran : (copy target source).run p = .ok () q) :
    LaysAssign p q target source none operand2 := by
  unfold copy at ran
  rw [run_get_bind] at ran
  obtain ⟨_, p₁, noted, ran⟩ := run_bind_ok.mp ran
  obtain ⟨dest, p₂, got, ran⟩ := run_bind_ok.mp ran
  obtain ⟨text, p₃, present, rest⟩ := run_bind_ok.mp ran
  obtain ⟨rfl, rfl⟩ := run_operand present
  obtain ⟨_, p₄, loaded, stored⟩ := run_bind_ok.mp rest
  cases noted
  obtain ⟨laysDest, bound⟩ := lays_registerFor got
  obtain ⟨is, laysLoad, settledLoad⟩ := lays_loadInto loaded
  obtain ⟨nodes, laysStore, settledStore⟩ := lays_storeBack stored
  refine ⟨_, _, .inr ⟨target, by simp, _, rfl⟩,
    ((laysDest.trans laysLoad).andCode laysStore).congr (by simp [Stmt.names]), ?_⟩
  intro t fits
  have fits₄ := fits.before laysStore
  simp [Tables.assignCode, Tables.copyCode, (fits₄.before laysLoad).register bound,
    settledLoad t fits₄, settledStore t fits, Function.comp_def]

theorem lays_assign {target : String} {operand1 operator operand2 : Option String}
    (ran : (assign target operand1 operator operand2).run p = .ok () q) :
    LaysAssign p q target operand1 operator operand2 := by
  cases operator with
  | none => exact lays_copy ran
  | some symbol =>
    cases operand2 with
    | none => exact lays_unary ran
    | some right => exact lays_binary ran

/-! ### Jumps -/

theorem lays_goto {target : String} (ran : (goto target).run p = .ok () q) :
    ∃ nodes, Lays { p with labels := p.labels.reference target } q nodes [] ∧
      nodes.map Node.bare = [(Op.j target).node] := by
  obtain ⟨_, p₁, noted, coded⟩ := run_bind_ok.mp ran
  cases noted
  exact ⟨_, lays_code coded, rfl⟩

theorem lays_relation {left symbol right line : String} {op : BinaryOp} {outcome : Option Register}
    (known : BinaryOp.ofSymbol? symbol = some op)
    (ran : (relation left symbol right line).run p = .ok outcome q) :
    outcome = some p.config.scratch0 ∧
    ∃ nodes, Lays p q nodes (namesIn left ++ namesIn right) ∧
      ∀ t : Tables, t.Fits q → ∀ target, t.relationCode left right target op =
        nodes.map Node.bare ++ [(Op.bnez t.config.scratch0 target).node] := by
  simp only [relation, known, run_get_bind] at ran
  obtain ⟨first, p₁, fetched, ran⟩ := run_bind_ok.mp ran
  obtain ⟨second, p₂, fetched', ran⟩ := run_bind_ok.mp ran
  obtain ⟨_, p₃, coded, done⟩ := run_bind_ok.mp ran
  cases done
  obtain ⟨is, laysFirst, settledFirst⟩ := lays_materialize fetched
  obtain ⟨is', laysSecond, settledSecond⟩ := lays_materialize fetched'
  have laysCode := lays_code coded
  refine ⟨rfl, _, (laysFirst.trans laysSecond).andCode laysCode, ?_⟩
  intro t fits target
  have fits₂ := fits.before laysCode
  have fits₁ := fits₂.before laysSecond
  have config : t.config = p.config := (fits₁.before laysFirst).config
  have scratch0 : t.config.scratch0 = p.config.scratch0 := by rw [config]
  have scratch1 : t.config.scratch1 = p.config.scratch1 := by rw [config]
  simp [Tables.relationCode, scratch0, scratch1, settledFirst t fits₁, settledSecond t fits₂,
    Function.comp_def]

theorem lays_condition {condition target : String} {r : Register} {p₁ : Pass}
    (fetched : (materialize condition (some p.config.scratch0)).run p = .ok r p₁)
    (coded : (branchOn r target).run p₁ = .ok () q) :
    ∃ nodes, Lays p q nodes (namesIn condition) ∧
      ∀ t : Tables, t.Fits q → nodes.map Node.bare =
        (t.fetch condition (some t.config.scratch0)).2.map Op.node ++
          [(Op.bnez (t.fetch condition (some t.config.scratch0)).1 target).node] := by
  obtain ⟨is, lays, settled⟩ := lays_materialize fetched
  have laysCode := lays_code coded
  refine ⟨_, lays.andCode laysCode, fun t fits => ?_⟩
  have fits₁ := fits.before laysCode
  have scratch0 : t.config.scratch0 = p.config.scratch0 := by rw [(fits₁.before lays).config]
  simp [scratch0, settled t fits₁, Function.comp_def]

theorem lays_branch {condition target : String} {operand2 operator : Option String}
    (ran : (branch condition target operand2 operator).run p = .ok () q) :
    ∃ nodes, Lays { p with labels := p.labels.reference target } q nodes
        ((Stmt.branch condition target operand2 operator).names q.symbols) ∧
      ∀ t : Tables, t.Fits q → nodes.map Node.bare =
        t.branchCode condition target operand2 operator := by
  obtain ⟨_, p₁, noted, ran⟩ := run_bind_ok.mp ran
  cases noted
  -- With less than an operator and a second operand, the condition alone decides.
  cases hasOperator : Stmt.given operator with
  | none =>
    simp only [hasOperator, run_get_bind] at ran
    obtain ⟨r, p₂, fetched, coded⟩ := run_bind_ok.mp ran
    obtain ⟨nodes, lays, settled⟩ :=
      lays_condition (p := { p with labels := p.labels.reference target }) fetched coded
    refine ⟨nodes, lays.congr (by simp [Stmt.names, hasOperator]), fun t fits => ?_⟩
    simp [settled t fits, Tables.branchCode, hasOperator]
  | some symbol =>
    cases hasRight : Stmt.given operand2 with
    | none =>
      simp only [hasOperator, hasRight, run_get_bind] at ran
      obtain ⟨r, p₂, fetched, coded⟩ := run_bind_ok.mp ran
      obtain ⟨nodes, lays, settled⟩ :=
        lays_condition (p := { p with labels := p.labels.reference target }) fetched coded
      refine ⟨nodes, lays.congr (by simp [Stmt.names, hasOperator, hasRight]), fun t fits => ?_⟩
      simp [settled t fits, Tables.branchCode, hasOperator, hasRight]
    | some right =>
      simp only [hasOperator, hasRight] at ran
      obtain ⟨outcome, p₂, related, ran⟩ := run_bind_ok.mp ran
      cases known : BinaryOp.ofSymbol? symbol with
      | none =>
        simp only [relation, known] at related
        obtain ⟨_, p₃, diagnosed, done⟩ := run_bind_ok.mp related
        cases done
        cases ran
        refine ⟨_, (lays_diagnose diagnosed).congr
          (by simp [Stmt.names, hasOperator, hasRight, known]), fun t _ => ?_⟩
        simp [Tables.branchCode, hasOperator, hasRight, known]
      | some op =>
        obtain ⟨rfl, nodes, lays, settled⟩ := lays_relation known related
        have laysCode := lays_code ran
        refine ⟨_, (lays.andCode laysCode).congr ?_, fun t fits => ?_⟩
        · simp [Stmt.names, hasOperator, hasRight, known]
        · have fits₂ := fits.before laysCode
          have scratch0 : t.config.scratch0 = p.config.scratch0 := by
            rw [(fits₂.before lays).config]
          simp [Tables.branchCode, hasOperator, hasRight, known, settled t fits₂, scratch0]

/-! ### Console -/

theorem lays_loadArgument {operand : String} (ran : (loadArgument operand).run p = .ok () q) :
    ∃ is : List Instr,
      Lays p q (is.map Node.instr) (argumentNames q.symbols operand (Operand.ofString operand)) ∧
      ∀ t : Tables, t.Fits q → t.argumentCode operand (Operand.ofString operand) = is.map Instr.op := by
  unfold loadArgument at ran
  cases sort : Operand.ofString operand with
  | immediate value =>
    simp only [sort] at ran
    exact ⟨_, lays_code ran, fun t _ => by simp [Tables.argumentCode]⟩
  | float value | text value =>
    simp only [sort] at ran
    obtain ⟨r, p₁, fetched, moved⟩ := run_bind_ok.mp ran
    exact lays_fetchInto fetched moved
  | name name =>
    obtain rfl := Operand.eq_of_ofString_name sort
    simp only [sort, run_get_bind] at ran
    cases cell : (p.symbols.lookup? name).filter fun s => s.inMemory && !s.isArray with
    | some s =>
      simp only [cell] at ran
      have lays := lays_code ran
      refine ⟨_, lays.congr (by simp [argumentNames, lays.symbols, cell]), fun t fits => ?_⟩
      simp [Tables.argumentCode, (fits.before lays).symbols, cell]
    | none =>
      simp only [cell] at ran
      obtain ⟨r, p₁, fetched, coded⟩ := run_bind_ok.mp ran
      obtain ⟨is, lays, settled⟩ := lays_materialize fetched
      have laysCode := lays_code coded
      have laysAll := lays.andCode laysCode
      refine ⟨is ++ [⟨.move argumentRegister r, none⟩],
        by simpa [argumentNames, laysAll.symbols, cell] using laysAll, ?_⟩
      intro t fits
      have fits₁ := fits.before laysCode
      simp [Tables.argumentCode, (fits₁.before lays).symbols, cell, settled t fits₁]

theorem lays_prepare {operand : String} {service : Service}
    (ran : (prepare operand).run p = .ok service q) :
    ∃ is : List Instr, Lays p q (is.map Node.instr) (printedNames q.symbols operand) ∧
      ∀ t : Tables, t.Fits q → t.prepareCode operand = (is.map Instr.op, service) := by
  simp only [prepare, run_get_bind] at ran
  cases word : isVariableName operand && !p.symbols.contains operand with
  | true =>
    simp only [word, if_true] at ran
    obtain ⟨label, p₁, interned, ran⟩ := run_bind_ok.mp ran
    obtain ⟨_, p₂, coded, done⟩ := run_bind_ok.mp ran
    cases done
    obtain ⟨lays, found⟩ := lays_intern interned
    have laysCode := lays_code coded
    have symbols := (lays.andCode laysCode).symbols
    refine ⟨_, (lays.andCode laysCode).congr (by simp [printedNames, symbols, word]), fun t fits => ?_⟩
    have fits₁ := fits.before laysCode
    simp [Tables.prepareCode, (fits₁.before lays).symbols, word, fits₁.literal found]
  | false =>
    simp only [word, Bool.false_eq_true, if_false] at ran
    -- Values of all types but one go through the argument register.
    have plain : ∀ type, p.symbols.operandType operand = type → type ≠ .float →
        (loadArgument operand >>= fun _ => pure (Service.forType type)).run p = .ok service q →
        ∃ is : List Instr, Lays p q (is.map Node.instr) (printedNames q.symbols operand) ∧
          ∀ t : Tables, t.Fits q → t.prepareCode operand = (is.map Instr.op, service) := by
      intro type typed notFloat ran
      obtain ⟨_, p₁, loaded, done⟩ := run_bind_ok.mp ran
      cases done
      obtain ⟨is, lays, settled⟩ := lays_loadArgument loaded
      have bound : printedNames q.symbols operand =
          argumentNames q.symbols operand (Operand.ofString operand) := by
        rw [printedNames, lays.symbols, word, typed]
        cases type with
        | float => exact absurd rfl notFloat
        | _ => rfl
      refine ⟨is, lays.congr bound, fun t fits => ?_⟩
      simp only [Tables.prepareCode, (fits.before lays).symbols, word, typed]
      cases type with
      | float => exact absurd rfl notFloat
      | _ => simp [settled t fits]
    cases typed : p.symbols.operandType operand with
    | float =>
      simp only [typed, run_get_bind] at ran
      obtain ⟨r, p₁, fetched, ran⟩ := run_bind_ok.mp ran
      obtain ⟨_, p₂, coded, done⟩ := run_bind_ok.mp ran
      cases done
      obtain ⟨is, lays, settled⟩ := lays_materialize fetched
      have laysCode := lays_code coded
      have laysAll := lays.andCode laysCode
      refine ⟨is ++ [⟨.mtc1 r floatArgumentRegister, none⟩],
        by simpa [printedNames, laysAll.symbols, word, typed] using laysAll, ?_⟩
      intro t fits
      have fits₁ := fits.before laysCode
      have fits₀ := fits₁.before lays
      have scratch0 : t.config.scratch0 = p.config.scratch0 := by rw [fits₀.config]
      simp [Tables.prepareCode, fits₀.symbols, word, typed, scratch0, settled t fits₁]
    | _ =>
      simp only [typed] at ran
      exact plain _ typed (by simp) ran

theorem lays_print {value : String} (ran : (print value).run p = .ok () q) :
    ∃ nodes, Lays p q nodes ((Stmt.print value).names q.symbols) ∧
      ∀ t : Tables, t.Fits q → nodes.map Node.bare = t.printCode value := by
  obtain ⟨service, p₁, prepared, ran⟩ := run_bind_ok.mp ran
  obtain ⟨_, p₂, selected, called⟩ := run_bind_ok.mp ran
  obtain ⟨is, lays, settled⟩ := lays_prepare prepared
  have laysSelect := lays_code selected
  have laysCall := lays_code called
  have symbols : q.symbols = p₁.symbols := laysCall.symbols.trans laysSelect.symbols
  refine ⟨_, ((lays.andCode laysSelect).andCode laysCall).congr (by rw [Stmt.names, symbols]),
    fun t fits => ?_⟩
  simp [Tables.printCode, settled t ((fits.before laysCall).before laysSelect), Tables.serviceCode,
    Function.comp_def]

end Lower

/-! ### Declarations -/

/-- The state after a declaration of a scalar. -/
def Pass.declaring (p : Pass) (name : String) (type : ValueType) : Pass :=
  { p with
    symbols := (p.symbols.declare name type).1
    data := ((p.symbols.declare name type).2.map fun s => (p.data.align s).append s).getD p.data }

/-- A declaration that succeeds takes over the table, and lays out the cell if one is called for. -/
theorem Emit.run_declared_ok {outcome : SymbolTable → SymbolTable × Option Symbol} {p q : Pass}
    (ran : (Emit.declared outcome).run p = .ok () q) :
    q = { p with
      symbols := (outcome p.symbols).1
      data := ((outcome p.symbols).2.map fun s => (p.data.align s).append s).getD p.data } := by
  simp only [declared, run_get_bind] at ran
  obtain ⟨_, p₁, noted, ran⟩ := run_bind_ok.mp ran
  cases noted
  cases cell : (outcome p.symbols).2 with
  | none =>
    simp only [cell] at ran
    cases ran
    rfl
  | some s =>
    simp only [cell, reserve] at ran
    obtain ⟨_, p₂, aligned, ran⟩ := run_bind_ok.mp ran
    cases aligned
    cases writable : s.isWritable with
    | false => simp [writable] at ran
    | true =>
      simp only [writable] at ran
      cases ran
      rfl

theorem Emit.run_declare_ok {name : String} {type : ValueType} {p q : Pass}
    (ran : (Emit.declare name type).run p = .ok () q) : q = p.declaring name type :=
  run_declared_ok ran

/-- A name that has a cell is not declared again. -/
theorem Pass.declaring_of_isInMemory {p : Pass} {name : String} (type : ValueType)
    (backed : p.symbols.isInMemory name = true) : p.declaring name type = p := by
  have same : p.symbols.declare name type = (p.symbols, none) := by
    simp only [SymbolTable.isInMemory] at backed
    simp only [SymbolTable.declare, SymbolTable.giveCell]
    cases entry : p.symbols.lookup? name with
    | none => simp [entry] at backed
    | some s =>
      simp only [entry, Option.any_some] at backed
      simp [backed]
  simp [Pass.declaring, same]

theorem Lays.declaring {p q : Pass} {nodes : List Node} {names : List String}
    (lays : Lays p q nodes names) (name : String) (type : ValueType) :
    Lays (p.declaring name type) (q.declaring name type) nodes names :=
  { lays with
    symbols := by simp only [Pass.declaring, lays.symbols]
    data := by
      obtain ⟨more, counters, same⟩ := lays.data
      refine ⟨more, counters, ?_⟩
      simp only [Pass.declaring, lays.symbols, same]
      cases (p.symbols.declare name type).2 <;> rfl }

namespace Lower

open Emit

variable {p q : Pass}

theorem lays_read {target : String} (ran : (read target).run p = .ok () q) :
    ∃ nodes, Lays (p.declaring target .int) q nodes [] ∧
      ∀ t : Tables, t.Fits q → nodes.map Node.bare = t.readCode target := by
  simp only [read, run_get_bind] at ran
  -- The target has its cell when the code begins, whether it got it now or before.
  have started : ∃ p₁, p₁ = p.declaring target .int ∧
      (do selectService .readInt; opNote .syscall ("read " ++ target)
          storeBack target resultRegister).run p₁ = .ok () q := by
    cases backed : p.symbols.isInMemory target with
    | true =>
      simp only [backed] at ran
      exact ⟨p, (Pass.declaring_of_isInMemory .int backed).symm, ran⟩
    | false =>
      simp only [backed] at ran
      obtain ⟨_, p₁, declared, ran⟩ := run_bind_ok.mp ran
      exact ⟨p₁, run_declare_ok declared, ran⟩
  obtain ⟨_, rfl, ran⟩ := started
  obtain ⟨_, p₂, selected, ran⟩ := run_bind_ok.mp ran
  obtain ⟨_, p₃, called, stored⟩ := run_bind_ok.mp ran
  obtain ⟨nodes, laysStore, settled⟩ := lays_storeBack stored
  refine ⟨_, ((lays_code selected).andCode (lays_code called)).andCode laysStore, fun t fits => ?_⟩
  simp [Tables.readCode, Tables.serviceCode, settled t fits]

/-! ### Calls -/

theorem lays_argumentCount {function : String} {count : Option Int} {target rawCount : Option String}
    {n : Int} (ran : (argumentCount function count target rawCount).run p = .ok n q) :
    n = count.getD p.params.length ∧ ∃ nodes, Lays p q nodes [] ∧
      nodes.map Node.bare = Tables.queueRemark function count target rawCount p.params.length := by
  simp only [argumentCount, run_get_bind] at ran
  cases count with
  | some given =>
    simp only at ran
    -- A count that asks for more than is queued only leads to a warning.
    split at ran
    · cases ran
      exact ⟨rfl, [], .of_text (by simp) rfl rfl rfl rfl rfl rfl, rfl⟩
    · cases ran
      exact ⟨rfl, [], .refl p, rfl⟩
  | none =>
    cases rawCount with
    | none =>
      cases ran
      exact ⟨rfl, [], .refl p, rfl⟩
    | some raw =>
      obtain ⟨_, p₁, diagnosed, done⟩ := run_bind_ok.mp ran
      cases done
      exact ⟨rfl, _, lays_diagnose diagnosed, rfl⟩

theorem run_ofNumeral_ok {α : Type} {outcome : Except Text.NumeralFault α} {a : α}
    (ran : (ofNumeral outcome).run p = .ok a q) : outcome = .ok a ∧ q = p := by
  cases outcome with
  | ok b => cases ran; exact ⟨rfl, rfl⟩
  | error fault => cases ran

theorem run_push_ok {register : Register} {wordSize : Int} {p q : Pass} :
    (push register wordSize).run p = .ok () q ↔
      Text.isWritable wordSize = true ∧ (code (pushCode register wordSize)).run p = .ok () q := by
  rw [push, Text.isWritable_neg]
  cases Text.isWritable wordSize <;> simp

theorem popCode_cases {count wordSize : Int} {is : List Instr} (popped : popCode count wordSize = .ok is) :
    count ≤ 0 ∧ is = [] ∨
      0 < count ∧ is = [⟨.aluImm .addiu stackPointer stackPointer (count * wordSize),
        some ("pop " ++ toString count ++ if count == 1 then " argument" else " arguments")⟩] := by
  unfold popCode at popped
  split at popped
  next nothing =>
    cases popped
    exact .inl ⟨nothing, rfl⟩
  next positive =>
    split at popped
    · cases popped
    · cases popped
      exact .inr ⟨Int.not_le.mp positive, rfl⟩

/-- What a call goes through that is lowered: it counts and pushes its arguments, jumps, releases the stack, and
    clears the queue before it takes its result. -/
theorem run_call_ok {function : String} {count : Option Int} {target rawCount : Option String}
    (ran : (call function count target rawCount).run p = .ok () q) :
    ∃ p₁ p₂ p₃ p₄ is,
      (argumentCount function count target rawCount).run p = .ok (count.getD p.params.length) p₁ ∧
      (pushAll (p.params.drop (p.params.length - (count.getD p.params.length).toNat))).run p₁ = .ok () p₂ ∧
      (opNote (.jal function) ("call " ++ function)).run { p₂ with labels := p₂.labels.reference function } =
        .ok () p₃ ∧
      popCode (count.getD p.params.length) p₃.config.wordSize = .ok is ∧
      (code is).run p₃ = .ok () p₄ ∧
      (Stmt.given target = none ∧ q = { p₄ with params := [] } ∨
        ∃ name, Stmt.given target = some name ∧
          (do declare name .int; storeBack name resultRegister).run { p₄ with params := [] } = .ok () q) := by
  obtain ⟨n, p₁, counted, ran⟩ := run_bind_ok.mp ran
  obtain ⟨rfl, _, laysCount, _⟩ := lays_argumentCount counted
  rw [run_get_bind, laysCount.params] at ran
  obtain ⟨_, p₂, pushed, ran⟩ := run_bind_ok.mp ran
  obtain ⟨_, _, noted, ran⟩ := run_bind_ok.mp ran
  cases noted
  obtain ⟨_, _, jumped, ran⟩ := run_bind_ok.mp ran
  rw [run_get_bind] at ran
  obtain ⟨is, p₃, popped, rest⟩ := run_bind_ok.mp ran
  obtain ⟨size, rfl⟩ := run_ofNumeral_ok popped
  obtain ⟨_, p₄, coded, rest⟩ := run_bind_ok.mp rest
  obtain ⟨_, _, cleared, last⟩ := run_bind_ok.mp rest
  cases cleared
  refine ⟨p₁, p₂, p₃, p₄, is, counted, pushed, jumped, size, coded, ?_⟩
  cases given : Stmt.given target with
  | none =>
    simp only [given] at last
    cases last
    exact .inl ⟨rfl, rfl⟩
  | some name =>
    simp only [given] at last
    exact .inr ⟨name, rfl, last⟩

/-- A call without queued arguments jumps, releases what its count says, and stores the result in the
    cell of its target, which gets one now. -/
theorem lays_call {function : String} {count : Option Int} {target rawCount : Option String}
    (empty : p.params = []) (ran : (call function count target rawCount).run p = .ok () q) :
    ∃ nodes, Lays
        { ((Stmt.given target).map (p.declaring · .int)).getD p with
          labels := p.labels.reference function } q nodes [] ∧
      ∀ t : Tables, t.Fits q → nodes.map Node.bare = t.callCode function count target rawCount := by
  obtain ⟨p₁, p₂, p₃, p₄, is, counted, pushed, jumped, size, coded, result⟩ := run_call_ok ran
  obtain ⟨-, before, laysCount, bareCount⟩ := lays_argumentCount counted
  rw [empty, List.drop_nil] at pushed
  cases pushed
  rw [empty, List.length_nil, Tables.queueRemark_zero] at bareCount
  -- The queue was empty, so clearing it changes nothing.
  have laysBody := (((laysCount.relabel (·.reference function)).andCode (lays_code jumped)).andCode
    (lays_code coded))
  have laysClear : Lays p₄ { p₄ with params := [] } [] [] :=
    .of_text (by simp) rfl rfl rfl rfl rfl (by rw [laysBody.params, empty])
  have lays := laysBody.andCode laysClear
  have wordSize : p₃.config.wordSize = p.config.wordSize := by
    rw [(lays_code jumped).config]
    exact congrArg (·.wordSize) laysCount.config
  have released : popCode (count.getD 0) p.config.wordSize = .ok is := by
    rw [empty, wordSize] at size
    exact size
  rcases result with ⟨given, rfl⟩ | ⟨name, given, taken⟩
  · rw [given]
    refine ⟨_, lays, fun t fits => ?_⟩
    have config : t.config.wordSize = p.config.wordSize := by rw [(fits.before lays).config]
    simp [Tables.callCode, Tables.releaseCode, Tables.resultCode, bareCount, config, released, given,
      Function.comp_def]
  · obtain ⟨_, p₅, declared, stored⟩ := run_bind_ok.mp taken
    obtain rfl := run_declare_ok declared
    obtain ⟨nodes, laysStore, settled⟩ := lays_storeBack stored
    have laysAll := (lays.declaring name .int).andCode laysStore
    rw [given]
    refine ⟨_, laysAll, fun t fits => ?_⟩
    have config : t.config.wordSize = p.config.wordSize := by rw [(fits.before laysAll).config]; rfl
    simp [Tables.callCode, Tables.releaseCode, Tables.resultCode, bareCount, config, released, given,
      settled t fits, Function.comp_def]

end Lower

/-- Behind a call the stack is released with one operation at most. -/
theorem Tables.releaseCode_cases (t : Tables) (count : Option Int) :
    t.releaseCode count = [] ∨
      ∃ n, t.releaseCode count = [(Op.aluImm .addiu stackPointer stackPointer n).node] := by
  unfold releaseCode
  split
  next is popped =>
    rcases Lower.popCode_cases popped with ⟨-, rfl⟩ | ⟨-, rfl⟩
    · exact .inl rfl
    · exact .inr ⟨_, rfl⟩
  next => exact .inl rfl

end MipsLowering
