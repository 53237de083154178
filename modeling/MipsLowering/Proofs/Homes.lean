import MipsLowering.Proofs.Layout
import MipsLowering.Proofs.Registers

/-! # The homes of names

The value of a name has two places: the register that the name is bound to and, behind its first
declaration in the text, its cell.  Which of them code uses depends on where it stands in the text.

* `Tables.home` is the place that code fetches a value from, and `Tables.written` are the places that
  it writes one to.
* `Tables.Coded` lists the forms that code can have, and `Tables.Prepares` those of the code before a
  value is shown.  Whatever is to be said about the code of all statements is said form by form. -/

namespace MipsLowering

-- The class of an operand is only used through the theorems about it.
seal Operand.ofString

/-! ## Places -/

inductive Home where
  | register (r : Register)
  | cell (name : String)
  deriving Repr, DecidableEq

def Content.at? (c : Content) : Home → Option Word
  | .register r => some (c.reg r)
  | .cell name => (c.cells name).map Cell.value

/-! ## What statements fetch and write -/

/-- Where the value that a statement works out comes from. -/
inductive Source where
  | binary (op : BinaryOp) (left right : String)
  | unary (op : UnaryOp) (operand : String)
  | copy (operand : String)
  | test (operand : String)
  | shown (operand : String)
  -- What is typed at the console, and what a function returns.
  | typed
  | returned (function : String)

namespace Stmt

def source? : Stmt → Option Source
  | .branch condition _ operand2 operator =>
    match given operator, given operand2 with
    | some symbol, some right => (BinaryOp.ofSymbol? symbol).map (.binary · condition right)
    | _, _ => some (.test condition)
  | .assign _ operand1 operator operand2 =>
    match operator, operand2 with
    | some symbol, some right => (BinaryOp.ofSymbol? symbol).map (.binary · (operand1.getD "") right)
    | some symbol, none => (UnaryOp.ofSymbol? symbol).map (.unary · (operand1.getD ""))
    | none, _ => some (.copy (operand1.getD ""))
  | .print value => some (.shown value)
  | .read _ => some .typed
  | .call function _ _ _ => some (.returned function)
  | _ => none

/-- The name that takes the value that a statement works out. -/
def target? (s : Stmt) : Option String :=
  match s with
  | .assign target _ _ _ => s.source?.map fun _ => target
  | .read target => some target
  | .call _ _ target _ => given target
  | _ => none

def isAssignment : Stmt → Bool
  | .assign .. => true
  | _ => false

/-- The names whose values are fetched when an operand of a given class is put into the argument
    register. -/
def suppliedNames (symbols : SymbolTable) (operand : String) : Operand → List String
  | .immediate _ => []
  | .float _ | .text _ => namesIn operand
  | .name found => if symbols.isInMemory found then [found] else namesIn found

/-- The names whose values are shown with an operand.  A word that names nothing is shown as it is. -/
def shownNames (symbols : SymbolTable) (operand : String) : List String :=
  if isVariableName operand && !symbols.contains operand then []
  else
    match symbols.operandType operand with
    | .float => namesIn operand
    | _ => suppliedNames symbols operand (Operand.ofString operand)

end Stmt

/-- How the console shows the value of an operand. -/
def SymbolTable.shows (symbols : SymbolTable) (operand : String) (v : Word) : Output :=
  if isVariableName operand && !symbols.contains operand then .text v
  else
    match symbols.operandType operand with
    | .float => .float v
    | .string => .text v
    | .char => .char v
    | _ => .int v.toInt

namespace Source

open Stmt (namesIn copiedNames shownNames)

/-- The names in the first operand. -/
def first (symbols : SymbolTable) : Source → List String
  | .binary _ left _ => namesIn left
  | .unary _ operand | .test operand => namesIn operand
  | .copy operand => copiedNames operand
  | .shown operand => shownNames symbols operand
  | .typed | .returned _ => []

/-- The names in the second operand. -/
def second : Source → List String
  | .binary _ _ right => namesIn right
  | _ => []

end Source

/-- The names whose values the code of a statement fetches. -/
def Stmt.fetched (symbols : SymbolTable) (s : Stmt) : List String :=
  match s.source? with
  | none => []
  | some source => source.first symbols ++ source.second

/-- The names whose registers the code of a statement loads from their cells.  What is fetched from a cell
    goes through the register of its name, if that has been bound for it. -/
def Stmt.loaded (symbols : SymbolTable) (s : Stmt) : List String :=
  (s.fetched symbols).filter fun name => symbols.isInMemory name && (s.names symbols).contains name

theorem Stmt.mem_loaded {symbols : SymbolTable} {s : Stmt} {name : String} :
    name ∈ s.loaded symbols ↔
      name ∈ s.fetched symbols ∧ symbols.isInMemory name = true ∧ name ∈ s.names symbols := by
  simp [loaded]

namespace Tables

variable (t : Tables)

/-- The place that code fetches the value of a name from. -/
def home (name : String) : Home :=
  if t.symbols.isInMemory name then .cell name else .register (t.register name)

/-- The places that the code of a statement writes the value of its target to.  What is assigned comes
    from the register of the target; what is read and what is returned never passes through it. -/
def written (s : Stmt) : List Home :=
  match s.target? with
  | none => []
  | some name =>
    (if s.isAssignment then [.register (t.register name)] else []) ++
      if t.symbols.isInMemory name then [.cell name] else []

/-- The width of the cell of a name. -/
def width (name : String) : Width :=
  ((t.symbols.cell? name).map (·.type.width)).getD .word

variable {t}

theorem cell_mem_written_iff {s : Stmt} {name : String} :
    .cell name ∈ t.written s ↔ s.target? = some name ∧ t.symbols.isInMemory name = true := by
  unfold written
  cases s.target? with
  | none => simp
  | some other =>
    simp only [Option.some.injEq, List.mem_append]
    constructor
    · rintro (register | cell)
      · split at register <;> simp at register
      · split at cell
        next backed => simp_all
        next => cases cell
    · rintro ⟨rfl, backed⟩
      simp [backed]

theorem register_mem_written_iff {s : Stmt} {r : Register} :
    .register r ∈ t.written s ↔
      ∃ name, s.target? = some name ∧ s.isAssignment = true ∧ r = t.register name := by
  unfold written
  cases s.target? with
  | none => simp
  | some other =>
    simp only [Option.some.injEq, List.mem_append, exists_eq_left']
    constructor
    · rintro (register | cell)
      · split at register <;> simp_all
      · split at cell <;> simp at cell
    · rintro ⟨assigned, rfl⟩
      simp [assigned]

end Tables

/-! ## Forms of code -/

namespace Tables

/-- The forms that the code of a statement can have. -/
inductive Coded (t : Tables) : Stmt → List Node → Prop where
  -- Declarations, labels, and remarks on operators that have no code.
  | idle {s : Stmt} {nodes : List Node} (source : s.source? = none)
      (still : ∀ node ∈ nodes, ∀ i, node ≠ .instr i) : Coded t s nodes
  | goto (target : String) : Coded t (.goto target) [(Op.j target).node]
  | binary {target left right : String} {operand1 operator operand2 : Option String} {op : BinaryOp}
      (source : (Stmt.assign target operand1 operator operand2).source? = some (.binary op left right)) :
      Coded t (.assign target operand1 operator operand2) (t.binaryCode target left right op)
  | unary {target operand : String} {operand1 operator operand2 : Option String} {op : UnaryOp}
      (source : (Stmt.assign target operand1 operator operand2).source? = some (.unary op operand)) :
      Coded t (.assign target operand1 operator operand2) (t.unaryCode target operand op)
  | copy {target operand : String} {operand1 operator operand2 : Option String}
      (source : (Stmt.assign target operand1 operator operand2).source? = some (.copy operand)) :
      Coded t (.assign target operand1 operator operand2) (t.copyCode target operand)
  | relation {condition target left right : String} {operand2 operator : Option String} {op : BinaryOp}
      (source : (Stmt.branch condition target operand2 operator).source? =
        some (.binary op left right)) :
      Coded t (.branch condition target operand2 operator) (t.relationCode left right target op)
  | test {condition target operand : String} {operand2 operator : Option String}
      (source : (Stmt.branch condition target operand2 operator).source? = some (.test operand)) :
      Coded t (.branch condition target operand2 operator)
        ((t.fetch operand (some t.config.scratch0)).2.map Op.node ++
          [(Op.bnez (t.fetch operand (some t.config.scratch0)).1 target).node])
  | print (value : String) : Coded t (.print value) (t.printCode value)
  | read (target : String) : Coded t (.read target) (t.readCode target)
  | call (function : String) (count : Option Int) (target rawCount : Option String) :
      Coded t (.call function count target rawCount) (t.callCode function count target rawCount)

theorem coded (t : Tables) (s : Stmt) : t.Coded s (t.code s) := by
  cases s with
  | goto target => exact .goto target
  | branch condition target operand2 operator =>
    rw [code]
    unfold branchCode
    split
    next symbol right first second =>
      cases known : BinaryOp.ofSymbol? symbol with
      | some op => exact .relation (by simp [Stmt.source?, first, second, known])
      | none => exact .idle (by simp [Stmt.source?, first, second, known]) (by simp)
    next => exact .test (by simp only [Stmt.source?])
  | assign target operand1 operator operand2 =>
    rw [code]
    unfold assignCode
    split
    next symbol right =>
      cases known : BinaryOp.ofSymbol? symbol with
      | some op => exact .binary (by simp [Stmt.source?, known])
      | none => exact .idle (by simp [Stmt.source?, known]) (by simp)
    next symbol =>
      cases known : UnaryOp.ofSymbol? symbol with
      | some op => exact .unary (by simp [Stmt.source?, known])
      | none => exact .idle (by simp [Stmt.source?, known]) (by simp)
    next => exact .copy (by simp [Stmt.source?])
  | print value => exact .print value
  | read target => exact .read target
  | call function count target rawCount => exact .call function count target rawCount
  | label name => exact .idle rfl (by simp [code])
  | _ => exact .idle rfl (by simp [code])

end Tables

namespace Stmt

variable {symbols : SymbolTable} {s : Stmt}

theorem fetched_of_source (symbols : SymbolTable) {source : Source} (works : s.source? = some source) :
    s.fetched symbols = source.first symbols ++ source.second := by
  rw [fetched, works]

theorem target?_of_source {target : String} {operand1 operator operand2 : Option String}
    {source : Source} (works : (assign target operand1 operator operand2).source? = some source) :
    (assign target operand1 operator operand2).target? = some target := by
  rw [target?, works, Option.map_some]

/-- A conditional jump binds what it fetches. -/
theorem names_branch (symbols : SymbolTable) (condition target : String) (operand2 operator : Option String) :
    (branch condition target operand2 operator).names symbols =
      (branch condition target operand2 operator).fetched symbols := by
  simp only [names, fetched, source?]
  cases given operator with
  | none => simp [Source.first, Source.second]
  | some symbol =>
    cases given operand2 with
    | none => simp [Source.first, Source.second]
    | some right => cases known : BinaryOp.ofSymbol? symbol <;> simp [known, Source.first, Source.second]

/-- An assignment binds its target and what it fetches. -/
theorem names_assign (symbols : SymbolTable) {target : String} {operand1 operator operand2 : Option String} {source : Source}
    (works : (assign target operand1 operator operand2).source? = some source) :
    (assign target operand1 operator operand2).names symbols =
      target :: (assign target operand1 operator operand2).fetched symbols := by
  rw [fetched_of_source symbols works]
  simp only [source?] at works
  cases operator with
  | none =>
    cases works
    simp [names, Source.first, Source.second]
  | some symbol =>
    cases operand2 with
    | none =>
      obtain ⟨op, known, rfl⟩ := Option.map_eq_some_iff.mp works
      simp [names, known, Source.first, Source.second]
    | some right =>
      obtain ⟨op, known, rfl⟩ := Option.map_eq_some_iff.mp works
      simp [names, known, Source.first, Source.second]

theorem mem_argumentNames {operand name : String} {sort : Operand}
    (supplied : name ∈ suppliedNames symbols operand sort)
    (register : symbols.isInMemory name = false) : name ∈ argumentNames symbols operand sort := by
  cases sort with
  | immediate value => exact supplied
  | float value | text value => exact supplied
  | name found =>
    simp only [suppliedNames] at supplied
    split at supplied
    next backed =>
      obtain rfl := List.mem_singleton.mp supplied
      cases register.symm.trans backed
    next register' =>
      have absent : (symbols.lookup? found).filter (fun s => s.inMemory && !s.isArray) = none := by
        rw [Option.filter_eq_none_iff]
        intro entry present
        simp only [SymbolTable.isInMemory, present, Option.any_some] at register'
        simp [register']
      simpa only [argumentNames, absent] using supplied

/-- A print binds what it fetches, unless it fetches it straight from its cell. -/
theorem mem_names_print {value name : String} (fetched : name ∈ (print value).fetched symbols)
    (register : symbols.isInMemory name = false) : name ∈ (print value).names symbols := by
  simp only [fetched_of_source (s := print value) symbols rfl, Source.first, Source.second,
    List.append_nil, shownNames] at fetched
  simp only [names, printedNames]
  by_cases text : (isVariableName value && !symbols.contains value) = true
  · rw [if_pos text] at fetched
    cases fetched
  · rw [if_neg text] at fetched ⊢
    cases typed : symbols.operandType value with
    | float => simpa only [typed] using fetched
    | _ =>
      simp only [typed] at fetched ⊢
      exact mem_argumentNames fetched register

/-- What is fetched is bound, unless it is shown straight from its cell. -/
theorem mem_names_of_fetched {name : String} (fetched : name ∈ s.fetched symbols)
    (needed : (∀ value, s ≠ .print value) ∨ symbols.isInMemory name = false) :
    name ∈ s.names symbols := by
  cases s with
  | branch condition target operand2 operator =>
    rw [names_branch]
    exact fetched
  | assign target operand1 operator operand2 =>
    cases works : (assign target operand1 operator operand2).source? with
    | none =>
      rw [Stmt.fetched, works] at fetched
      cases fetched
    | some source =>
      rw [names_assign symbols works]
      exact List.mem_cons_of_mem target fetched
  | print value =>
    rcases needed with silent | register
    · exact absurd rfl (silent value)
    · exact mem_names_print fetched register
  | _ => cases fetched

end Stmt

/-! ## Tables of a program on scalars -/

/-- A name that is bound to a register of the pool. -/
def Tables.Bound (t : Tables) (name : String) : Prop :=
  ∃ r ∈ t.config.pool, t.registers.lookup? name = some r

theorem Tables.Bound.pooled {t : Tables} {name : String} (bound : t.Bound name) :
    t.register name ∈ t.config.pool := by
  obtain ⟨r, pooled, here⟩ := bound
  rwa [register, here, Option.getD_some]

theorem Tables.Bound.notZero {t : Tables} {name : String} (bound : t.Bound name) :
    t.register name ≠ zeroRegister := by
  intro zero
  exact t.config.not_mem_pool_of_reserved (r := zeroRegister) (by decide) (zero ▸ bound.pooled)

/-- Names that share no registers are the same if their registers are. -/
theorem Tables.Bound.inj {t : Tables} (apart : t.registers.Apart) {name other : String}
    (bound : t.Bound name) (bound' : t.Bound other) (same : t.register name = t.register other) :
    name = other := by
  obtain ⟨r, _, here⟩ := bound
  obtain ⟨r', _, here'⟩ := bound'
  simp only [register, here, here', Option.getD_some] at same
  exact apart name other r here (same ▸ here')

/-- What a pass over scalars says of the tables under which the code of a statement is settled. -/
structure Tables.Ready (t : Tables) (s : Stmt) : Prop where
  scalars : ∀ name entry, t.symbols.lookup? name = some entry → entry.isArray = false
  scratch : t.registers.scratch = t.config.scratch
  bound : ∀ name ∈ s.names t.symbols, t.Bound name

namespace Tables.Ready

variable {t : Tables} {s : Stmt} (ready : t.Ready s)

include ready

theorem isArray {name : String} {entry : Symbol} (found : t.symbols.cell? name = some entry) :
    entry.isArray = false := by
  rw [SymbolTable.cell?, Option.filter_eq_some_iff] at found
  exact ready.scalars name entry found.1

theorem load_eq (name : String) (r : Register) :
    t.load name r =
      if t.symbols.isInMemory name then [.load (t.width name) r (.label name)] else [] := by
  rw [load, width, SymbolTable.isInMemory_eq_cell?]
  cases found : t.symbols.cell? name with
  | none => rfl
  | some entry => simp [ready.isArray found]

theorem store_eq (name : String) (r : Register) :
    t.store name r =
      if t.symbols.isInMemory name then [(Op.store (t.width name) r (.label name)).node] else [] := by
  rw [store, width, SymbolTable.isInMemory_eq_cell?]
  cases found : t.symbols.cell? name with
  | none => rfl
  | some entry => simp [ready.isArray found]

/-! Literals are brought into registers that no name is bound to. -/

theorem literalRegister_none : t.registers.literalRegister none ∉ t.config.pool := by
  rw [RegisterFile.literalRegister, ready.scratch]
  exact t.config.not_mem_pool_of_scratch t.config.scratch0_mem

theorem literalRegister_some {r : Register} (spare : r ∉ t.config.pool) :
    t.registers.literalRegister (some r) ∉ t.config.pool := by
  rw [RegisterFile.literalRegister]
  split
  · exact ready.literalRegister_none
  · exact spare

theorem literalRegister_scratch0 :
    t.registers.literalRegister (some t.config.scratch0) ∉ t.config.pool :=
  ready.literalRegister_some (t.config.not_mem_pool_of_scratch t.config.scratch0_mem)

theorem literalRegister_scratch1 :
    t.registers.literalRegister (some t.config.scratch1) ∉ t.config.pool :=
  ready.literalRegister_some (t.config.not_mem_pool_of_scratch t.config.scratch1_mem)

theorem literalRegister_argument :
    t.registers.literalRegister (some argumentRegister) ∉ t.config.pool :=
  ready.literalRegister_some (t.config.not_mem_pool_of_reserved (by decide))

end Tables.Ready

/-- How the console shows a value in the argument register. -/
def Lower.Service.output? : Lower.Service → Word → Option Output
  | .printInt, v => some (.int v.toInt)
  | .printString, v => some (.text v)
  | .printChar, v => some (.char v)
  | _, _ => none

namespace Tables

variable {t : Tables} {s : Stmt}

/-- The operations that put a value into the argument register, the names whose values they fetch, and
    those that are bound for it. -/
inductive Supplies (t : Tables) : List Op → List String → List String → Prop where
  | literal {op : Op} (loads : (∃ value, op = .li argumentRegister value) ∨ ∃ label, op = .la argumentRegister label) :
      Supplies t [op] [] []
  | cell {name : String} (backed : t.symbols.isInMemory name = true) :
      Supplies t [.load (t.width name) argumentRegister (.label name)] [name] []
  | fetch {operand : String} {wanted : Option Register} {moves : List Op}
      (spare : t.registers.literalRegister wanted ∉ t.config.pool)
      (moved : moves = [.move argumentRegister (t.fetch operand wanted).1] ∨
        moves = [] ∧ (t.fetch operand wanted).1 = argumentRegister) :
      Supplies t ((t.fetch operand wanted).2 ++ moves) (Stmt.namesIn operand) (Stmt.namesIn operand)

namespace Ready

variable (ready : t.Ready s)

include ready

/-- A name has a cell as a scalar, since there are no arrays. -/
theorem filter_lookup? (name : String) :
    (t.symbols.lookup? name).filter (fun entry => entry.inMemory && !entry.isArray) =
      t.symbols.cell? name := by
  unfold SymbolTable.cell?
  cases found : t.symbols.lookup? name with
  | none => rfl
  | some entry => simp [Option.filter_some, ready.scalars name entry found]

theorem supplies (operand : String) :
    t.Supplies (t.argumentCode operand (Operand.ofString operand))
      (Stmt.suppliedNames t.symbols operand (Operand.ofString operand))
      (Stmt.argumentNames t.symbols operand (Operand.ofString operand)) := by
  have moves : moveCode argumentRegister (t.fetch operand (some argumentRegister)).1 =
        [.move argumentRegister (t.fetch operand (some argumentRegister)).1] ∨
      moveCode argumentRegister (t.fetch operand (some argumentRegister)).1 = [] ∧
        (t.fetch operand (some argumentRegister)).1 = argumentRegister := by
    unfold moveCode
    split
    next => exact .inl rfl
    next same => exact .inr ⟨rfl, by simpa using same⟩
  cases Operand.ofString operand with
  | immediate value => exact .literal (.inl ⟨value, rfl⟩)
  | float value | text value => exact .fetch ready.literalRegister_argument moves
  | name name =>
    simp only [argumentCode, Stmt.argumentNames, ready.filter_lookup?, Stmt.suppliedNames,
      SymbolTable.isInMemory_eq_cell?]
    cases found : t.symbols.cell? name with
    | none => exact .fetch ready.literalRegister_none (.inl rfl)
    | some entry =>
      have width : entry.type.width = t.width name := by simp [Tables.width, found]
      have backed : t.symbols.isInMemory name = true := by
        simp [SymbolTable.isInMemory_eq_cell?, found]
      simp only [width, Option.isSome_some, if_true]
      exact .cell backed

end Ready

/-- The operations that put an operand where the service that shows it expects it, and the service. -/
inductive Prepares (t : Tables) (operand : String) : List Op → Lower.Service → Prop where
  | argument {ops : List Op} {service : Lower.Service}
      (supplies : t.Supplies ops (Stmt.shownNames t.symbols operand)
        (Stmt.printedNames t.symbols operand))
      (shown : ∀ v, service.output? v = some (t.symbols.shows operand v)) :
      Prepares t operand ops service
  | float (fetched : Stmt.shownNames t.symbols operand = Stmt.namesIn operand)
      (named : Stmt.printedNames t.symbols operand = Stmt.namesIn operand)
      (shown : ∀ v, t.symbols.shows operand v = .float v) :
      Prepares t operand ((t.fetch operand (some t.config.scratch0)).2 ++
        [.mtc1 (t.fetch operand (some t.config.scratch0)).1 floatArgumentRegister]) .printFloat

theorem Ready.prepares (ready : t.Ready s) (operand : String) :
    t.Prepares operand (t.prepareCode operand).1 (t.prepareCode operand).2 := by
  unfold prepareCode
  by_cases text : (isVariableName operand && !t.symbols.contains operand) = true
  · rw [if_pos text]
    refine .argument ?_ fun v => ?_
    · rw [Stmt.shownNames, if_pos text, Stmt.printedNames, if_pos text]
      exact .literal (.inr ⟨_, rfl⟩)
    · rw [SymbolTable.shows, if_pos text]
      rfl
  · rw [if_neg text]
    cases typed : t.symbols.operandType operand with
    | float =>
      refine .float ?_ ?_ fun v => ?_
      · simp only [Stmt.shownNames, if_neg text, typed]
      · simp only [Stmt.printedNames, if_neg text, typed]
      · simp only [SymbolTable.shows, if_neg text, typed]
    | _ =>
      refine .argument ?_ fun v => ?_
      · simp only [Stmt.shownNames, Stmt.printedNames, if_neg text, typed]
        exact ready.supplies operand
      · simp only [SymbolTable.shows, if_neg text, typed]
        rfl

end Tables

end MipsLowering
