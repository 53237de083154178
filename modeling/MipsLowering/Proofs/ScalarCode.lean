import MipsLowering.Proofs.Interpreter
import MipsLowering.Proofs.Operands
import MipsLowering.Proofs.SettledCode
import MipsLowering.Proofs.Templates

/-! # What the code of a scalar program does

The machine keeps a declared variable in its cell and any other one in the register that it is bound
to (`Holds`).  Under tables that suit this (`Tables.Suits`), the code of a statement does to the machine
what the statement does to the variables (`run_code`), and only its last line can print
(`quiet_code`).

A register that a declared variable is bound to holds nothing that is needed later, so declared
variables may share registers with one another.  Registers matter in two places only: no variable that
lives in a register shares it, and the operands of one operator are not fetched into the same register
unless they are the same. -/

namespace MipsLowering

-- The class of an operand is only used through the theorems about it.
seal Operand.ofString

/-- The machine holds what the variables hold. -/
structure Holds (declared : List String) (file : RegisterFile) (σ : Store) (c : Content) : Prop where
  cell : ∀ name ∈ declared, c.cells name = some ⟨.word, σ name⟩
  register : ∀ name r, name ∉ declared → file.lookup? name = some r → c.reg r = σ name

/-- The registers that code uses for other things than variables. -/
def workRegisters : List Register :=
  zeroRegister :: resultRegister :: argumentRegister :: defaultScratch

/-- A variable that lives in a register has it for itself, and no variable is bound to a register with
    another part. -/
structure RegisterFile.Separates (declared : List String) (file : RegisterFile) : Prop where
  free : ∀ name r, file.lookup? name = some r → r ∉ workRegisters
  apart : ∀ name other r, name ∉ declared → file.lookup? name = some r →
    file.lookup? other = some r → other = name

/-- The cell of a declared integer. -/
def intSymbol (name : String) : Symbol :=
  ⟨name, .scalar, .int, 0, true⟩

/-- Tables at a place in the body of a scalar program. -/
structure Tables.Suits (declared : List String) (t : Tables) : Prop where
  scratch : t.config.scratch = defaultScratch
  literals : t.registers.scratch = defaultScratch
  separates : t.registers.Separates declared
  cells : ∀ name, t.symbols.cell? name = if name ∈ declared then some (intSymbol name) else none
  integers : ∀ operand n, Text.decimal? operand.toList = some n → t.symbols.lookup? operand = none

/-- What the code of a statement needs of the registers: its variables are bound, and two operands of
    an operator that are fetched into one register are the same. -/
structure RegisterFile.Serves (file : RegisterFile) (s : Stmt) : Prop where
  bound : (∀ value, s ≠ .print value) → ∀ name ∈ s.vars, ∃ r, file.lookup? name = some r
  pair : ∀ left right, s.pair? = some (left, right) → isVariableName left = true →
    isVariableName right = true → file.lookup? left = file.lookup? right → left = right

theorem Content.setReg_of_reg {c : Content} {r : Register} {value : Word} (notZero : r ≠ zeroRegister)
    (same : c.reg r = value) : c.setReg r value = c := by
  have restored : ∀ other, (if other = r then value else c.registers other) = c.registers other := by
    intro other
    by_cases here : other = r
    · subst here
      simpa [Content.reg, notZero] using same.symm
    · simp [here]
  simp only [Content.setReg, restored]

namespace Holds

variable {declared : List String} {file : RegisterFile} {σ : Store} {c : Content}

theorem setLo (holds : Holds declared file σ c) (lo : Word) : Holds declared file σ (c.setLo lo) :=
  ⟨holds.cell, holds.register⟩

/-- A write to a register is harmless if no other variable lives there. -/
theorem setReg (holds : Holds declared file σ c) {r : Register} {value : Word}
    (notZero : r ≠ zeroRegister)
    (harmless : ∀ name, name ∉ declared → file.lookup? name = some r → σ name = value) :
    Holds declared file σ (c.setReg r value) where
  cell := holds.cell
  register name r' undeclared bound := by
    by_cases same : r' = r
    · subst same
      rw [Content.reg_setReg_self c value notZero, harmless name undeclared bound]
    · rw [Content.reg_setReg_of_ne c value same, holds.register name r' undeclared bound]

/-- A write to a register that no variable is bound to. -/
theorem setReg_work (holds : Holds declared file σ c) (separates : file.Separates declared)
    {r : Register} (work : r ∈ workRegisters) (notZero : r ≠ zeroRegister) (value : Word) :
    Holds declared file σ (c.setReg r value) :=
  holds.setReg notZero fun name _ bound => absurd work (separates.free name r bound)

/-- A write to the register of a variable, and to its cell if it has one. -/
theorem assign (holds : Holds declared file σ c) (separates : file.Separates declared)
    {name : String} {dest : Register} (bound : file.lookup? name = some dest) (value : Word) :
    Holds declared file (Function.update σ name value)
      (if name ∈ declared then (c.setReg dest value).setCell name ⟨.word, value⟩
        else c.setReg dest value) := by
  have notZero : dest ≠ zeroRegister := fun same =>
    separates.free name dest bound (by simp [workRegisters, same])
  constructor
  -- Cells: only that of `name` changes.
  · intro other isDeclared
    by_cases same : other = name
    · subst same
      rw [if_pos isDeclared, Content.cells_setCell_self, Function.update_self]
    · rw [Function.update_of_ne same]
      split
      · rw [Content.cells_setCell_of_ne _ _ same]
        exact holds.cell other isDeclared
      · exact holds.cell other isDeclared
  -- Registers: a variable that lives in one has it for itself.
  · intro other r undeclared there
    have unchanged : (if name ∈ declared then (c.setReg dest value).setCell name ⟨.word, value⟩
        else c.setReg dest value).reg r = (c.setReg dest value).reg r := by
      split <;> rfl
    rw [unchanged]
    by_cases same : other = name
    · subst same
      obtain rfl : r = dest := Option.some.inj (there.symm.trans bound)
      rw [Content.reg_setReg_self c value notZero, Function.update_self]
    · have elsewhere : r ≠ dest := by
        rintro rfl
        exact same (separates.apart other name r undeclared there bound).symm
      rw [Content.reg_setReg_of_ne c value elsewhere, Function.update_of_ne same]
      exact holds.register other r undeclared there

end Holds

/-! ## Operands -/

namespace Store

variable {σ : Store} {operand : String} {v : Word}

/-- An operand that has a value is a variable or an integer. -/
theorem value?_cases (value : σ.value? operand = some v) :
    (isVariableName operand = true ∧ v = σ operand) ∨
      ∃ n, Text.decimal? operand.toList = some n ∧ v = BitVec.ofInt 32 n := by
  unfold value? at value
  split at value
  next named => exact .inl ⟨named, (Option.some.inj value).symm⟩
  next =>
    obtain ⟨n, decimal, same⟩ := Option.map_eq_some_iff.mp value
    exact .inr ⟨n, decimal, same.symm⟩

end Store

namespace Tables

variable {declared : List String} {t : Tables}

theorem fetch_of_name {operand : String} (named : isVariableName operand = true)
    (wanted : Option Register) :
    t.fetch operand wanted = (t.register operand, t.load operand (t.register operand)) := by
  rw [fetch, stripped_of_isVariableName named, ofString_of_isVariableName named, fetchAs]

theorem fetch_of_integer {operand : String} {n : Int}
    (decimal : Text.decimal? operand.toList = some n) (wanted : Option Register) :
    t.fetch operand wanted =
      (t.registers.literalRegister wanted, [.li (t.registers.literalRegister wanted) operand]) := by
  rw [fetch, stripped_of_decimal? decimal, ofString_of_decimal? decimal, fetchAs]

theorem register_eq {name : String} {r : Register} (bound : t.registers.lookup? name = some r) :
    t.register name = r := by
  rw [register, bound, Option.getD_some]

namespace Suits

variable (suits : t.Suits declared)

include suits

theorem scratch0 : t.config.scratch0 = "$v1" := by
  simp [Config.scratch0, suits.scratch, defaultScratch]

theorem scratch1 : t.config.scratch1 = "$a1" := by
  simp [Config.scratch1, suits.scratch, defaultScratch]

theorem literalRegister_none : t.registers.literalRegister none = "$v1" := by
  simp [RegisterFile.literalRegister, suits.literals, defaultScratch]

theorem notZero {name : String} {r : Register} (bound : t.registers.lookup? name = some r) :
    r ≠ zeroRegister := fun same =>
  suits.separates.free name r bound (by simp [workRegisters, same])

theorem load_eq (name : String) (r : Register) :
    t.load name r = if name ∈ declared then [.load .word r (.label name)] else [] := by
  rw [load, suits.cells]
  by_cases isDeclared : name ∈ declared
  · simp only [isDeclared, if_true]
    rfl
  · simp only [isDeclared, if_false]

theorem store_eq (name : String) (r : Register) :
    t.store name r = if name ∈ declared then [(Op.store .word r (.label name)).node] else [] := by
  rw [store, suits.cells]
  by_cases isDeclared : name ∈ declared
  · simp only [isDeclared, if_true]
    rfl
  · simp only [isDeclared, if_false]

end Suits

end Tables

section

open Image

variable {declared : List String} {t : Tables} {σ : Store} {c : Content}
  (m : Image) (w : World) (tail : List Node)

/-- A literal register that is wanted: it is neither bound to a variable nor zero. -/
structure Tables.Takes (t : Tables) (wanted : Option Register) : Prop where
  work : t.registers.literalRegister wanted ∈ workRegisters
  notZero : t.registers.literalRegister wanted ≠ zeroRegister

/-- Fetching an operand leaves its value in the register that it is fetched into, and changes nothing
    else. -/
theorem run_fetch (suits : t.Suits declared) (holds : Holds declared t.registers σ c)
    {operand : String} {v : Word} (value : σ.value? operand = some v)
    (bound : isVariableName operand = true → ∃ r, t.registers.lookup? operand = some r)
    {wanted : Option Register} (takes : t.Takes wanted) :
    m.runBlock w tail ((t.fetch operand wanted).2.map Op.node) c =
        some (c.setReg (t.fetch operand wanted).1 v, .next) ∧
      Holds declared t.registers σ (c.setReg (t.fetch operand wanted).1 v) ∧
      (t.fetch operand wanted).1 ≠ zeroRegister := by
  rcases Store.value?_cases value with ⟨named, rfl⟩ | ⟨n, decimal, rfl⟩
  · obtain ⟨r, here⟩ := bound named
    have notZero := suits.notZero here
    rw [Tables.fetch_of_name named, Tables.register_eq here, suits.load_eq]
    refine ⟨?_, holds.setReg notZero fun name undeclared there => ?_, notZero⟩
    -- Without a cell the variable is in its register already, and there is no code.
    · by_cases isDeclared : operand ∈ declared
      · simp [isDeclared, runBlock_node, exec, holds.cell operand isDeclared]
      · simp only [isDeclared, if_false, List.map_nil, runBlock_nil]
        rw [Content.setReg_of_reg notZero (holds.register operand r isDeclared here)]
    · rw [suits.separates.apart name operand r undeclared there here]
  · rw [Tables.fetch_of_integer decimal]
    refine ⟨?_, holds.setReg_work suits.separates takes.work takes.notZero _, takes.notZero⟩
    simp [runBlock_node, exec, decimal]

theorem Tables.Suits.takes_scratch0 (suits : t.Suits declared) : t.Takes (some t.config.scratch0) := by
  have wanted : t.registers.literalRegister (some t.config.scratch0) = "$v1" := by
    rw [suits.scratch0]
    rfl
  constructor <;> rw [wanted] <;> decide

theorem Tables.Suits.takes_scratch1 (suits : t.Suits declared) : t.Takes (some t.config.scratch1) := by
  have wanted : t.registers.literalRegister (some t.config.scratch1) = "$a1" := by
    rw [suits.scratch1]
    rfl
  constructor <;> rw [wanted] <;> decide

theorem Tables.Suits.takes_none (suits : t.Suits declared) : t.Takes none := by
  constructor <;> rw [suits.literalRegister_none] <;> decide

/-- Two operands of an operator are fetched one after the other, and then both are there. -/
theorem run_operands (suits : t.Suits declared) (holds : Holds declared t.registers σ c)
    {left right : String} {a b : Word} (first : σ.value? left = some a)
    (second : σ.value? right = some b)
    (boundLeft : isVariableName left = true → ∃ r, t.registers.lookup? left = some r)
    (boundRight : isVariableName right = true → ∃ r, t.registers.lookup? right = some r)
    (pair : isVariableName left = true → isVariableName right = true →
      t.registers.lookup? left = t.registers.lookup? right → left = right) :
    ∃ d, m.runBlock w tail ((t.fetch left (some t.config.scratch0)).2.map Op.node ++
        (t.fetch right (some t.config.scratch1)).2.map Op.node) c = some (d, .next) ∧
      Holds declared t.registers σ d ∧ d.out = c.out ∧
      d.reg (t.fetch left (some t.config.scratch0)).1 = a ∧
      d.reg (t.fetch right (some t.config.scratch1)).1 = b := by
  obtain ⟨ran, holds₁, notZero⟩ := run_fetch m w
    ((t.fetch right (some t.config.scratch1)).2.map Op.node ++ tail) suits holds first boundLeft
    suits.takes_scratch0
  obtain ⟨ran', holds₂, notZero'⟩ := run_fetch m w tail suits holds₁ second boundRight
    suits.takes_scratch1
  refine ⟨_, (runBlock_append_of_next m w ran).trans ran', holds₂, rfl, ?_,
    Content.reg_setReg_self _ b notZero'⟩
  by_cases same : (t.fetch left (some t.config.scratch0)).1 = (t.fetch right (some t.config.scratch1)).1
  · rw [same, Content.reg_setReg_self _ b notZero']
    -- One register for both: then the operands are the same variable.
    rcases Store.value?_cases first with ⟨named, rfl⟩ | ⟨n, decimal, rfl⟩ <;>
      rcases Store.value?_cases second with ⟨named', rfl⟩ | ⟨n', decimal', rfl⟩
    · obtain ⟨r, here⟩ := boundLeft named
      obtain ⟨r', here'⟩ := boundRight named'
      simp only [Tables.fetch_of_name named, Tables.fetch_of_name named', Tables.register_eq here,
        Tables.register_eq here'] at same
      rw [pair named named' (by rw [here, here', same])]
    · obtain ⟨r, here⟩ := boundLeft named
      simp only [Tables.fetch_of_name named, Tables.fetch_of_integer decimal',
        Tables.register_eq here] at same
      exact absurd (same ▸ suits.takes_scratch1.work) (suits.separates.free left r here)
    · obtain ⟨r', here'⟩ := boundRight named'
      simp only [Tables.fetch_of_integer decimal, Tables.fetch_of_name named',
        Tables.register_eq here'] at same
      exact absurd (same ▸ suits.takes_scratch0.work) (suits.separates.free right r' here')
    · have differ : t.registers.literalRegister (some "$v1") ≠
          t.registers.literalRegister (some "$a1") := by
        simp [RegisterFile.literalRegister]
      rw [Tables.fetch_of_integer decimal, Tables.fetch_of_integer decimal', suits.scratch0,
        suits.scratch1] at same
      exact absurd same differ
  · rw [Content.reg_setReg_of_ne _ b same, Content.reg_setReg_self _ a notZero]

end

/-! ## Statements -/

theorem IsOperand.given {operand : String} (isOperand : IsOperand operand) :
    Stmt.given (some operand) = some operand := by
  unfold Stmt.given
  split
  next empty =>
    cases empty
    exact absurd isOperand (by decide)
  next => rfl

theorem Tables.branchCode_of_relation (t : Tables) {left right : String} (op : BinaryOp)
    (target : String) (second : IsOperand right) :
    t.branchCode left target (some right) (some op.symbol) = t.relationCode left right target op := by
  have spelled : Stmt.given (some op.symbol) = some op.symbol := by cases op <;> rfl
  simp only [branchCode, spelled, second.given, BinaryOp.ofSymbol?_symbol]

/-- How code that does what a statement does is left. -/
def Effect.flow (e : Effect) : Flow :=
  match e.jump with
  | none => .next
  | some label => .jump label

theorem Effect.jump_of_flow {e : Effect} (goesOn : e.flow = .next) : e.jump = none := by
  unfold Effect.flow at goesOn
  split at goesOn
  next none => exact none
  next => cases goesOn

theorem Effect.flow_ite (σ : Store) (printed : List Output) (v : Word) (target : String) :
    (Effect.mk σ printed (if v = 0 then none else some target)).flow =
      if v = 0 then .next else .jump target := by
  unfold Effect.flow
  split <;> simp_all

section

open Image

variable {declared : List String} {t : Tables} {σ : Store} {c : Content}
  (m : Image) (w : World) (tail : List Node)

/-- Code that does to the machine what `e` does to the variables. -/
def Performs (declared : List String) (file : RegisterFile) (nodes : List Node) (c : Content)
    (e : Effect) : Prop :=
  ∃ d, m.runBlock w tail nodes c = some (d, e.flow) ∧ Holds declared file e.store d ∧
    d.out = c.out ++ e.printed

variable {m w tail}

theorem Performs.after {file : RegisterFile} {first second : List Node} {d : Content} {e : Effect}
    (ran : m.runBlock w (second ++ tail) first c = some (d, .next)) (silent : d.out = c.out)
    (performs : Performs m w tail declared file second d e) :
    Performs m w tail declared file (first ++ second) c e := by
  obtain ⟨d', ran', holds, out⟩ := performs
  exact ⟨d', by rw [runBlock_append_of_next m w ran, ran'], holds, by rw [out, silent]⟩

/-- The end of an assignment, when the value is in the register of the target. -/
theorem performs_store (suits : t.Suits declared) (holds : Holds declared t.registers σ c)
    {name : String} {dest : Register} (bound : t.registers.lookup? name = some dest) (value : Word) :
    Performs m w tail declared t.registers (t.store name dest) (c.setReg dest value)
      ⟨Function.update σ name value, [], none⟩ := by
  have assigned := holds.assign suits.separates bound value
  refine ⟨_, ?_, assigned, ?_⟩
  · rw [suits.store_eq]
    by_cases isDeclared : name ∈ declared
    · simp [isDeclared, runBlock_node, exec, holds.cell name isDeclared, suits.notZero bound,
        Width.narrow, Effect.flow]
    · simp [isDeclared, Effect.flow]
  · split <;> simp

theorem performs_binary (suits : t.Suits declared) (holds : Holds declared t.registers σ c)
    {name left right : String} (op : BinaryOp) {a b : Word} (first : σ.value? left = some a)
    (second : σ.value? right = some b) (named : isVariableName name = true)
    (serves : t.registers.Serves (.assign name (some left) (some op.symbol) (some right))) :
    Performs m w tail declared t.registers (t.binaryCode name left right op) c
      ⟨Function.update σ name (op.eval w.byZero a b), [], none⟩ := by
  have bound := serves.bound (by simp)
  obtain ⟨dest, here⟩ := bound name (by simp [Stmt.vars, named])
  rw [Tables.binaryCode, Tables.register_eq here, List.append_assoc]
  obtain ⟨d, ran, holds', silent, atLeft, atRight⟩ := run_operands m w _ suits holds first second
    (fun isName => bound left (by simp [Stmt.vars, isName]))
    (fun isName => bound right (by simp [Stmt.vars, isName])) (serves.pair left right rfl)
  refine .after ran silent ?_
  obtain ⟨lo, computed⟩ := op.run_code m w (t.store name dest ++ tail)
    (t.fetch left (some t.config.scratch0)).1 (t.fetch right (some t.config.scratch1)).1
    (suits.notZero here) d
  rw [atLeft, atRight] at computed
  exact .after computed rfl (performs_store suits (holds'.setLo lo) here _)

theorem performs_unary (suits : t.Suits declared) (holds : Holds declared t.registers σ c)
    {name source : String} (op : UnaryOp) {a : Word} (value : σ.value? source = some a)
    (named : isVariableName name = true)
    (serves : t.registers.Serves (.assign name (some source) (some op.symbol) none)) :
    Performs m w tail declared t.registers (t.unaryCode name source op) c
      ⟨Function.update σ name (op.eval a), [], none⟩ := by
  have bound := serves.bound (by simp)
  obtain ⟨dest, here⟩ := bound name (by simp [Stmt.vars, named])
  rw [Tables.unaryCode, Tables.register_eq here, List.append_assoc]
  obtain ⟨ran, holds', notZero⟩ := run_fetch m w _ suits holds value
    (fun isName => bound source (by simp [Stmt.vars, isName])) suits.takes_none
  refine .after ran rfl ?_
  have computed := op.run_code m w (t.store name dest ++ tail) dest (t.fetch source none).1
    (c.setReg (t.fetch source none).1 a)
  rw [Content.reg_setReg_self _ a notZero] at computed
  exact .after computed rfl (performs_store suits holds' here _)

theorem performs_copy (suits : t.Suits declared) (holds : Holds declared t.registers σ c)
    {name source : String} {a : Word} (value : σ.value? source = some a)
    (named : isVariableName name = true)
    (serves : t.registers.Serves (.assign name (some source) none none)) :
    Performs m w tail declared t.registers (t.copyCode name source) c
      ⟨Function.update σ name a, [], none⟩ := by
  have bound := serves.bound (by simp)
  obtain ⟨dest, here⟩ := bound name (by simp [Stmt.vars, named])
  rw [Tables.copyCode, Tables.register_eq here]
  have notZero := suits.notZero here
  -- A name is loaded into its register and moved; a number goes straight to that of the target.
  rcases Store.value?_cases value with ⟨isName, rfl⟩ | ⟨n, decimal, rfl⟩
  · obtain ⟨ran, holds', notZero'⟩ := run_fetch m w
      ((Tables.moveCode dest (t.fetch source none).1).map Op.node ++ (t.store name dest ++ tail))
      suits holds value (fun _ => bound source (by simp [Stmt.vars, isName])) suits.takes_none
    rw [ofString_of_isVariableName isName, Tables.copyInto, List.map_append, List.append_assoc]
    rw [← List.append_assoc] at ran
    refine .after ran rfl ?_
    have moved : m.runBlock w (t.store name dest ++ tail)
        ((Tables.moveCode dest (t.fetch source none).1).map Op.node)
        (c.setReg (t.fetch source none).1 (σ source)) =
        some ((c.setReg (t.fetch source none).1 (σ source)).setReg dest (σ source), .next) := by
      by_cases self : (t.fetch source none).1 = dest
      · simp [Tables.moveCode, self]
      · simp [Tables.moveCode, self, runBlock_node, exec, notZero']
    exact .after moved rfl (performs_store suits holds' here _)
  · rw [ofString_of_decimal? decimal, Tables.copyInto]
    refine .after (d := c.setReg dest (BitVec.ofInt 32 n)) ?_ rfl (performs_store suits holds here _)
    simp [runBlock_node, exec, decimal]

theorem performs_test (suits : t.Suits declared) (holds : Holds declared t.registers σ c)
    {condition target : String} {a : Word} (value : σ.value? condition = some a)
    (serves : t.registers.Serves (.branch condition target none none)) :
    Performs m w tail declared t.registers (t.branchCode condition target none none) c
      ⟨σ, [], if a = 0 then none else some target⟩ := by
  have bound := serves.bound (by simp)
  obtain ⟨ran, holds', notZero⟩ := run_fetch m w
    ([(Op.bnez (t.fetch condition (some t.config.scratch0)).1 target).node] ++ tail) suits holds value
    (fun isName => bound condition (by simp [Stmt.vars, isName])) suits.takes_scratch0
  refine .after ran rfl ⟨_, ?_, holds', by simp⟩
  rw [run_bnez, Content.reg_setReg_self _ a notZero, Effect.flow_ite]

theorem performs_relation (suits : t.Suits declared) (holds : Holds declared t.registers σ c)
    {left right target : String} (op : BinaryOp) {a b : Word} (first : σ.value? left = some a)
    (second : σ.value? right = some b)
    (serves : t.registers.Serves (.branch left target (some right) (some op.symbol))) :
    Performs m w tail declared t.registers (t.relationCode left right target op) c
      ⟨σ, [], if op.eval w.byZero a b = 0 then none else some target⟩ := by
  have bound := serves.bound (by simp)
  rw [Tables.relationCode, List.append_assoc]
  obtain ⟨d, ran, holds', silent, atLeft, atRight⟩ := run_operands m w _ suits holds first second
    (fun isName => bound left (by simp [Stmt.vars, isName]))
    (fun isName => bound right (by simp [Stmt.vars, isName])) (serves.pair left right rfl)
  refine .after ran silent ?_
  have notZero : t.config.scratch0 ≠ zeroRegister := by rw [suits.scratch0]; decide
  obtain ⟨lo, computed⟩ := op.run_code m w
    ([(Op.bnez t.config.scratch0 target).node] ++ tail)
    (t.fetch left (some t.config.scratch0)).1 (t.fetch right (some t.config.scratch1)).1 notZero d
  rw [atLeft, atRight] at computed
  have work : t.config.scratch0 ∈ workRegisters := by rw [suits.scratch0]; decide
  refine .after computed rfl
    ⟨_, ?_, (holds'.setReg_work suits.separates work notZero (op.eval w.byZero a b)).setLo lo, by simp⟩
  rw [run_bnez, Content.reg_setLo, Content.reg_setReg_self _ _ notZero, Effect.flow_ite]

/-- A declared variable is printed from its cell, and an integer is put into the argument register as it
    stands. -/
theorem prepareCode_eq (suits : t.Suits declared) {value : String}
    (printable : value ∈ declared ∨ (Text.decimal? value.toList).isSome = true)
    (words : ∀ name ∈ declared, isVariableName name = true) :
    t.prepareCode value =
      (if value ∈ declared then [.load .word argumentRegister (.label value)]
        else [.li argumentRegister value], .printInt) := by
  by_cases isDeclared : value ∈ declared
  · have cell := suits.cells value
    rw [if_pos isDeclared, SymbolTable.cell?, Option.filter_eq_some_iff] at cell
    simp only [Tables.prepareCode, SymbolTable.contains, SymbolTable.operandType, cell.1,
      Option.isSome_some, Bool.not_true, Bool.and_false, Bool.false_eq_true, if_false, intSymbol,
      Tables.argumentCode, ofString_of_isVariableName (words value isDeclared), isDeclared, if_true]
    rfl
  · obtain ⟨n, decimal⟩ := Option.isSome_iff_exists.mp (printable.resolve_left isDeclared)
    simp [Tables.prepareCode, isVariableName_of_decimal? decimal, SymbolTable.operandType,
      suits.integers value n decimal, inferType_of_decimal? decimal, Tables.argumentCode,
      ofString_of_decimal? decimal, isDeclared, Lower.Service.forType]

theorem performs_print (suits : t.Suits declared) (holds : Holds declared t.registers σ c)
    {value : String} {a : Word} (known : σ.value? value = some a)
    (printable : value ∈ declared ∨ (Text.decimal? value.toList).isSome = true)
    (words : ∀ name ∈ declared, isVariableName name = true) :
    Performs m w tail declared t.registers (t.printCode value) c ⟨σ, [.int a.toInt], none⟩ := by
  rw [Tables.printCode, prepareCode_eq suits printable words]
  have loaded : ∀ tail, m.runBlock w tail
      ((if value ∈ declared then [Op.load .word argumentRegister (.label value)]
        else [.li argumentRegister value]).map Op.node) c =
        some (c.setReg argumentRegister a, .next) := by
    intro tail
    rcases Store.value?_cases known with ⟨isName, rfl⟩ | ⟨n, decimal, rfl⟩
    · have isDeclared : value ∈ declared := by
        refine printable.resolve_right fun integer => ?_
        obtain ⟨n, decimal⟩ := Option.isSome_iff_exists.mp integer
        simp [isVariableName_of_decimal? decimal] at isName
      simp [isDeclared, runBlock_node, exec, holds.cell value isDeclared]
    · have undeclared : value ∉ declared := fun isDeclared => by
        simpa [isVariableName_of_decimal? decimal] using words value isDeclared
      simp [undeclared, runBlock_node, exec, decimal]
  refine .after (loaded _) rfl ?_
  -- Neither of the two registers is bound to a name, so the store is still held when the console is called.
  have holdsArgument := holds.setReg_work suits.separates (r := argumentRegister) (by decide)
    (by decide) a
  have holdsService := holdsArgument.setReg_work suits.separates (r := resultRegister) (by decide)
    (by decide) 1
  have argument : ((c.setReg argumentRegister a).setReg resultRegister 1).reg argumentRegister = a := by
    rw [Content.reg_setReg_of_ne _ _ (by decide), Content.reg_setReg_self _ _ (by decide)]
  have service : ((c.setReg argumentRegister a).setReg resultRegister 1).reg resultRegister = 1 :=
    Content.reg_setReg_self _ _ (by decide)
  refine ⟨((c.setReg argumentRegister a).setReg resultRegister 1).print (.int a.toInt), ?_, ?_, rfl⟩
  · have one : BitVec.ofInt 32 (Lower.Service.printInt.number : Int) = 1 := by decide
    rw [run_service, one, Image.service, service, argument]
    rfl
  · exact ⟨holdsService.cell, holdsService.register⟩

/-- The code of a statement does what the statement does. -/
theorem performs_code (suits : t.Suits declared) (holds : Holds declared t.registers σ c)
    (words : ∀ name ∈ declared, isVariableName name = true) {s : Stmt} (plain : s.Plain declared)
    (serves : t.registers.Serves s) {e : Effect} (effect : s.effect? w.byZero σ = some e) :
    Performs m w tail declared t.registers (t.code s) c e := by
  cases plain with
  | label name =>
    cases effect
    exact ⟨c, rfl, holds, by simp⟩
  | goto target =>
    cases effect
    exact ⟨c, rfl, holds, by simp⟩
  | test target first =>
    obtain ⟨a, value⟩ := first.value?_isSome σ
    simp only [Stmt.effect?, value, Option.bind_eq_bind, Option.bind_some, Option.some.injEq] at effect
    subst effect
    exact performs_test suits holds value serves
  | relation op target first second =>
    obtain ⟨a, left⟩ := first.value?_isSome σ
    obtain ⟨b, right⟩ := second.value?_isSome σ
    simp only [Stmt.effect?, BinaryOp.ofSymbol?_symbol, left, right, Option.bind_eq_bind,
      Option.bind_some, Option.some.injEq] at effect
    subst effect
    rw [Tables.code, t.branchCode_of_relation op target second]
    exact performs_relation suits holds op left right serves
  | binary op named first second =>
    obtain ⟨a, left⟩ := first.value?_isSome σ
    obtain ⟨b, right⟩ := second.value?_isSome σ
    simp only [Stmt.effect?, BinaryOp.ofSymbol?_symbol, left, right, Option.bind_eq_bind,
      Option.bind_some, Option.some.injEq] at effect
    subst effect
    simpa [Tables.code, Tables.assignCode] using performs_binary suits holds op left right named serves
  | unary op named first =>
    obtain ⟨a, source⟩ := first.value?_isSome σ
    simp only [Stmt.effect?, UnaryOp.ofSymbol?_symbol, source, Option.bind_eq_bind, Option.bind_some,
      Option.some.injEq] at effect
    subst effect
    simpa [Tables.code, Tables.assignCode] using performs_unary suits holds op source named serves
  | copy named first =>
    obtain ⟨a, source⟩ := first.value?_isSome σ
    simp only [Stmt.effect?, source, Option.bind_eq_bind, Option.bind_some, Option.some.injEq] at effect
    subst effect
    exact performs_copy suits holds source named serves
  | print printable =>
    have isOperand : IsOperand _ := printable.imp_left (words _)
    obtain ⟨a, value⟩ := isOperand.value?_isSome σ
    simp only [Stmt.effect?, value, Option.bind_eq_bind, Option.bind_some, Option.some.injEq] at effect
    subst effect
    exact performs_print suits holds value printable words

end

/-! ## Quiet code -/

theorem Node.isQuiet_node (op : Op) : op.node.isQuiet = op.isQuiet :=
  rfl

theorem BinaryOp.quiet_code (op : BinaryOp) (dest left right : Register) :
    ∀ node ∈ (op.code dest left right).map (·.op.node), node.isQuiet = true := by
  cases op <;> simp [BinaryOp.code, aluCode, flipCode, Node.isQuiet_node, Op.isQuiet]

theorem UnaryOp.quiet_code (op : UnaryOp) (dest source : Register) :
    ∀ node ∈ (op.code dest source).map (·.op.node), node.isQuiet = true := by
  cases op <;> simp [UnaryOp.code, aluCode, Node.isQuiet_node, Op.isQuiet]

namespace Tables

variable (t : Tables)

theorem quiet_load (name : String) (r : Register) : ∀ op ∈ t.load name r, op.isQuiet = true := by
  unfold load
  split
  · simp
  · split <;> simp [Op.isQuiet]

theorem quiet_fetch (operand : String) (wanted : Option Register) :
    ∀ node ∈ (t.fetch operand wanted).2.map Op.node, node.isQuiet = true := by
  intro node member
  obtain ⟨op, among, rfl⟩ := List.mem_map.mp member
  unfold fetch at among
  cases sort : Operand.ofString (Text.stripped operand) with
  | name name =>
    simp only [sort, fetchAs] at among
    exact t.quiet_load name _ op among
  | _ =>
    simp only [sort, fetchAs, List.mem_singleton] at among
    subst among
    rfl

theorem quiet_store (name : String) (r : Register) : ∀ node ∈ t.store name r, node.isQuiet = true := by
  unfold store
  split
  · simp
  · split <;> simp [Node.isQuiet, Op.node, Op.isQuiet]

theorem quiet_copy (dest : Register) (operand : Operand) :
    ∀ node ∈ (t.copyInto dest operand).map Op.node, node.isQuiet = true := by
  cases operand with
  | name name =>
    have moves : ∀ node ∈ (moveCode dest (t.fetch name none).1).map Op.node, node.isQuiet = true := by
      unfold moveCode
      split <;> simp [Node.isQuiet_node, Op.isQuiet]
    rw [copyInto, List.map_append, List.forall_mem_append]
    exact ⟨t.quiet_fetch name none, moves⟩
  | _ => simp [copyInto, Node.isQuiet_node, Op.isQuiet]

end Tables

/-- Only the last line of the code of a statement can print. -/
theorem quiet_code {declared : List String} {t : Tables} (suits : t.Suits declared)
    (words : ∀ name ∈ declared, isVariableName name = true) {s : Stmt} (plain : s.Plain declared) :
    ∀ node ∈ (t.code s).dropLast, node.isQuiet = true := by
  have whole : (∀ node ∈ t.code s, node.isQuiet = true) →
      ∀ node ∈ (t.code s).dropLast, node.isQuiet = true :=
    fun all node member => all node ((List.dropLast_sublist _).mem member)
  cases plain with
  | label name => simp [Tables.code]
  | goto target => simp [Tables.code]
  | test target _ =>
    apply whole
    simp only [Tables.code, Tables.branchCode, Stmt.given, List.forall_mem_append]
    exact ⟨t.quiet_fetch _ _, by simp [Node.isQuiet_node, Op.isQuiet]⟩
  | relation op target _ second =>
    apply whole
    rw [Tables.code, t.branchCode_of_relation op target second]
    simp only [Tables.relationCode, List.forall_mem_append]
    exact ⟨⟨⟨t.quiet_fetch _ _, t.quiet_fetch _ _⟩, op.quiet_code _ _ _⟩,
      by simp [Node.isQuiet_node, Op.isQuiet]⟩
  | binary op _ _ _ =>
    apply whole
    simp only [Tables.code, Tables.assignCode, BinaryOp.ofSymbol?_symbol, Tables.binaryCode,
      List.forall_mem_append]
    exact ⟨⟨⟨t.quiet_fetch _ _, t.quiet_fetch _ _⟩, op.quiet_code _ _ _⟩, t.quiet_store _ _⟩
  | unary op _ _ =>
    apply whole
    simp only [Tables.code, Tables.assignCode, UnaryOp.ofSymbol?_symbol, Tables.unaryCode,
      List.forall_mem_append]
    exact ⟨⟨t.quiet_fetch _ _, op.quiet_code _ _⟩, t.quiet_store _ _⟩
  | copy _ _ =>
    apply whole
    simp only [Tables.code, Tables.assignCode, Tables.copyCode, List.forall_mem_append]
    exact ⟨t.quiet_copy _ _, t.quiet_store _ _⟩
  | print printable =>
    simp only [Tables.code, Tables.printCode, prepareCode_eq suits printable words]
    split <;> simp [Node.isQuiet_node, Op.isQuiet, Tables.serviceCode]

end MipsLowering
