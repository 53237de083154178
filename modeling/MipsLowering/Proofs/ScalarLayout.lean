import MipsLowering.Proofs.Faults
import MipsLowering.Proofs.Registers
import MipsLowering.Proofs.ScalarCode

/-! # The layout of a scalar program

A scalar program is always lowered without a fault, and `ScalarProgram.Laid` says what the pass has
come to then: the declared variables have a cell each, whatever is assigned later gets none, exactly
the variables that code works on are bound, and no label is missing.

The tables change while the pass goes on.  The declarations come first and build up the symbols
(`Pass.Declared`); from then on statements only note further names (`Pass.Within`). -/

namespace MipsLowering

open SymbolTable (declaredEntry name_declaredEntry)

seal Operand.ofString

/-! ## Names of statements -/

theorem namesIn_of_name {operand : String} (named : isVariableName operand = true) :
    Stmt.namesIn operand = [operand] := by
  rw [Stmt.namesIn, stripped_of_isVariableName named, ofString_of_isVariableName named, Operand.names]

theorem namesIn_of_integer {operand : String} {n : Int}
    (decimal : Text.decimal? operand.toList = some n) : Stmt.namesIn operand = [] := by
  rw [Stmt.namesIn, stripped_of_decimal? decimal, ofString_of_decimal? decimal]
  rfl

/-- An operand binds the variable that it is, if it is one. -/
theorem IsOperand.namesIn {operand : String} (isOperand : IsOperand operand) :
    Stmt.namesIn operand = [operand].filter isVariableName := by
  by_cases named : isVariableName operand = true
  · rw [namesIn_of_name named, List.filter_cons_of_pos named, List.filter_nil]
  · obtain ⟨n, decimal⟩ := Option.isSome_iff_exists.mp (isOperand.resolve_left named)
    rw [namesIn_of_integer decimal, List.filter_cons_of_neg named, List.filter_nil]

theorem IsOperand.copiedNames {operand : String} (isOperand : IsOperand operand) :
    Stmt.copiedNames operand = [operand].filter isVariableName := by
  by_cases named : isVariableName operand = true
  · rw [Stmt.copiedNames, ofString_of_isVariableName named, Operand.names, List.flatMap_singleton,
      isOperand.namesIn]
  · obtain ⟨n, decimal⟩ := Option.isSome_iff_exists.mp (isOperand.resolve_left named)
    rw [Stmt.copiedNames, ofString_of_decimal? decimal, List.filter_cons_of_neg named, List.filter_nil]
    rfl

theorem IsOperand.filled {operand : String} (isOperand : IsOperand operand) : Text.Filled operand := by
  have same : Text.stripped operand = operand := by
    rcases isOperand with named | integer
    · exact stripped_of_isVariableName named
    · obtain ⟨n, decimal⟩ := Option.isSome_iff_exists.mp integer
      exact stripped_of_decimal? decimal
  rw [Text.Filled, same]
  rintro rfl
  exact absurd isOperand (by decide)

namespace Stmt.Plain

variable {declared : List String} {s : Stmt} (plain : s.Plain declared)

include plain

theorem filled (words : ∀ name ∈ declared, isVariableName name = true) : s.Filled := by
  have nonempty : ∀ {name : String}, isVariableName name = true → name ≠ "" := by
    rintro _ named rfl
    exact absurd named (by decide)
  cases plain with
  | label | goto => trivial
  | test _ first => exact ⟨first.filled, by simp [given]⟩
  | relation op _ first second =>
    refine ⟨first.filled, fun right present => ?_⟩
    cases second.given.symm.trans present
    exact second.filled
  | binary op named first second =>
    exact ⟨nonempty named, ⟨_, rfl, first.filled⟩, fun _ present => by cases present; exact second.filled⟩
  | unary op named first => exact ⟨nonempty named, ⟨_, rfl, first.filled⟩, by simp⟩
  | copy named first => exact ⟨nonempty named, ⟨_, rfl, first.filled⟩, by simp⟩
  | print printable => exact IsOperand.filled (printable.imp_left (words _))

theorem isScalar : s.isScalar = true := by
  cases plain <;> rfl

theorem not_breaks (config : Config) (history : List Stmt) : ¬ s.Breaks config history := by
  cases plain <;> exact id

theorem declares?_eq : s.declares? = none := by
  cases plain <;> rfl

theorem assigned_named : ∀ name ∈ s.assigned, isVariableName name = true := by
  cases plain with
  | binary op named _ _ => simpa [assigned] using named
  | unary op named _ => simpa [assigned] using named
  | copy named _ => simpa [assigned] using named
  | label | goto | test | relation | print => simp [assigned]

/-- Statements other than prints bind all of their variables. -/
theorem names_eq {symbols : SymbolTable} (silent : ∀ value, s ≠ .print value) :
    s.names symbols = s.vars := by
  cases plain with
  | label | goto => rfl
  | test _ first =>
    simp only [names, given, first.namesIn, vars, Option.toList]
  | relation op target first second =>
    have spelled : given (some op.symbol) = some op.symbol := by cases op <;> rfl
    simp only [names, spelled, second.given, BinaryOp.ofSymbol?_symbol, Option.isSome_some, if_true,
      first.namesIn, second.namesIn, vars, Option.toList]
    rw [← List.filter_append]
    rfl
  | @binary name left right op named first second =>
    simp only [names, BinaryOp.ofSymbol?_symbol, Option.isSome_some, if_true, Option.getD_some,
      first.namesIn, second.namesIn, vars, Option.toList]
    rw [← List.filter_append, List.cons_append, List.cons_append, List.filter_cons_of_pos named]
    rfl
  | @unary name source op named first =>
    simp only [names, UnaryOp.ofSymbol?_symbol, Option.isSome_some, if_true, Option.getD_some,
      first.namesIn, vars, Option.toList]
    rw [List.append_nil, List.filter_cons_of_pos named]
  | @copy name source named first =>
    simp only [names, Option.getD_some, first.copiedNames, vars, Option.toList]
    rw [List.append_nil, List.filter_cons_of_pos named]
  | print => exact absurd rfl (silent _)

/-- No statement binds anything but its variables. -/
theorem names_subset (words : ∀ name ∈ declared, isVariableName name = true) (symbols : SymbolTable) :
    s.names symbols ⊆ s.vars := by
  by_cases prints : ∃ value, s = .print value
  · obtain ⟨value, rfl⟩ := prints
    have isOperand : IsOperand value := by
      cases plain with
      | print printable => exact printable.imp_left (words value)
    -- A variable that has a cell is shown from there and is not bound at all.
    have argument : argumentNames symbols value (Operand.ofString value) ⊆
        [value].filter isVariableName := by
      rcases isOperand with named | integer
      · rw [ofString_of_isVariableName named, argumentNames]
        split
        · exact List.nil_subset _
        · rw [IsOperand.namesIn (.inl named)]
          exact List.Subset.refl _
      · obtain ⟨n, decimal⟩ := Option.isSome_iff_exists.mp integer
        rw [ofString_of_decimal? decimal]
        exact List.nil_subset _
    simp only [names, printedNames, vars]
    split
    · exact List.nil_subset _
    · split
      · rw [isOperand.namesIn]
        exact List.Subset.refl _
      · exact argument
  · rw [plain.names_eq fun value same => prints ⟨value, same⟩]
    exact List.Subset.refl _

end Stmt.Plain

/-! ## Tables -/

/-- The directive for the cell of an integer. -/
def wordDirective (name : String) : Directive :=
  ⟨some name, .word, none⟩

/-- The tables when integers are declared, and nothing else has been done. -/
structure Pass.Declared (declared : List String) (p : Pass) : Prop where
  entries : ∀ name,
    p.symbols.lookup? name = if name ∈ declared then some (intSymbol name) else none
  cells : ∀ name, p.data.cells.find? (·.label == some name) =
    if name ∈ declared then some (wordDirective name) else none

/-- The tables in the body of a program, in which names are noted too. -/
structure Pass.Within (declared : List String) (p : Pass) : Prop where
  entries : ∀ name, p.symbols.cell? name = if name ∈ declared then some (intSymbol name) else none
  named : ∀ name s, p.symbols.lookup? name = some s → isVariableName name = true
  cells : ∀ name ∈ declared, p.data.cells.find? (·.label == some name) = some (wordDirective name)

theorem Pass.Declared.within {declared : List String} {p : Pass} (built : p.Declared declared)
    (words : ∀ name ∈ declared, isVariableName name = true) : p.Within declared where
  entries name := by
    rw [SymbolTable.cell?, built.entries]
    split <;> rfl
  named name s found := by
    rw [built.entries] at found
    split at found
    next isDeclared => exact words name isDeclared
    next => cases found
  cells name isDeclared := by rw [built.cells, if_pos isDeclared]

/-- A declaration that finds its name declared does nothing, and any other one makes a cell. -/
theorem Pass.Declared.enter {declared : List String} {p : Pass} (built : p.Declared declared)
    (d : Declaration) : (p.enter d.stmt).Declared (d.name :: declared) := by
  have integer : ValueType.ofGivenName (some d.typeName) = .int := d.integer
  have declaration : d.stmt.declaration p.symbols =
      p.symbols.giveCell d.name (declaredEntry d.name .int) := by
    simp only [Declaration.stmt, Stmt.declaration, Stmt.declares?, integer]
    rfl
  have backed : p.symbols.isInMemory d.name = decide (d.name ∈ declared) := by
    rw [SymbolTable.isInMemory, built.entries]
    by_cases isDeclared : d.name ∈ declared <;> simp [isDeclared, intSymbol]
  constructor
  · intro name
    simp only [Pass.enter, declaration]
    rw [SymbolTable.lookup?_giveCell (name_declaredEntry _ _), backed, built.entries, built.entries]
    by_cases isDeclared : d.name ∈ declared
    · by_cases same : name = d.name
      · simp [same, isDeclared]
      · simp [same, isDeclared]
    · by_cases same : name = d.name
      · simp [same, isDeclared, declaredEntry, intSymbol]
      · simp [same, isDeclared]
  · intro name
    simp only [Pass.enter, declaration, SymbolTable.giveCell_snd, backed, built.entries]
    by_cases isDeclared : d.name ∈ declared
    -- A second declaration adds no directive.
    · have unchanged := built.cells name
      by_cases same : name = d.name
      · simpa [same, isDeclared] using unchanged
      · simpa [same, isDeclared] using unchanged
    · have appended : ((p.data.align (intSymbol d.name)).append (intSymbol d.name)).cells =
          p.data.cells ++ [wordDirective d.name] := by
        simp [DataSection.append, DataSection.align, intSymbol, Symbol.isArray, Symbol.directive,
          scalarStorage, wordDirective]
      have fresh : declaredEntry d.name .int none = intSymbol d.name := rfl
      simp only [isDeclared, decide_false, Bool.false_eq_true, if_false, Option.map_some,
        Option.getD_some, fresh]
      rw [appended, List.find?_append, built.cells]
      by_cases same : name = d.name
      · simp [same, isDeclared, wordDirective]
      · by_cases other : name ∈ declared
        · simp [same, other]
        · simp [same, other, wordDirective, Ne.symm same]

/-- A statement of the body leaves the cells alone. -/
theorem Pass.Within.stmt {declared : List String} {p q : Pass} {s : Stmt} {nodes : List Node}
    (within : p.Within declared) (plain : s.Plain declared) (laid : Lower.LaysStmt s p q nodes) :
    q.Within declared := by
  have same : s.declaration p.symbols = (p.symbols, none) := by
    rw [Stmt.declaration, plain.declares?_eq]
  have symbols : (p.enter s).symbols = p.symbols := by simp only [Pass.enter, same]
  have cells : (p.enter s).data = p.data := by simp only [Pass.enter, same]; rfl
  have noted := laid.symbols
  rw [symbols] at noted
  refine ⟨fun name => ?_, fun name entry found => ?_, fun name isDeclared => ?_⟩
  · rcases noted with unchanged | ⟨target, _, type, added⟩
    · rw [unchanged, within.entries]
    · rw [added, SymbolTable.cell?_note, within.entries]
  · rcases noted with unchanged | ⟨target, assigned, type, added⟩
    · rw [unchanged] at found
      exact within.named name entry found
    · rw [added] at found
      rcases SymbolTable.lookup?_note found with before | ⟨rfl, _⟩
      · exact within.named name entry before
      · exact plain.assigned_named name assigned
  · rw [laid.cells, cells, within.cells name isDeclared]

/-! ## Programs -/

/-- What the pass over a scalar program has come to, and the steps that it has taken. -/
structure ScalarProgram.Laid (program : ScalarProgram) (config : Config) (q : Pass)
    (steps : List TraceStep) : Prop where
  sameConfig : q.config = config
  stmts : steps.map TraceStep.stmt = program.stmts
  text : q.text = steps.flatMap TraceStep.nodes
  code : ∀ s ∈ steps, s.nodes.map Node.bare = (q.tablesAt s).code s.stmt
  within : ∀ s ∈ steps, s.stmt ∈ program.body → s.after.Within program.declared
  cells : ∀ name ∈ program.declared,
    q.data.cells.find? (·.label == some name) = some (wordDirective name)
  draws : q.registers.DrawsOn config
  scratch : q.registers.scratch = config.scratch
  names : q.registers.names ⊆ program.vars
  bound : ∀ s ∈ program.body, (∀ value, s ≠ .print value) → s.vars ⊆ q.registers.names
  labels : q.labels.undefined = []

namespace ScalarProgram

variable (program : ScalarProgram) (config : Config)

theorem plain_of_mem {s : Stmt} (inBody : s ∈ program.body) : s.Plain program.declared :=
  program.plain s inBody

theorem declaration_not_mem_body (d : Declaration) : d.stmt ∉ program.body :=
  fun inBody => nomatch program.plain_of_mem inBody

/-- Scalar programs are lowered without a fault. -/
theorem lowers : ∃ q, (Lower.lines (Program.ofStmts program.stmts)).run
    (Pass.ready config (Program.ofStmts program.stmts)) = .ok () q := by
  have harmless : ∀ l ∈ Program.ofStmts program.stmts,
      l.stmt.Filled ∧ ∀ history, ¬ l.stmt.Breaks config history := by
    intro l member
    obtain ⟨s, inProgram, rfl⟩ := List.mem_map.mp member
    rcases List.mem_append.mp inProgram with isDeclaration | inBody
    · obtain ⟨d, _, rfl⟩ := List.mem_map.mp isDeclaration
      exact ⟨trivial, fun _ => id⟩
    · have plain := program.plain_of_mem inBody
      exact ⟨plain.filled program.named_of_mem_declared, plain.not_breaks config⟩
  refine (Lower.lines_succeed_iff (Pass.after_ready config _) fun l member => (harmless l member).1).mpr ?_
  intro before l rest split
  exact (harmless l (by rw [split]; simp)).2 _

/-- The declarations of a program, step by step. -/
theorem declared_of_chain {declarations : List Declaration} {declared : List String} {p q : Pass}
    {steps : List TraceStep} (chain : Chain p steps q)
    (laid : ∀ s ∈ steps, Lower.LaysStmt s.stmt s.before s.after s.nodes)
    (stmts : steps.map TraceStep.stmt = declarations.map Declaration.stmt)
    (built : p.Declared declared) :
    q.Declared ((declarations.map Declaration.name).reverse ++ declared) := by
  induction chain generalizing declarations declared with
  | nil p =>
    obtain rfl : declarations = [] := by simpa using stmts.symm
    exact built
  | @cons s rest q ran later ih =>
    cases declarations with
    | nil => cases stmts
    | cons d declarations =>
      obtain ⟨isDeclaration, stmtsRest⟩ := List.cons.inj stmts
      have laidFirst := laid s List.mem_cons_self
      rw [isDeclaration] at laidFirst
      have entered := built.enter d
      have symbols : s.after.symbols = (s.before.enter d.stmt).symbols := by
        rcases laidFirst.symbols with same | ⟨_, among, _⟩
        · exact same
        · cases among
      have after : s.after.Declared (d.name :: declared) :=
        ⟨by rw [symbols]; exact entered.entries, by rw [laidFirst.cells]; exact entered.cells⟩
      simpa using ih (fun s' member => laid s' (List.mem_cons_of_mem s member)) stmtsRest after

/-- No label is missing at the end. -/
theorem undefined_eq_nil {labels : LabelTable} (undefinedYet : labels.referenced = []) :
    (program.stmts.foldl Stmt.touch labels).undefined = [] := by
  rw [List.eq_nil_iff_forall_not_mem]
  intro l missing
  obtain ⟨used, undefined⟩ := LabelTable.mem_undefined.mp missing
  apply undefined
  rw [Stmt.mem_defined_foldl_touch]
  right
  rcases Stmt.mem_referenced_foldl_touch used with before | ⟨s, member, named⟩
  · rw [undefinedYet] at before
    cases before
  · rcases List.mem_append.mp member with isDeclaration | inBody
    · obtain ⟨d, _, rfl⟩ := List.mem_map.mp isDeclaration
      cases named
    · exact List.mem_append_right _ (program.defined s inBody l named)

theorem isScalar_of_mem {s : Stmt} (member : s ∈ program.stmts) : s.isScalar = true := by
  rcases List.mem_append.mp member with isDeclaration | inBody
  · obtain ⟨d, _, rfl⟩ := List.mem_map.mp isDeclaration
    rfl
  · exact (program.plain_of_mem inBody).isScalar

/-- The tables around the steps of the body, and at the end. -/
theorem within_of_chain {q : Pass} {steps : List TraceStep}
    (chain : Chain (Pass.ready config (Program.ofStmts program.stmts)) steps q)
    (laid : ∀ s ∈ steps, Lower.LaysStmt s.stmt s.before s.after s.nodes)
    (stmts : steps.map TraceStep.stmt = program.stmts) :
    q.Within program.declared ∧
      ∀ s ∈ steps, s.stmt ∈ program.body → s.after.Within program.declared := by
  obtain ⟨first, second, rfl, declarations, body⟩ := List.map_eq_append_iff.mp stmts
  obtain ⟨r, before, after⟩ := chain.split
  have nothing : (Pass.ready config (Program.ofStmts program.stmts)).Declared [] :=
    ⟨fun _ => rfl, fun _ => rfl⟩
  -- The declarations build the tables up, and the body keeps them.
  have built := declared_of_chain before (fun s member => laid s (List.mem_append_left _ member))
    declarations nothing
  have start : r.Within program.declared := by
    have among : ∀ name, name ∈ (program.declarations.map Declaration.name).reverse ++ [] ↔
        name ∈ program.declared := by
      simp [declared]
    have within := built.within fun name member =>
      program.named_of_mem_declared name ((among name).mp member)
    refine ⟨fun name => ?_, within.named, fun name member => within.cells name ((among name).mpr member)⟩
    rw [within.entries]
    simp only [among]
  have inBody : ∀ s ∈ second, s.stmt ∈ program.body := fun s member =>
    body ▸ List.mem_map_of_mem member
  obtain ⟨final, inside⟩ := after.invariant start fun s member within =>
    within.stmt (program.plain_of_mem (inBody s member)) (laid s (List.mem_append_right _ member))
  refine ⟨final, fun s member bodily => ?_⟩
  rcases List.mem_append.mp member with early | late
  · have isDeclaration : s.stmt ∈ program.declarations.map Declaration.stmt :=
      declarations ▸ List.mem_map_of_mem early
    obtain ⟨d, _, same⟩ := List.mem_map.mp isDeclaration
    exact absurd (same ▸ bodily) (program.declaration_not_mem_body d)
  · exact (inside s late).2

theorem laid {q : Pass} (ran : (Lower.lines (Program.ofStmts program.stmts)).run
    (Pass.ready config (Program.ofStmts program.stmts)) = .ok () q) :
    ∃ steps, program.Laid config q steps := by
  obtain ⟨chain, lines⟩ := chain_traceFrom ran
  generalize traceFrom _ _ = steps at chain lines
  have stmts : steps.map TraceStep.stmt = program.stmts := by
    have mapped := congrArg (List.map Line.stmt) lines
    simpa [Program.ofStmts, Function.comp_def] using mapped
  have scalar : ∀ s ∈ steps, s.stmt.isScalar = true := fun s member =>
    program.isScalar_of_mem (stmts ▸ List.mem_map_of_mem member)
  have laid := (chain.lays scalar rfl).2
  obtain ⟨sameConfig, registers, _⟩ := chain.grows laid
  obtain ⟨final, within⟩ := program.within_of_chain config chain laid stmts
  have labels := chain.labels laid
  rw [stmts] at labels
  have noneUsed : (Pass.ready config (Program.ofStmts program.stmts)).labels.referenced = [] :=
    (LabelTable.foldl_reserve _ _).2
  refine ⟨steps, sameConfig, stmts, chain.text, chain.settled laid, within, final.cells,
    registers.drawsOn (RegisterFile.drawsOn_ofRegisters config), registers.scratch, ?_, ?_, ?_⟩
  · intro name isBound
    rcases (chain.mem_names laid name).mp isBound with before | ⟨s, member, among⟩
    · cases before
    · have inProgram : s.stmt ∈ program.stmts := stmts ▸ List.mem_map_of_mem member
      rcases List.mem_append.mp inProgram with isDeclaration | inBody
      · obtain ⟨d, _, same⟩ := List.mem_map.mp isDeclaration
        rw [← same] at among
        cases among
      · exact List.mem_flatMap.mpr ⟨s.stmt, inBody, (program.plain_of_mem inBody).names_subset
          program.named_of_mem_declared _ among⟩
  · intro s inBody silent name mentioned
    have inSteps : s ∈ steps.map TraceStep.stmt := stmts ▸ List.mem_append_right _ inBody
    obtain ⟨step, member, rfl⟩ := List.mem_map.mp inSteps
    refine (chain.mem_names laid name).mpr (.inr ⟨step, member, ?_⟩)
    rw [(program.plain_of_mem inBody).names_eq silent]
    exact mentioned
  · rw [labels]
    exact program.undefined_eq_nil noneUsed

end ScalarProgram

end MipsLowering
