import MipsLowering.Proofs.SettledCode

/-! # The layout of a program

The steps of a pass over a program, one per line, as `traceProgram` records them.  Where a pass
succeeds, its text is what the steps have laid out, one after the other (`Chain.text`), and behind them
the exit sequence (`lowerProgram_iff`).  For programs on scalars the lines that a step has laid out are
the code of its statement under the tables in which the pass has ended (`Chain.settled`). -/

namespace MipsLowering

/-! ## Statements -/

namespace Stmt

/-- The statements whose code `Tables.code` gives. -/
def isScalar : Stmt → Bool
  | .declare .. | .label _ | .goto _ | .branch .. | .assign .. | .print _ | .read _ | .call .. => true
  | _ => false

/-- The scalar that a statement declares, and its type.  What is read and what a call returns are
    integers. -/
def declares? : Stmt → Option (String × ValueType)
  | .declare name typeName _ => some (name, .ofGivenName typeName)
  | .read target => some (target, .int)
  | .call _ _ target _ => (given target).map (·, .int)
  | _ => none

def assigned : Stmt → List String
  | .assign target _ _ _ => [target]
  | _ => []

/-- The labels with the one that a statement defines or uses. -/
def touch (labels : LabelTable) : Stmt → LabelTable
  | .label name => labels.define name
  | .goto target | .branch _ target _ _ | .call target _ _ _ => labels.reference target
  | _ => labels

theorem mem_defined_touch {labels : LabelTable} {s : Stmt} {l : String} :
    l ∈ (s.touch labels).defined ↔ l ∈ labels.defined ∨ s = .label l := by
  cases s with
  | label name => simp [touch, LabelTable.define, eq_comm]
  | _ => simp [touch, LabelTable.reference]

theorem mem_referenced_touch {labels : LabelTable} {s : Stmt} {l : String}
    (used : l ∈ (s.touch labels).referenced) : l ∈ labels.referenced ∨ s.namedLabel? = some l := by
  cases s with
  | goto | branch | call =>
    rcases LabelTable.mem_insert.mp used with before | rfl
    · exact .inl before
    · exact .inr rfl
  | _ => exact .inl used

/-- The labels that are defined behind statements. -/
theorem mem_defined_foldl_touch {stmts : List Stmt} {labels : LabelTable} {l : String} :
    l ∈ (stmts.foldl touch labels).defined ↔ l ∈ labels.defined ∨ .label l ∈ stmts := by
  induction stmts generalizing labels with
  | nil => simp
  | cons s rest ih => rw [List.foldl_cons, ih, mem_defined_touch, List.mem_cons, or_assoc, @eq_comm _ s]

/-- The labels that are used behind statements. -/
theorem mem_referenced_foldl_touch {stmts : List Stmt} {labels : LabelTable} {l : String}
    (used : l ∈ (stmts.foldl touch labels).referenced) :
    l ∈ labels.referenced ∨ ∃ s ∈ stmts, s.namedLabel? = some l := by
  induction stmts generalizing labels with
  | nil => exact .inl used
  | cons s rest ih =>
    rcases ih used with before | ⟨s', member, named⟩
    · exact (mem_referenced_touch before).imp_right fun named => ⟨s, List.mem_cons_self, named⟩
    · exact .inr ⟨s', List.mem_cons_of_mem s member, named⟩

/-- The outcome of the declaration that a statement makes, if it makes one. -/
def declaration (symbols : SymbolTable) (s : Stmt) : SymbolTable × Option Symbol :=
  match s.declares? with
  | some (name, type) => symbols.declare name type
  | none => (symbols, none)

end Stmt

/-- The state in which a statement has been entered into the tables, and no code is laid out yet. -/
def Pass.enter (p : Pass) (s : Stmt) : Pass :=
  { p with
    symbols := (s.declaration p.symbols).1
    data := ((s.declaration p.symbols).2.map fun cell => (p.data.align cell).append cell).getD p.data
    labels := s.touch p.labels }

namespace Lower

open Emit

variable {p q : Pass}

/-- What a statement on scalars does to the state of a pass. -/
def LaysStmt (s : Stmt) (p q : Pass) (nodes : List Node) : Prop :=
  (∃ symbols, Noted s.assigned (p.enter s).symbols symbols ∧
    Lays { p.enter s with symbols := symbols } q nodes (s.names q.symbols)) ∧
  ∀ t : Tables, t.Fits q → nodes.map Node.bare = t.code s

namespace LaysStmt

variable {s : Stmt} {nodes : List Node} (laid : LaysStmt s p q nodes)

include laid

theorem symbols : Noted s.assigned (p.enter s).symbols q.symbols := by
  obtain ⟨⟨symbols, noted, lays⟩, _⟩ := laid
  rw [lays.symbols]
  exact noted

theorem cells : q.data.cells = (p.enter s).data.cells := by
  obtain ⟨⟨symbols, _, lays⟩, _⟩ := laid
  exact lays.cells

theorem labels : q.labels = s.touch p.labels := by
  obtain ⟨⟨symbols, _, lays⟩, _⟩ := laid
  exact lays.labels

theorem bound (name : String) :
    name ∈ q.registers.names ↔ name ∈ p.registers.names ∨ name ∈ s.names q.symbols := by
  obtain ⟨⟨symbols, _, lays⟩, _⟩ := laid
  exact lays.bound name

end LaysStmt

theorem lays_stmt {s : Stmt} (scalar : s.isScalar = true) (empty : p.params = [])
    (ran : (stmt s).run p = .ok () q) : ∃ nodes, LaysStmt s p q nodes := by
  cases s with
  | declare name typeName isGlobal =>
    obtain rfl := run_declare_ok ran
    exact ⟨[], ⟨_, .inl rfl, .refl _⟩, fun t _ => rfl⟩
  | label name =>
    have lays : Lays (p.enter (.label name)) q [.label name] [] := by
      simp only [stmt, label, run_get_bind] at ran
      split at ran <;> (cases ran; exact .of_text rfl rfl rfl rfl rfl rfl rfl)
    exact ⟨_, ⟨_, .inl rfl, lays⟩, fun t _ => rfl⟩
  | goto target =>
    obtain ⟨nodes, lays, bare⟩ := lays_goto ran
    exact ⟨nodes, ⟨_, .inl rfl, lays⟩, fun t _ => bare⟩
  | branch condition target operand2 operator =>
    obtain ⟨nodes, lays, settled⟩ := lays_branch ran
    exact ⟨nodes, ⟨_, .inl rfl, lays⟩, settled⟩
  | assign target operand1 operator operand2 =>
    obtain ⟨symbols, nodes, noted, lays, settled⟩ := lays_assign ran
    exact ⟨nodes, ⟨symbols, noted, lays⟩, settled⟩
  | print value =>
    obtain ⟨nodes, lays, settled⟩ := lays_print ran
    exact ⟨nodes, ⟨_, .inl rfl, lays⟩, settled⟩
  | read target =>
    obtain ⟨nodes, lays, settled⟩ := lays_read ran
    exact ⟨nodes, ⟨_, .inl rfl, lays⟩, settled⟩
  | call function count target rawCount =>
    obtain ⟨nodes, lays, settled⟩ := lays_call empty ran
    -- Entering a call declares its target, if there is one.
    refine ⟨nodes, ⟨_, .inl rfl, ?_⟩, settled⟩
    cases given : Stmt.given target <;>
      simpa [given, Pass.enter, Stmt.declaration, Stmt.declares?, Stmt.touch, Pass.declaring,
        Stmt.names] using lays
  | _ => cases scalar

/-- Lines that are equal but for comments hold the same operations. -/
theorem instr_mem_of_bare {own nodes : List Node} (same : own.map Node.bare = nodes.map Node.bare)
    {i : Instr} (member : .instr i ∈ own) : ∃ j, .instr j ∈ nodes ∧ j.op = i.op := by
  have bare : i.op.node ∈ nodes.map Node.bare := same ▸ List.mem_map_of_mem member
  obtain ⟨node, inNodes, stripped⟩ := List.mem_map.mp bare
  cases node with
  | instr j =>
    cases i
    cases stripped
    exact ⟨j, inNodes, rfl⟩
  | _ => cases stripped

/-- Lowering a line is lowering its statement, but for comments. -/
theorem run_line_ok {l : Line} (ran : (line l).run p = .ok () q) :
    ∃ r own, (stmt l.stmt).run { p with text := [] } = .ok () r ∧
      q = { r with text := p.text ++ own } ∧ own.map Node.bare = r.text.map Node.bare := by
  simp only [line, EStateM.run] at ran
  split at ran
  next r lowered =>
    cases ran
    refine ⟨r, _, lowered, rfl, ?_⟩
    split
    · exact Node.map_bare_annotate _ _
    · rfl
  next => cases ran

theorem lays_line {l : Line} (scalar : l.stmt.isScalar = true) (empty : p.params = [])
    (ran : (line l).run p = .ok () q) : ∃ nodes, LaysStmt l.stmt p q nodes := by
  obtain ⟨r, own, lowered, rfl, bare⟩ := run_line_ok ran
  obtain ⟨nodes, ⟨symbols, noted, lays⟩, settled⟩ := lays_stmt scalar (by exact empty) lowered
  refine ⟨own, ⟨symbols, noted, { lays with text := rfl }⟩, fun t fits => ?_⟩
  rw [bare, lays.text]
  exact settled t ⟨fits.config, fits.symbols, fits.registers, fits.literals⟩

end Lower

/-! ## Steps -/

/-- The statement that a step lowers. -/
abbrev TraceStep.stmt (s : TraceStep) : Stmt :=
  s.line.stmt

/-- The lines that a step has laid out. -/
def TraceStep.nodes (s : TraceStep) : List Node :=
  s.after.text.drop s.before.text.length

/-- Steps of a pass that lead from one state to another without a fault. -/
inductive Chain : Pass → List TraceStep → Pass → Prop where
  | nil (p : Pass) : Chain p [] p
  | cons {s : TraceStep} {rest : List TraceStep} {q : Pass}
      (ran : (Lower.line s.line).run s.before = .ok () s.after) (later : Chain s.after rest q) :
      Chain s.before (s :: rest) q

/-- The tables under which the code of a step is settled when the pass has come to `q`. -/
def Pass.tablesAt (q : Pass) (s : TraceStep) : Tables :=
  ⟨q.config, s.after.symbols, q.registers, q.data⟩

/-- The steps of lines that are lowered without a fault. -/
theorem chain_traceFrom {program : Program} {p q : Pass}
    (ran : (Lower.lines program).run p = .ok () q) :
    Chain p (traceFrom p program) q ∧ (traceFrom p program).map TraceStep.line = program := by
  induction program generalizing p with
  | nil =>
    cases ran
    exact ⟨.nil _, rfl⟩
  | cons l rest ih =>
    obtain ⟨_, r, lowered, ranRest⟩ := Emit.run_bind_ok.mp ran
    obtain ⟨chain, lines⟩ := ih ranRest
    have performed : p.perform (Lower.line l) = (.ok (), r) := by
      simp only [Pass.perform, lowered]
    simp only [traceFrom, performed, List.map_cons, lines, and_true]
    exact .cons (s := ⟨l, none, p, r⟩) lowered chain

namespace Chain

variable {p q : Pass} {steps : List TraceStep}

theorem split {first second : List TraceStep} (chain : Chain p (first ++ second) q) :
    ∃ r, Chain p first r ∧ Chain r second q := by
  induction first generalizing p with
  | nil => exact ⟨p, .nil p, chain⟩
  | cons s rest ih =>
    cases chain with
    | cons ran later =>
      obtain ⟨r, before, after⟩ := ih later
      exact ⟨r, .cons ran before, after⟩

theorem around {first second : List TraceStep} {s : TraceStep}
    (chain : Chain p (first ++ s :: second) q) :
    Chain p first s.before ∧ (Lower.line s.line).run s.before = .ok () s.after ∧
      Chain s.after second q := by
  obtain ⟨r, before, after⟩ := chain.split
  cases after with
  | cons ran later => exact ⟨before, ran, later⟩

theorem concat {s : TraceStep} (chain : Chain p steps s.before)
    (ran : (Lower.line s.line).run s.before = .ok () s.after) : Chain p (steps ++ [s]) s.after := by
  generalize meet : s.before = r at chain
  induction chain with
  | nil p =>
    subst meet
    exact .cons ran (.nil _)
  | cons first _ ih => exact .cons first (ih meet)

theorem run_lines (chain : Chain p steps q) :
    (Lower.lines (steps.map TraceStep.line)).run p = .ok () q := by
  induction chain with
  | nil p => rfl
  | cons ran _ ih => exact Emit.run_bind_ok.mpr ⟨(), _, ran, ih⟩

/-- What every step keeps holds around every step and at the end. -/
theorem invariant {P : Pass → Prop} (chain : Chain p steps q) (start : P p)
    (keeps : ∀ s ∈ steps, P s.before → P s.after) :
    P q ∧ ∀ s ∈ steps, P s.before ∧ P s.after := by
  induction chain with
  | nil p => exact ⟨start, by simp⟩
  | @cons s rest q ran later ih =>
    have kept := keeps s List.mem_cons_self start
    obtain ⟨final, inside⟩ := ih kept fun s' member => keeps s' (List.mem_cons_of_mem s member)
    refine ⟨final, fun s' member => ?_⟩
    rcases List.mem_cons.mp member with rfl | member
    · exact ⟨start, kept⟩
    · exact inside s' member

theorem after_text {s : TraceStep} (ran : (Lower.line s.line).run s.before = .ok () s.after) :
    s.after.text = s.before.text ++ s.nodes := by
  obtain ⟨r, own, _, same, _⟩ := Lower.run_line_ok ran
  simp [TraceStep.nodes, same]

theorem text (chain : Chain p steps q) : q.text = p.text ++ steps.flatMap TraceStep.nodes := by
  induction chain with
  | nil p => simp
  | cons ran later ih => rw [ih, after_text ran, List.flatMap_cons, List.append_assoc]

/-- In a program on scalars no argument is ever queued, so every step lays out what it would in a pass
    of its own. -/
theorem lays (chain : Chain p steps q) (scalar : ∀ s ∈ steps, s.stmt.isScalar = true)
    (empty : p.params = []) :
    q.params = [] ∧ ∀ s ∈ steps, Lower.LaysStmt s.stmt s.before s.after s.nodes := by
  induction chain with
  | nil p => exact ⟨empty, by simp⟩
  | @cons s rest q ran later ih =>
    obtain ⟨nodes, laid⟩ := Lower.lays_line (scalar s List.mem_cons_self) empty ran
    obtain ⟨⟨symbols, noted, lays⟩, settled⟩ := laid
    -- Both are what the text has grown by.
    obtain rfl : s.nodes = nodes :=
      List.append_cancel_left ((after_text ran).symm.trans lays.text)
    obtain ⟨still, rest⟩ :=
      ih (fun s' member => scalar s' (List.mem_cons_of_mem s member)) (lays.params.trans empty)
    refine ⟨still, ?_⟩
    rintro s' member
    rcases List.mem_cons.mp member with rfl | member
    · exact ⟨⟨symbols, noted, lays⟩, settled⟩
    · exact rest s' member

end Chain

theorem Pass.literals_enter (p : Pass) (s : Stmt) : (p.enter s).data.literals = p.data.literals := by
  unfold Pass.enter
  cases (s.declaration p.symbols).2 <;> rfl

namespace Chain

variable {p q : Pass} {steps : List TraceStep}

/-- Names keep their registers and literals their labels up to the end of the pass. -/
theorem grows (chain : Chain p steps q)
    (laid : ∀ s ∈ steps, Lower.LaysStmt s.stmt s.before s.after s.nodes) :
    q.config = p.config ∧ p.registers.Extends q.registers ∧ p.data.literals <+: q.data.literals := by
  induction chain with
  | nil p => exact ⟨rfl, .refl _, List.prefix_rfl⟩
  | @cons s rest q ran later ih =>
    obtain ⟨⟨symbols, noted, lays⟩, _⟩ := laid s List.mem_cons_self
    obtain ⟨config, registers, literals⟩ :=
      ih fun s' member => laid s' (List.mem_cons_of_mem s member)
    have first : s.before.data.literals <+: s.after.data.literals := by
      rw [← Pass.literals_enter s.before s.stmt]
      exact lays.literals
    exact ⟨config.trans lays.config, lays.registers.trans registers, first.trans literals⟩

/-- The names that a step has bound are bound at the end, and no others are. -/
theorem mem_names (chain : Chain p steps q)
    (laid : ∀ s ∈ steps, Lower.LaysStmt s.stmt s.before s.after s.nodes) (name : String) :
    name ∈ q.registers.names ↔ name ∈ p.registers.names ∨
      ∃ s ∈ steps, name ∈ s.stmt.names s.after.symbols := by
  induction chain with
  | nil p => simp
  | @cons s rest q ran later ih =>
    rw [ih fun s' member => laid s' (List.mem_cons_of_mem s member),
      (laid s List.mem_cons_self).bound, or_assoc]
    simp only [List.mem_cons, exists_eq_or_imp]

theorem labels (chain : Chain p steps q)
    (laid : ∀ s ∈ steps, Lower.LaysStmt s.stmt s.before s.after s.nodes) :
    q.labels = (steps.map TraceStep.stmt).foldl Stmt.touch p.labels := by
  induction chain with
  | nil p => rfl
  | @cons s rest q ran later ih =>
    rw [ih fun s' member => laid s' (List.mem_cons_of_mem s member),
      (laid s List.mem_cons_self).labels, List.map_cons, List.foldl_cons]

/-- The lines of a step are the code of its statement under the final tables. -/
theorem settled (chain : Chain p steps q)
    (laid : ∀ s ∈ steps, Lower.LaysStmt s.stmt s.before s.after s.nodes) :
    ∀ s ∈ steps, s.nodes.map Node.bare = (q.tablesAt s).code s.stmt := by
  induction chain with
  | nil p => simp
  | @cons s rest q ran later ih =>
    have laidRest : ∀ s' ∈ rest, Lower.LaysStmt s'.stmt s'.before s'.after s'.nodes :=
      fun s' member => laid s' (List.mem_cons_of_mem s member)
    intro s' member
    rcases List.mem_cons.mp member with rfl | member
    -- The first step was settled with its own tables; the final ones have grown from these.
    · obtain ⟨config, registers, literals⟩ := later.grows laidRest
      exact (laid s' List.mem_cons_self).2 _ ⟨config, rfl, registers, literals⟩
    · exact ih laidRest s' member

end Chain

/-! ## Labels in the text -/

/-- Code has labels for label statements only. -/
theorem Tables.label_mem_code {t : Tables} {s : Stmt} {l : String} (member : .label l ∈ t.code s) :
    s = .label l := by
  -- A store is an instruction or a remark.
  have store : ∀ name register, Node.label l ∉ t.store name register := by
    intro name register
    unfold Tables.store
    split
    · simp
    · split <;> simp [Op.node]
  cases s with
  | label name => simpa [Tables.code, eq_comm] using member
  | goto target => simp [Tables.code, Op.node] at member
  | branch condition target operand2 operator =>
    simp only [Tables.code, Tables.branchCode] at member
    split at member
    · split at member <;> simp [Tables.relationCode, Op.node] at member
    · simp [Op.node] at member
  | assign target operand1 operator operand2 =>
    simp only [Tables.code, Tables.assignCode] at member
    split at member
    · split at member <;> simp [Tables.binaryCode, Op.node, store] at member
    · split at member <;> simp [Tables.unaryCode, Op.node, store] at member
    · simp [Tables.copyCode, Op.node, store] at member
  | print value => simp [Tables.code, Tables.printCode, Op.node] at member
  | read target => simp [Tables.code, Tables.readCode, Op.node, store] at member
  | call function count target rawCount =>
    have remark : Node.label l ∉ Tables.countRemark function count target rawCount := by
      unfold Tables.countRemark
      split <;> simp
    simp only [Tables.code, Tables.callCode, List.mem_append, remark, List.mem_singleton, false_or] at member
    rcases member with (jump | release) | result
    · simp [Op.node] at jump
    · unfold Tables.releaseCode at release
      split at release <;> simp [Op.node] at release
    · unfold Tables.resultCode at result
      split at result
      · cases result
      · exact absurd result (store _ _)
  | _ => cases member

theorem Node.eq_label_of_bare {node : Node} {l : String} (same : node.bare = .label l) :
    node = .label l := by
  cases node with
  | label name => exact same
  | instr i => cases same
  | _ => cases same

/-- Where a label stands in the text: at the first step that defines it. -/
theorem TraceStep.dropWhile_nodes {steps : List TraceStep} (tail : List Node) {l : String}
    {t : TraceStep → Tables} (settled : ∀ s ∈ steps, s.nodes.map Node.bare = (t s).code s.stmt)
    (defined : .label l ∈ steps.map stmt) :
    .label l ∈ steps.flatMap nodes ∧
      (steps.flatMap nodes ++ tail).dropWhile (· != .label l) =
        (steps.dropWhile (·.stmt != .label l)).flatMap nodes ++ tail := by
  induction steps with
  | nil => cases defined
  | cons s rest ih =>
    have settledHere := settled s List.mem_cons_self
    -- The code of a label is the label, and no other code has one.
    by_cases here : s.stmt = .label l
    · have nodes : s.nodes = [.label l] := by
        rw [here] at settledHere
        obtain ⟨node, same, bare⟩ := List.map_eq_singleton_iff.mp settledHere
        rw [same, Node.eq_label_of_bare bare]
      simp [here, nodes]
    · have later : .label l ∈ rest.map stmt := by
        rcases List.mem_cons.mp defined with first | later
        · exact absurd first.symm here
        · exact later
      obtain ⟨present, dropped⟩ := ih (fun s' member => settled s' (List.mem_cons_of_mem s member)) later
      have absent : ∀ node ∈ s.nodes, (node != .label l) = true := by
        intro node member
        rw [bne_iff_ne]
        rintro rfl
        have bare := List.mem_map_of_mem (f := Node.bare) member
        rw [settledHere] at bare
        exact here (Tables.label_mem_code bare)
      refine ⟨List.mem_append_right _ present, ?_⟩
      have passed : (s :: rest).dropWhile (·.stmt != .label l) = rest.dropWhile (·.stmt != .label l) :=
        List.dropWhile_cons_of_pos (bne_iff_ne.mpr here)
      rw [List.flatMap_cons, List.append_assoc, List.dropWhile_append_of_pos absent, dropped, passed]

/-! ## Programs -/

/-- The state in which the first line of a program is lowered. -/
def Pass.ready (config : Config) (program : Program) : Pass :=
  { Pass.start config with
    labels := (program.filterMap fun l => l.stmt.namedLabel?).foldl LabelTable.reserve .empty }

/-- Reserved labels are neither defined nor used. -/
theorem LabelTable.foldl_reserve (labels : List String) (t : LabelTable) :
    (labels.foldl reserve t).defined = t.defined ∧ (labels.foldl reserve t).referenced = t.referenced := by
  induction labels generalizing t with
  | nil => exact ⟨rfl, rfl⟩
  | cons l rest ih => exact ih (t.reserve l)

/-- The lines that end a program. -/
def exitNodes (config : Config) : List Node :=
  if config.emitExit then
    [.comment "program exit", (Op.li resultRegister "10").node, Op.syscall.node]
  else []

theorem exists_of_isOk {ε α β : Type} {r : Except ε α × β} (succeeds : r.1.isOk = true) :
    ∃ a, r = (.ok a, r.2) := by
  obtain ⟨result, _⟩ := r
  cases result with
  | ok a => exact ⟨a, rfl⟩
  | error => cases succeeds

theorem lowerProgram_eq_ok_iff {config : Config} {program : Program} {listing : String} {p : Pass} :
    lowerProgram config program = (.ok listing, p) ↔
      (Lower.program program).run (Pass.start config) = .ok () p ∧ listing = p.listing := by
  simp only [lowerProgram, Pass.perform]
  cases ran : (Lower.program program).run (Pass.start config) with
  | ok a q =>
    simp only [Prod.mk.injEq, Except.ok.injEq, EStateM.Result.ok.injEq, true_and]
    constructor
    · rintro ⟨rfl, rfl⟩
      exact ⟨rfl, rfl⟩
    · rintro ⟨rfl, rfl⟩
      exact ⟨rfl, rfl⟩
  | error fault q => simp

/-- The check of the labels succeeds unless it is strict and a label is missing, and leaves at most a
    warning. -/
theorem Lower.run_checkLabels_iff {p q : Pass} :
    checkLabels.run p = .ok () q ↔
      (p.config.strictLabels = true → p.labels.undefined = []) ∧
        q = { p with warnings := p.warnings ++
          if p.labels.undefined = [] then [] else [.undefinedLabels p.labels.undefined] } := by
  simp only [checkLabels, Emit.run_get_bind, LabelTable.validate]
  cases missing : p.labels.undefined with
  | nil =>
    simp only [Emit.run_pure, EStateM.Result.ok.injEq, true_and, implies_true, if_true,
      List.append_nil]
    exact eq_comm
  | cons label rest =>
    cases strict : p.config.strictLabels with
    | true => simp
    | false =>
      simp only [Bool.false_eq_true, if_false, false_implies, true_and, reduceCtorEq]
      constructor
      · intro ran
        cases ran
        rfl
      · rintro rfl
        rfl

theorem Lower.run_exit (p : Pass) :
    exit.run p = .ok () { p with text := p.text ++
      [.comment "program exit", (Op.li resultRegister "10").node, Op.syscall.node] } := by
  have number : toString Service.exit.number = "10" := by decide
  simp [exit, selectService, Emit.comment, Emit.node, Emit.op, Emit.code, number,
    Op.node]

/-- A program is lowered line by line; the exit sequence comes behind all lines. -/
theorem Lower.run_program (config : Config) (program : Program) :
    (Lower.program program).run (Pass.start config) =
      match (Lower.lines program).run (Pass.ready config program) with
      | .ok _ q => checkLabels.run { q with text := q.text ++ exitNodes q.config }
      | .error fault q => .error fault q := by
  have ready : (Lower.reserveLabels program).run (Pass.start config) =
      .ok () (Pass.ready config program) := rfl
  rw [Lower.program, Emit.run_bind, ready]
  simp only [Emit.run_bind]
  cases (Lower.lines program).run (Pass.ready config program) with
  | error fault q => rfl
  | ok a q =>
    simp only [Emit.run_get, exitNodes]
    cases q.config.emitExit with
    | true => simp [Lower.run_exit]
    | false => simp

/-- A pass succeeds where all lines are lowered without a fault and the labels are in order. -/
theorem lowerProgram_iff {config : Config} {program : Program} {p : Pass} :
    (∃ listing, lowerProgram config program = (.ok listing, p)) ↔
      ∃ q, (Lower.lines program).run (Pass.ready config program) = .ok () q ∧
        (q.config.strictLabels = true → q.labels.undefined = []) ∧
        p = { q with
          text := q.text ++ exitNodes q.config
          warnings := q.warnings ++
            if q.labels.undefined = [] then [] else [.undefinedLabels q.labels.undefined] } := by
  simp only [lowerProgram_eq_ok_iff, exists_and_left, exists_eq, and_true, Lower.run_program]
  cases (Lower.lines program).run (Pass.ready config program) with
  | error fault q => simp
  | ok a q => simp [Lower.run_checkLabels_iff]

end MipsLowering
