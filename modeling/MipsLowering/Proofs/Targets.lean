import MipsLowering.Proofs.Outcomes
import MipsLowering.Proofs.StatementCode
import MipsLowering.Proofs.Switches

/-! # Where the text jumps to

The jumps in the text are those of the statements, and two more for every fill with zeros.  The check of
the labels sees neither all of the text nor only the text: the entry label is printed behind its back, and
a conditional jump whose operator has no code is counted although there is no jump.  `lowerProgram_strict_iff`
says what strict settings complain about in terms of the listing that other settings give. -/

namespace MipsLowering

/-! ## Jumps in code -/

/-- The label that an operation jumps to. -/
def Op.target? : Op → Option String
  | .bnez _ label | .beq _ _ label | .j label | .jal label => some label
  | _ => none

def Node.target? : Node → Option String
  | .instr i => i.op.target?
  | _ => none

namespace Node

/-- The labels that lines jump to. -/
def targets (nodes : List Node) : List String :=
  nodes.filterMap target?

@[simp] theorem targets_nil : targets [] = [] :=
  rfl

@[simp] theorem targets_append (first second : List Node) :
    targets (first ++ second) = targets first ++ targets second :=
  List.filterMap_append

@[simp] theorem targets_cons (node : Node) (rest : List Node) :
    targets (node :: rest) = node.target?.toList ++ targets rest := by
  rw [targets, List.filterMap_cons]
  cases node.target? <;> rfl

@[simp] theorem target?_node (op : Op) : op.node.target? = op.target? :=
  rfl

@[simp] theorem target?_label (name : String) : (Node.label name).target? = none :=
  rfl

@[simp] theorem target?_comment (text : String) : (Node.comment text).target? = none :=
  rfl

theorem targets_map_bare (nodes : List Node) : targets (nodes.map bare) = targets nodes := by
  have bared : ∀ node : Node, node.bare.target? = node.target? := fun node => by cases node <;> rfl
  rw [targets, List.filterMap_map]
  exact congrArg (nodes.filterMap ·) (funext bared)

end Node

open Node (targets)

@[simp] theorem BinaryOp.targets_code (op : BinaryOp) (dest left right : Register) :
    targets ((op.code dest left right).map (·.op.node)) = [] := by
  cases op <;> rfl

@[simp] theorem UnaryOp.targets_code (op : UnaryOp) (dest source : Register) :
    targets ((op.code dest source).map (·.op.node)) = [] := by
  cases op <;> rfl

namespace Tables

variable (t : Tables)

@[simp] theorem targets_fetch (operand : String) (wanted : Option Register) :
    targets ((t.fetch operand wanted).2.map Op.node) = [] := by
  unfold fetch
  cases Operand.ofString (Text.stripped operand) with
  | immediate value | float value | text value => rfl
  | name name =>
    simp only [fetchAs, load]
    split
    · rfl
    · split <;> rfl

@[simp] theorem targets_store (name : String) (register : Register) :
    targets (t.store name register) = [] := by
  unfold store
  split
  · rfl
  · split <;> rfl

@[simp] theorem targets_moveCode (dest source : Register) :
    targets ((moveCode dest source).map Op.node) = [] := by
  unfold moveCode
  split <;> rfl

theorem targets_assignCode (target : String) (operand1 operator operand2 : Option String) :
    targets (t.assignCode target operand1 operator operand2) = [] := by
  have copied : ∀ dest operand, targets ((t.copyInto dest operand).map Op.node) = [] := by
    intro dest operand
    cases operand <;> simp [copyInto, Op.target?]
  unfold assignCode
  split
  · split
    · simp [binaryCode]
    · rfl
  · split
    · simp [unaryCode]
    · rfl
  · simp [copyCode, copied]

theorem targets_printCode (value : String) : targets (t.printCode value) = [] := by
  have argument : ∀ operand, targets ((t.argumentCode value operand).map Op.node) = [] := by
    intro operand
    cases operand with
    | immediate constant => rfl
    | float _ | text _ => simp [argumentCode]
    | name name =>
      simp only [argumentCode]
      split <;> simp [Op.target?]
  have prepared : targets ((t.prepareCode value).1.map Op.node) = [] := by
    unfold prepareCode
    split
    · rfl
    · split <;> simp [argument, Op.target?]
  simp [printCode, prepared, serviceCode, Op.target?]

end Tables

/-! ## Jumps of statements -/

/-- A conditional jump whose operator has no code, so that there is no jump. -/
def Stmt.isIdle : Stmt → Bool
  | .branch _ _ operand2 operator =>
    (given operand2).isSome && (given operator).any fun symbol => (BinaryOp.ofSymbol? symbol).isNone
  | _ => false

namespace Tables

variable (t : Tables)

theorem targets_branchCode (condition target : String) (operand2 operator : Option String) :
    targets (t.branchCode condition target operand2 operator) =
      if (Stmt.branch condition target operand2 operator).isIdle then [] else [target] := by
  cases hasOperator : Stmt.given operator with
  | none => simp [branchCode, Stmt.isIdle, hasOperator, Op.target?]
  | some symbol =>
    cases hasRight : Stmt.given operand2 with
    | none => simp [branchCode, Stmt.isIdle, hasOperator, hasRight, Op.target?]
    | some right =>
      cases known : BinaryOp.ofSymbol? symbol with
      | none => simp [branchCode, Stmt.isIdle, hasOperator, hasRight, known]
      | some op => simp [branchCode, Stmt.isIdle, hasOperator, hasRight, known, relationCode, Op.target?]

theorem targets_passCode (symbols : SymbolTable) (queue : List String) (function : String)
    (count : Option Int) (target rawCount : Option String) :
    targets (t.passCode symbols queue function count target rawCount) = [function] := by
  have remark : targets (queueRemark function count target rawCount queue.length) = [] := by
    unfold queueRemark
    split <;> rfl
  have pushes : ∀ (u : Tables) (operands : List String),
      targets ((operands.flatMap u.pushCode).map Op.node) = [] := by
    intro u operands
    induction operands with
    | nil => rfl
    | cons operand rest ih => simp [pushCode, ih, Op.target?]
  have release : ∀ n, targets (t.releaseCode n) = [] := by
    intro n
    rcases t.releaseCode_cases n with none | ⟨_, one⟩
    · rw [none]
      rfl
    · rw [one]
      rfl
  have result : targets (t.resultCode target) = [] := by
    unfold resultCode
    split
    · rfl
    · exact t.targets_store _ _
  simp [passCode, remark, pushes, release, result, Op.target?]

/-- The jumps in the code of a statement: to the label that it uses, unless it is idle, and around the
    loop of a fill. -/
theorem targets_codeFrom (p : Pass) (s : Stmt) :
    targets (t.codeFrom p s) =
      (if s.isIdle then [] else s.usedLabel?.toList) ++
        if s.isZeroFill then
          [(p.labels.generate "arr_pad" ["", "_end"]).1 ++ "_end",
            (p.labels.generate "arr_pad" ["", "_end"]).1]
        else [] := by
  cases s with
  | branch condition target operand2 operator =>
    rw [codeFrom, code, targets_branchCode]
    split <;> rfl
    all_goals simp
  | assign target operand1 operator operand2 => exact t.targets_assignCode _ _ _ _
  | arrayLoad target array index =>
    simp [codeFrom, arrayLoadCode, elementCode, Stmt.isIdle, Stmt.usedLabel?, Stmt.isZeroFill, Op.target?]
  | arrayStore array index value =>
    simp [codeFrom, arrayStoreCode, elementCode, Stmt.isIdle, Stmt.usedLabel?, Stmt.isZeroFill, Op.target?]
  | zeroFill array start stop =>
    simp [codeFrom, fillCode, cursorCode, fillLoop, Stmt.isIdle, Stmt.usedLabel?, Stmt.isZeroFill,
      Op.target?]
  | call function count target rawCount => exact t.targets_passCode _ _ _ _ _ _
  | ret value =>
    simp only [codeFrom, returnCode]
    split
    · rfl
    · split
      · rfl
      · simp [Stmt.isIdle, Stmt.usedLabel?, Stmt.isZeroFill, Op.target?]
  | print value => exact t.targets_printCode value
  | read target =>
    simp [codeFrom, code, readCode, Stmt.isIdle, Stmt.usedLabel?, Stmt.isZeroFill, Op.target?, serviceCode]
  | _ => rfl

/-- A fill has a label line for each label that it jumps to. -/
theorem label_mem_fillCode {array start stop loop label : String}
    (member : label ∈ [loop ++ "_end", loop]) :
    label ∈ (t.fillCode array start stop loop).filterMap Node.label? := by
  rw [fillCode, List.filterMap_append]
  apply List.mem_append_right
  rcases List.mem_pair.mp member with rfl | rfl
  · exact List.mem_cons_of_mem _ List.mem_cons_self
  · exact List.mem_cons_self

end Tables

/-! ## Jumps of a pass -/

namespace Chain

variable {p q : Pass} {steps : List TraceStep} {label : String}

/-- What can be read off lines without their comments is found in a text where it is found in the code of
    a step. -/
theorem mem_view (chain : Chain p steps q) {view : Node → Option String}
    (bared : ∀ node : Node, view node.bare = view node) :
    label ∈ q.text.filterMap view ↔ label ∈ p.text.filterMap view ∨
      ∃ s ∈ steps, label ∈ ((q.tablesAt s).codeFrom s.before s.stmt).filterMap view := by
  have same : ∀ nodes : List Node, (nodes.map Node.bare).filterMap view = nodes.filterMap view := by
    intro nodes
    rw [List.filterMap_map]
    exact congrArg (nodes.filterMap ·) (funext bared)
  rw [chain.text, List.filterMap_append, List.mem_append, List.filterMap_flatMap, List.mem_flatMap]
  apply or_congr_right
  constructor
  · rintro ⟨s, inSteps, found⟩
    exact ⟨s, inSteps, by rwa [← chain.laid s inSteps, same]⟩
  · rintro ⟨s, inSteps, found⟩
    exact ⟨s, inSteps, by rwa [← chain.laid s inSteps, same] at found⟩

/-- A text jumps to the labels that its statements use, unless they are idle, and otherwise only to labels
    that have a line in the text. -/
theorem mem_targets (chain : Chain p steps q) (empty : p.text = []) :
    (∀ s ∈ steps, s.stmt.isIdle = false → s.stmt.usedLabel? = some label → label ∈ targets q.text) ∧
    (label ∈ targets q.text →
      (∃ s ∈ steps, s.stmt.isIdle = false ∧ s.stmt.usedLabel? = some label) ∨
        label ∈ q.text.filterMap Node.label?) := by
  have jumps : label ∈ targets q.text ↔
      ∃ s ∈ steps, label ∈ targets ((q.tablesAt s).codeFrom s.before s.stmt) := by
    have bared : ∀ node : Node, node.bare.target? = node.target? := fun node => by cases node <;> rfl
    have view : label ∈ targets q.text ↔ label ∈ targets p.text ∨
        ∃ s ∈ steps, label ∈ targets ((q.tablesAt s).codeFrom s.before s.stmt) := chain.mem_view bared
    simpa [empty] using view
  constructor
  · intro s inSteps busy uses
    exact jumps.mpr ⟨s, inSteps, by simp [Tables.targets_codeFrom, busy, uses]⟩
  · intro jumped
    obtain ⟨s, inSteps, inCode⟩ := jumps.mp jumped
    rw [Tables.targets_codeFrom] at inCode
    rcases List.mem_append.mp inCode with own | looped
    · left
      cases idle : s.stmt.isIdle with
      | true => simp [idle] at own
      | false => exact ⟨s, inSteps, idle, by simpa [idle] using own⟩
    · right
      -- The labels of a loop stand in the code of the same fill.
      apply (chain.mem_view fun node => by cases node <;> rfl).mpr
      refine .inr ⟨s, inSteps, ?_⟩
      cases fill : s.stmt with
      | zeroFill array start stop =>
        simp only [fill, Stmt.isZeroFill, if_true] at looped
        exact Tables.label_mem_fillCode _ looped
      | _ => simp [fill, Stmt.isZeroFill] at looped

end Chain

/-! ## Strict settings -/

/-- The same settings, strict about labels or not. -/
def Config.checking (config : Config) (strict : Bool) : Config :=
  { config with strictLabels := strict, accepted := config.accepted }

/-- The label lines in the text part of a listing: the one that is printed for the entry, and those that
    the text has. -/
def Pass.labelLines (p : Pass) : List String :=
  p.config.entryLabel :: p.text.filterMap Node.label?

/-- Lines are lowered alike, strictly or not. -/
theorem Lower.run_lines_checking (config : Config) (program : Program) (strict : Bool) :
    (lines program).run (Pass.ready (config.checking strict) program) =
      Emit.outcomeUnder (config.checking strict) ((lines program).run (Pass.ready config program)) := by
  have agrees : (Pass.ready config program).config.Agrees (config.checking strict) := ⟨rfl, rfl, rfl⟩
  exact run_lines_under agrees rfl program

/-- Strict settings complain where all lines are lowered and a label is missing. -/
theorem lowerProgram_strict_iff_undefined (config : Config) (program : Program) :
    (∃ labels, (lowerProgram (config.checking true) program).1 = .error (.undefinedLabels labels)) ↔
      ∃ q, (Lower.lines program).run (Pass.ready config program) = .ok () q ∧
        q.labels.undefined ≠ [] := by
  simp only [lowerProgram_error_iff, Lower.run_lines_checking]
  constructor
  · rintro ⟨labels, ⟨q, failed⟩ | ⟨q, ran, _, missing, _⟩⟩
    · cases outcome : (Lower.lines program).run (Pass.ready config program) with
      | ok _ r => simp [outcome, Emit.outcomeUnder] at failed
      | error fault r =>
        rw [outcome] at failed
        cases failed
        exact absurd outcome Lower.unchecked_lines
    · cases outcome : (Lower.lines program).run (Pass.ready config program) with
      | ok _ r =>
        rw [outcome] at ran
        cases ran
        exact ⟨r, rfl, missing⟩
      | error fault r => simp [outcome, Emit.outcomeUnder] at ran
  · rintro ⟨q, ran, missing⟩
    have kept : (Emit.outcomeUnder (config.checking true)
        ((Lower.lines program).run (Pass.ready config program))) =
          .ok () (q.under (config.checking true)) := by
      rw [ran]
      rfl
    exact ⟨_, .inr ⟨_, kept, rfl, missing, rfl⟩⟩

/-- Among the labels that a program names, those with a line in the text are those that it defines. -/
theorem label_line_iff {config : Config} {program : Program} {q : Pass}
    (ran : (Lower.lines program).run (Pass.ready config program) = .ok () q) {l : Line} {label : String}
    (member : l ∈ program) (names : l.stmt.namedLabel? = some label) :
    label ∈ q.text.filterMap Node.label? ↔ label ∈ program.filterMap (·.stmt.definedLabel?) := by
  obtain ⟨numbers, accounts⟩ := accounts_lines ran
  have placed : q.text.filterMap Node.label? = Stmt.labelLines (program.map Line.stmt) numbers :=
    accounts.placed
  have unlooped : label ∉ numbers.flatMap loopLabels := fun looped =>
    accounts.fresh label looped (List.mem_filterMap.mpr ⟨l, member, names⟩)
  rw [placed, (Stmt.labelLines_perm accounts.counted).mem_iff, List.mem_append, List.filterMap_map]
  exact or_iff_left unlooped

/-- A label is missing if there is a jump to it in the text and no line, or if it has no line and is named
    by a jump that has no code. -/
theorem undefined_iff_dangling {config : Config} {program : Program} {q : Pass}
    (ran : (Lower.lines program).run (Pass.ready config program) = .ok () q) :
    q.labels.undefined ≠ [] ↔
      (∃ target ∈ targets q.text, target ∉ q.text.filterMap Node.label?) ∨
        ∃ l ∈ program, ∃ label, l.stmt.isIdle = true ∧ l.stmt.usedLabel? = some label ∧
          label ∉ q.text.filterMap Node.label? := by
  obtain ⟨chain, lines⟩ := chain_traceFrom ran
  have named : ∀ {l : Line} {label : String}, l.stmt.usedLabel? = some label →
      l.stmt.namedLabel? = some label := fun uses => Stmt.namedLabel?_iff.mpr (.inr uses)
  rw [undefined_lines ran]
  constructor
  · rintro ⟨label, used, undefined⟩
    obtain ⟨l, member, uses⟩ := List.mem_filterMap.mp used
    have noLine : label ∉ q.text.filterMap Node.label? := fun line =>
      undefined ((label_line_iff ran member (named uses)).mp line)
    cases idle : l.stmt.isIdle with
    | true => exact .inr ⟨l, member, label, idle, uses, noLine⟩
    | false =>
      -- The line has a step of its own, whose code holds the jump.
      rw [← lines] at member
      obtain ⟨s, inSteps, rfl⟩ := List.mem_map.mp member
      exact .inl ⟨label, (chain.mem_targets rfl).1 s inSteps idle uses, noLine⟩
  · rintro (⟨target, jumped, noLine⟩ | ⟨l, member, label, -, uses, noLine⟩)
    · rcases (chain.mem_targets rfl).2 jumped with ⟨s, inSteps, -, uses⟩ | line
      · have member : s.line ∈ program := lines ▸ List.mem_map_of_mem inSteps
        exact ⟨target, List.mem_filterMap.mpr ⟨s.line, member, uses⟩, fun defined =>
          noLine ((label_line_iff ran member (named uses)).mpr defined)⟩
      · exact absurd line noLine
    · exact ⟨label, List.mem_filterMap.mpr ⟨l, member, uses⟩, fun defined =>
        noLine ((label_line_iff ran member (named uses)).mpr defined)⟩

/-- The exit sequence adds neither jumps nor labels. -/
theorem lowerProgram_views {config : Config} {program : Program} {listing : String} {p : Pass}
    (lowered : lowerProgram config program = (.ok listing, p)) :
    ∃ q, (Lower.lines program).run (Pass.ready config program) = .ok () q ∧
      targets p.text = targets q.text ∧
      p.text.filterMap Node.label? = q.text.filterMap Node.label? ∧ p.config = config ∧
      p.data = q.data := by
  have plain : targets (exitNodes p.config) = [] ∧ (exitNodes p.config).filterMap Node.label? = [] := by
    unfold exitNodes
    split <;> exact ⟨rfl, rfl⟩
  obtain ⟨q, ran, -, final⟩ := lowerProgram_iff.mp ⟨listing, lowered⟩
  have settings : p.config = q.config := by rw [final]
  have text : p.text = q.text ++ exitNodes p.config := by rw [final]
  refine ⟨q, ran, ?_, ?_, ?_, by rw [final]⟩
  · rw [text, Node.targets_append, plain.1, List.append_nil]
  · rw [text, List.filterMap_append, plain.2, List.append_nil]
  · rw [settings, (chain_traceFrom ran).1.growth.config]
    rfl

theorem exists_dangling_iff (jumps lines : List String) (entry : String) :
    (∃ target ∈ jumps, target ∉ lines) ↔
      (∃ target ∈ jumps, target ∉ entry :: lines) ∨ (entry ∈ jumps ∧ entry ∉ lines) := by
  constructor
  · rintro ⟨target, jumped, noLine⟩
    by_cases isEntry : target = entry
    · exact .inr (isEntry ▸ ⟨jumped, noLine⟩)
    · exact .inl ⟨target, jumped, by simp [isEntry, noLine]⟩
  · rintro (⟨target, jumped, noLine⟩ | ⟨jumped, noLine⟩)
    · exact ⟨target, jumped, fun line => noLine (List.mem_cons_of_mem _ line)⟩
    · exact ⟨entry, jumped, noLine⟩

/-- A pass complains under strict settings if the listing that it prints otherwise jumps to a label without
    a line in it.  It also does so in two cases in which there is no such jump: if the only line of a label
    is the one that is printed for the entry, and if a label without a line is only named by conditional
    jumps that have no code. -/
theorem lowerProgram_strict_iff (config : Config) (program : Program) :
    (∃ labels, (lowerProgram (config.checking true) program).1 = .error (.undefinedLabels labels)) ↔
      ∃ listing p, lowerProgram (config.checking false) program = (.ok listing, p) ∧
        ((∃ target ∈ targets p.text, target ∉ p.labelLines) ∨
          (config.entryLabel ∈ targets p.text ∧
            config.entryLabel ∉ p.text.filterMap Node.label?) ∨
          ∃ l ∈ program, ∃ label, l.stmt.isIdle = true ∧ l.stmt.usedLabel? = some label ∧
            label ∉ p.text.filterMap Node.label?) := by
  show (∃ labels, (lowerProgram ((config.checking false).checking true) program).1 =
    .error (.undefinedLabels labels)) ↔ _
  rw [lowerProgram_strict_iff_undefined]
  have entry : (config.checking false).entryLabel = config.entryLabel := rfl
  constructor
  · rintro ⟨q, ran, missing⟩
    have lenient : q.config.strictLabels = false := by
      rw [(chain_traceFrom ran).1.growth.config]
      rfl
    obtain ⟨listing, lowered⟩ := lowerProgram_iff.mpr ⟨q, ran, by simp [lenient], rfl⟩
    obtain ⟨q', ran', jumps, labels, settings, -⟩ := lowerProgram_views lowered
    obtain rfl : q' = q := by
      rw [ran] at ran'
      cases ran'
      rfl
    refine ⟨listing, _, lowered, ?_⟩
    rw [Pass.labelLines, jumps, labels, settings, entry, ← or_assoc, ← exists_dangling_iff]
    exact (undefined_iff_dangling ran).mp missing
  · rintro ⟨listing, p, lowered, dangling⟩
    obtain ⟨q, ran, jumps, labels, settings, -⟩ := lowerProgram_views lowered
    rw [Pass.labelLines, jumps, labels, settings, entry, ← or_assoc, ← exists_dangling_iff] at dangling
    exact ⟨q, ran, (undefined_iff_dangling ran).mpr dangling⟩

/-- Strict settings refuse statements although every jump in their listing finds its line. -/
def RefusesResolved (stmts : List Stmt) : Prop :=
  (lowerProgram (Config.standard true) (Program.ofStmts stmts)).1.isOk = false ∧
  (lowerProgram (Config.standard false) (Program.ofStmts stmts)).1.isOk = true ∧
  ∀ target ∈ targets (lowerProgram (Config.standard false) (Program.ofStmts stmts)).2.text,
    target ∈ (lowerProgram (Config.standard false) (Program.ofStmts stmts)).2.labelLines

/-- A jump to the entry is refused, and so is a jump without code. -/
theorem strict_refuses_resolved :
    RefusesResolved [.goto "main"] ∧ RefusesResolved [.branch "x" "L" (some "y") (some "%")] := by
  unfold RefusesResolved
  decide +kernel

end MipsLowering
