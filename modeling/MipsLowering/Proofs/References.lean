import MipsLowering.Proofs.DataLayout
import MipsLowering.Proofs.Demands

/-! # References to the data section

Code refers to the data section by labels.  At the end of a pass every reference is to the cell of a name, to
a literal that an operand of the statement is, or to the array of a statement on an element; and only the last
can be left without a directive, if the array never gets a cell. -/

namespace MipsLowering

-- The class of an operand is only used through the theorems about it.
seal Operand.ofString

/-! ## Labels that are found -/

/-- An operation loads the literal that an operand is, from a label under which the data section holds its
    value. -/
def Pass.LoadsLiteral (p : Pass) (operand : Operand) (op : Op) : Prop :=
  ∃ kind text number dest, operand.pooled? = some (kind, text) ∧
    op = kind.load dest (kind.label number) ∧
    (Literal.mk kind (kind.stored text) number).directive ∈ p.data.directives

theorem Literal.label_directive (l : Literal) : l.directive.label = some l.label := by
  unfold directive
  split <;> rfl

/-- The label of a literal stands before its value. -/
theorem DataSection.directive_of_literalLabel? {d : DataSection} {kind : LiteralKind} {text label : String}
    (found : d.literalLabel? kind text = some label) :
    ∃ number, label = kind.label number ∧
      (Literal.mk kind (kind.stored text) number).directive ∈ d.directives := by
  obtain ⟨⟨kind', value, number⟩, present, rfl⟩ := Option.map_eq_some_iff.mp found
  obtain ⟨rfl, rfl⟩ : kind' = kind ∧ value = kind.stored text := by simpa using List.find?_some present
  exact ⟨number, rfl, List.mem_append_right _ (List.mem_map_of_mem (List.mem_of_find?_eq_some present))⟩

/-- A name that has a cell is the label of a directive. -/
theorem directive_of_isInMemory {config : Config} {program : Program} {q : Pass}
    (ran : (Lower.lines program).run (Pass.ready config program) = .ok () q) {name : String}
    (cell : q.symbols.isInMemory name = true) : ∃ d ∈ q.data.directives, d.label = some name := by
  rw [SymbolTable.isInMemory_eq_cell?] at cell
  obtain ⟨s, entry⟩ := Option.isSome_iff_exists.mp cell
  obtain ⟨b, found, -⟩ := block?_of_cell? ran entry
  have labelled : b.directive.label = some name := by simpa using List.find?_some found
  exact ⟨b.directive, directive_mem_of_mem_assemble (List.mem_of_find?_eq_some found), labelled⟩

theorem symbol?_exitNodes {config : Config} {i : Instr} (member : .instr i ∈ exitNodes config) :
    i.op.symbol? = none := by
  unfold exitNodes at member
  split at member
  · obtain same | same : i = ⟨.li resultRegister "10", none⟩ ∨ i = ⟨.syscall, none⟩ := by
      simpa [Op.node] using member
    · rw [same]
      rfl
    · rw [same]
      rfl
  · cases member

/-- What serves a demand loads every literal in it under a label of the data section. -/
theorem Pass.Serves.loadsLiteral {q : Pass} {d : Demand} {nodes : List Node} (served : q.Serves d nodes)
    {operand : Operand} (asked : operand ∈ d.operands) (pooled : operand.pooled?.isSome = true) :
    ∃ i, .instr i ∈ nodes ∧ q.LoadsLiteral operand i.op := by
  obtain ⟨⟨kind, text⟩, literal⟩ := Option.isSome_iff_exists.mp pooled
  obtain ⟨i, dest, label, member, found, same⟩ :=
    served.loads (kind, text) (List.mem_filterMap.mpr ⟨operand, asked, literal⟩)
  obtain ⟨number, rfl, directive⟩ := DataSection.directive_of_literalLabel? found
  exact ⟨i, member, kind, text, number, dest, literal, same, directive⟩

/-- What serves a demand refers to cells, to arrays in the demand, and to literals in it. -/
theorem Pass.Serves.refers_to {q : Pass} {d : Demand} {nodes : List Node} (served : q.Serves d nodes)
    {i : Instr} (member : .instr i ∈ nodes) {label : String} (refers : i.op.symbol? = some label) :
    q.symbols.isInMemory label = true ∨
      (label ∈ d.arrays ∧ i.op = .la q.config.addressRegister label) ∨
      ∃ operand ∈ d.operands, q.LoadsLiteral operand i.op := by
  rcases served.refers i member label refers with cell | ⟨⟨kind, text⟩, asked, dest, found, same⟩ | array
  · exact .inl cell
  · obtain ⟨operand, fetched, literal⟩ := List.mem_filterMap.mp asked
    obtain ⟨number, rfl, directive⟩ := DataSection.directive_of_literalLabel? found
    exact .inr (.inr ⟨operand, fetched, kind, text, number, dest, literal, same, directive⟩)
  · exact .inr (.inl array)

/-- An operation that loads a literal refers to a directive. -/
theorem Pass.LoadsLiteral.directive {p : Pass} {operand : Operand} {op : Op} {label : String}
    (loads : p.LoadsLiteral operand op) (refers : op.symbol? = some label) :
    ∃ d ∈ p.data.directives, d.label = some label := by
  obtain ⟨kind, text, number, dest, -, rfl, member⟩ := loads
  refine ⟨_, member, ?_⟩
  rw [Literal.label_directive, ← refers]
  cases kind <;> rfl

/-! ## Passes -/

/-- Every reference of a listing is to the label of a directive, unless it is to an array that has no cell at
    the end of the pass.  Every literal that an operand is gets loaded from a label under which its value is
    stored, and a reference of a step that is neither to a cell nor to an array of the statement loads the
    literal that one of its operands is. -/
theorem lowerProgram_references {config : Config} {program : Program} {listing : String} {p : Pass}
    (lowered : lowerProgram config program = (.ok listing, p)) :
    (∀ i, .instr i ∈ p.text → ∀ label, i.op.symbol? = some label →
      (∃ d ∈ p.data.directives, d.label = some label) ∨
        ∃ s ∈ (traceProgram config program).1, label ∈ s.demand.arrays ∧ .instr i ∈ s.nodes ∧
          i.op = .la config.addressRegister label ∧ p.symbols.isInMemory label = false) ∧
      ∀ s ∈ (traceProgram config program).1,
        (∀ operand ∈ s.demand.operands, operand.pooled?.isSome = true →
          ∃ i, .instr i ∈ s.nodes ∧ p.LoadsLiteral operand i.op) ∧
        ∀ i, .instr i ∈ s.nodes → ∀ label, i.op.symbol? = some label →
          p.symbols.isInMemory label = true ∨ label ∈ s.demand.arrays ∨
            ∃ operand ∈ s.demand.operands, p.LoadsLiteral operand i.op := by
  obtain ⟨q, ran, -, final⟩ := lowerProgram_iff.mp ⟨listing, lowered⟩
  obtain ⟨chain, -⟩ := chain_traceFrom ran
  obtain ⟨meets, served⟩ := chain.meets
  have symbols : p.symbols = q.symbols := by rw [final]
  have data : p.data = q.data := by rw [final]
  have settings : q.config = config := meets.config
  have text : p.text = (traceProgram config program).1.flatMap TraceStep.nodes ++ exitNodes q.config := by
    rw [final, chain.text]
    rfl
  simp only [Pass.LoadsLiteral, symbols, data]
  refine ⟨fun i member label refers => ?_, fun s taken => ⟨fun operand => (served s taken).loadsLiteral, ?_⟩⟩
  · rw [text] at member
    rcases List.mem_append.mp member with member | member
    · obtain ⟨s, taken, member⟩ := List.mem_flatMap.mp member
      rcases (served s taken).refers_to member refers with cell | ⟨array, same⟩ | ⟨operand, -, loads⟩
      · exact .inl (directive_of_isInMemory ran cell)
      · cases cell : q.symbols.isInMemory label with
        | true => exact .inl (directive_of_isInMemory ran cell)
        | false => exact .inr ⟨s, taken, array, member, settings ▸ same, rfl⟩
      · exact .inl (loads.directive refers)
    · rw [symbol?_exitNodes member] at refers
      cases refers
  · intro i member label refers
    rcases (served s taken).refers_to member refers with cell | ⟨array, -⟩ | literal
    · exact .inl cell
    · exact .inr (.inl array)
    · exact .inr (.inr literal)

/-- A float, a text, an array that gets its cell late, and one that gets none. -/
def refersWidely : Program :=
  Program.ofStmts
    [.declare "x" (some "float") false,
      .assign "x" (some "1.5") none none,
      .print "\"hi\"",
      .arrayLoad "t" "a" "0",
      .arrayStore "b" "t" "2.5",
      .declareArray "b" 2 (some "float") false]

theorem refersWidely_references :
    ∃ listing p, lowerProgram (Config.standard false) refersWidely = (.ok listing, p) ∧
      (∀ i, .instr i ∈ p.text → ∀ label, i.op.symbol? = some label → label ≠ "a" →
        ∃ d ∈ p.data.directives, d.label = some label) ∧
      ∃ s ∈ (traceProgram (Config.standard false) refersWidely).1, s.stmt = .print "\"hi\"" ∧
        ∃ i, .instr i ∈ s.nodes ∧ p.LoadsLiteral (.text "\"hi\"") i.op := by
  have runs : (lowerProgram (Config.standard false) refersWidely).1.isOk = true := by
    decide +kernel
  have arrays : ∀ s ∈ (traceProgram (Config.standard false) refersWidely).1,
      ∀ label ∈ s.demand.arrays, label = "a" ∨
        (lowerProgram (Config.standard false) refersWidely).2.symbols.isInMemory label = true := by
    decide +kernel
  have printed : ∃ s ∈ (traceProgram (Config.standard false) refersWidely).1,
      s.stmt = .print "\"hi\"" ∧ .text "\"hi\"" ∈ s.demand.operands := by
    decide +kernel
  cases lowered : lowerProgram (Config.standard false) refersWidely with
  | mk result p =>
    rw [lowered] at runs arrays
    cases result with
    | error => cases runs
    | ok listing =>
      obtain ⟨closed, literals⟩ := lowerProgram_references lowered
      refine ⟨listing, p, rfl, fun i member label refers other => ?_, ?_⟩
      · rcases closed i member label refers with found | ⟨s, taken, array, -, -, cell⟩
        · exact found
        · rcases arrays s taken label array with same | backed
          · exact absurd same other
          · rw [backed] at cell
            cases cell
      · obtain ⟨s, taken, isPrint, asked⟩ := printed
        exact ⟨s, taken, isPrint, (literals s taken).1 _ asked rfl⟩

end MipsLowering
