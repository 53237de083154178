import MipsLowering.Proofs.Arguments
import MipsLowering.Proofs.Demands

/-! # Texts that get registers

A register is bound to a text if a statement assigns to it, or fetches it as an operand and finds no literal in
it.  Whether the text is an identifier makes no difference: what is no literal counts as a name. -/

namespace MipsLowering

-- The class of an operand is only used through the theorems about it.
seal Operand.ofString

/-! ## Words -/

/-- One word that is no literal of any kind. -/
def Lexeme.isPlainWord (cs : List Char) : Bool :=
  !cs.isEmpty && cs.all (!Text.isBlank ·) && !isInteger cs && !isBoolean cs && !isCharLiteral cs &&
    !isFloat cs && !isQuoted cs

/-- The operands that count as names are the words that are no literals. -/
theorem Operand.isPlainWord_of_name {text : String} (sort : ofString text = .name text) (filled : text ≠ "") :
    Lexeme.isPlainWord text.toList = true := by
  have nonempty : text.toList ≠ [] := by simpa using filled
  simp only [ofString, Lexeme.isText] at sort
  unfold Lexeme.isPlainWord
  grind

namespace Stmt

/-- The name to which a statement assigns. -/
def assigned? : Stmt → Option String
  | .assign target _ _ _ | .arrayLoad target _ _ => some target
  | _ => none

/-- The texts that stand as operands in a statement. -/
def operandTexts : Stmt → List String
  | .branch condition _ operand2 _ => condition :: operand2.toList
  | .assign _ operand1 _ operand2 => operand1.toList ++ operand2.toList
  | .arrayLoad _ _ index => [index]
  | .arrayStore _ index value => [index, value]
  | .zeroFill _ start stop => [start, stop]
  | .param operand | .print operand => [operand]
  | .ret value => value.toList
  | _ => []

/-- A text that counts as a name when it is fetched stands among the operands, but for blanks around it. -/
def Supplies (operands : List String) (text : String) : Prop :=
  Operand.ofString text = .name text ∧ ∃ operand ∈ operands, Text.stripped operand = text

theorem Supplies.of_ofString {operand text : String} {operands : List String} (member : operand ∈ operands)
    (sort : Operand.ofString operand = .name text) : Supplies operands text := by
  obtain rfl := Operand.eq_of_ofString_name sort
  exact ⟨sort, _, member, Operand.stripped_of_name sort⟩

theorem Supplies.of_fetching {fetched operands : List String} {text : String}
    (asked : .name text ∈ (Demand.fetching fetched).operands) (known : fetched ⊆ operands) :
    Supplies operands text := by
  obtain ⟨operand, member, sort⟩ := List.mem_map.mp asked
  obtain same := Operand.eq_of_ofString_name sort
  refine ⟨?_, operand, known member, same.symm⟩
  rw [Operand.ofFetched, ← same] at sort
  exact sort

theorem supplies_printed {symbols : SymbolTable} {value text : String}
    (asked : .name text ∈ printed symbols value) : Supplies [value] text := by
  have fetched : .name text ∈ (Demand.fetching [value]).operands → Supplies [value] text :=
    fun asked => .of_fetching asked (List.Subset.refl _)
  unfold printed at asked
  split at asked
  · simp at asked
  · split at asked
    · exact fetched asked
    · unfold argued at asked
      split at asked
      next found sort =>
        split at asked
        · cases asked
        · obtain rfl : text = found := by simpa using asked
          exact .of_ofString (List.mem_singleton_self _) sort
      next => exact fetched asked

theorem given_subset (operand : Option String) : (given operand).toList ⊆ operand.toList := by
  cases present : given operand with
  | none => simp
  | some text =>
    rw [eq_of_given present]
    exact List.Subset.refl _

/-- The names that a statement fetches are operands of its own, or arguments that it takes out of the
    queue. -/
theorem supplies_demand {symbols : SymbolTable} {queue : List String} {s : Stmt} {text : String}
    (asked : .name text ∈ (s.demand symbols queue).operands) :
    Supplies (s.operandTexts ++ s.takes queue) text := by
  cases s with
  | branch condition target operand2 operator =>
    simp only [demand] at asked
    split at asked
    next symbol right _ present =>
      split at asked
      · exact .of_fetching asked (by simp [operandTexts, eq_of_given present])
      · cases asked
    next => exact .of_fetching asked (by simp [operandTexts])
  | assign target operand1 operator operand2 =>
    simp only [demand] at asked
    split at asked
    next symbol right =>
      split at asked
      · exact .of_fetching asked (by simp [operandTexts])
      · cases asked
    next symbol =>
      split at asked
      · exact .of_fetching asked (by simp [operandTexts])
      · cases asked
    next =>
      obtain ⟨operand, member, sort⟩ := List.mem_map.mp asked
      exact .of_ofString (List.mem_append_left _ (List.mem_append_left _ member)) sort
  | arrayLoad target array index => exact .of_fetching asked (by simp [operandTexts])
  | arrayStore array index value => exact .of_fetching asked (by simp [operandTexts])
  | zeroFill array start stop => exact .of_fetching asked (by simp [operandTexts])
  | call function count target rawCount => exact .of_fetching asked (by simp [takes])
  | ret value => exact .of_fetching asked (by simpa [operandTexts, takes] using given_subset value)
  | print value => exact supplies_printed asked
  | _ => cases asked

/-- Results go to registers in assignments only. -/
theorem assigned?_of_mem_targets {symbols : SymbolTable} {queue : List String} {s : Stmt} {text : String}
    (asked : text ∈ (s.demand symbols queue).targets) : s.assigned? = some text := by
  cases s with
  | branch condition target operand2 operator =>
    simp only [demand] at asked
    split at asked
    · split at asked <;> cases asked
    · cases asked
  | assign target operand1 operator operand2 =>
    have same : text = target := by
      simp only [demand] at asked
      split at asked
      · split at asked
        · simpa using asked
        · cases asked
      · split at asked
        · simpa using asked
        · cases asked
      · simpa using asked
    rw [same]
    rfl
  | arrayLoad target array index =>
    have same : text = target := by simpa [demand] using asked
    rw [same]
    rfl
  | _ => cases asked

end Stmt

/-! ## Passes -/

/-- A name that is fetched in a step of a pass stands as an operand in a statement of the program: an argument
    that a call takes was queued by a statement of its own. -/
theorem Chain.operand_of_name {config : Config} {program : Program} {steps : List TraceStep} {q : Pass}
    (chain : Chain (Pass.ready config program) steps q) {s : TraceStep} (taken : s ∈ steps) {text : String}
    (asked : .name text ∈ s.demand.operands) :
    Operand.ofString text = .name text ∧
      ∃ t ∈ steps, ∃ operand ∈ t.stmt.operandTexts, Text.stripped operand = text := by
  obtain ⟨sort, operand, member, same⟩ := Stmt.supplies_demand asked
  refine ⟨sort, ?_⟩
  rcases List.mem_append.mp member with own | queued
  · exact ⟨s, taken, operand, own, same⟩
  · obtain ⟨earlier, later, rfl⟩ := List.append_of_mem taken
    obtain ⟨before, -, -⟩ := chain.around
    have pending := (before.params_eq (Pass.ready_opens config program) [] rfl).1
    have inQueue : operand ∈ s.before.params := by
      revert queued
      cases s.stmt with
      | call => exact List.mem_of_mem_drop
      | _ => exact fun none => absurd none (List.not_mem_nil)
    rw [pending, List.nil_append] at inQueue
    obtain ⟨t, first, isParam⟩ := List.mem_map.mp (Stmt.mem_of_pending inQueue)
    refine ⟨t, List.mem_append_left _ first, operand, ?_, same⟩
    rw [isParam]
    exact List.mem_singleton_self _

/-- A text is bound to a register exactly if a statement asks for it, and then it is the target of an
    assignment, or one word that is no literal and stands as an operand, but for blanks around it. -/
theorem lowerLines_bound_texts {config : Config} {lines : List String} {listing : String} {p : Pass}
    (lowered : lowerLines config lines = (.ok listing, p)) :
    ∃ program, Program.ofLines lines = .ok program ∧
      (∀ text, text ∈ p.registers.names ↔
        ∃ s ∈ (traceProgram config program).1, text ∈ s.demand.targets ∨ .name text ∈ s.demand.operands) ∧
      ∀ text ∈ p.registers.names,
        (∃ l ∈ program, l.stmt.assigned? = some text) ∨
          Lexeme.isPlainWord text.toList = true ∧
            ∃ l ∈ program, ∃ operand ∈ l.stmt.operandTexts, Text.stripped operand = text := by
  cases read : Program.ofLines lines with
  | error fault =>
    rw [lowerLines, read] at lowered
    cases lowered
  | ok program =>
    rw [lowerLines, read] at lowered
    obtain ⟨q, ran, -, final⟩ := lowerProgram_iff.mp ⟨listing, lowered⟩
    have names : p.registers.names = q.registers.names := by rw [final]
    obtain ⟨chain, ofProgram⟩ := chain_traceFrom ran
    obtain ⟨meets, -⟩ := chain.meets
    have inProgram : ∀ s ∈ (traceProgram config program).1, s.line ∈ program :=
      fun s taken => ofProgram ▸ List.mem_map_of_mem taken
    have asked : ∀ text, text ∈ q.registers.names ↔
        text ∈ (Demand.ofSteps (traceProgram config program).1).names := by
      intro text
      rw [meets.bound]
      exact or_iff_right List.not_mem_nil
    refine ⟨program, rfl, fun text => ?_, fun text bound => ?_⟩
    · rw [names, asked, Demand.mem_names_ofSteps]
      simp only [Demand.mem_names]
    · rw [names, asked] at bound
      have filled : text ≠ "" := fun empty => meets.filled (empty ▸ bound)
      obtain ⟨s, taken, named⟩ := Demand.mem_names_ofSteps.mp bound
      rcases Demand.mem_names.mp named with target | operand
      · exact .inl ⟨s.line, inProgram s taken, Stmt.assigned?_of_mem_targets target⟩
      · obtain ⟨sort, t, taken', operand, member, same⟩ := chain.operand_of_name taken operand
        exact .inr ⟨Operand.isPlainWord_of_name sort filled, t.line, inProgram t taken', operand, member, same⟩

/-- An argument that is no identifier. -/
def passesCry : List String :=
  ["param  hello! ", "x = call f, 1", "print x"]

theorem passesCry_bound_texts :
    ∃ listing p program, lowerLines (Config.standard false) passesCry = (.ok listing, p) ∧
      Program.ofLines passesCry = .ok program ∧ p.registers.names = ["hello!"] ∧
      ∃ l ∈ program, ∃ operand ∈ l.stmt.operandTexts, Text.stripped operand = "hello!" := by
  have runs : (lowerLines (Config.standard false) passesCry).1.isOk = true ∧
      (lowerLines (Config.standard false) passesCry).2.registers.names = ["hello!"] := by
    decide +kernel
  have unassigned : (Program.ofLines passesCry).toOption.all
      (·.all fun l => l.stmt.assigned? != some "hello!") = true := by
    decide +kernel
  cases lowered : lowerLines (Config.standard false) passesCry with
  | mk result p =>
    rw [lowered] at runs
    cases result with
    | error => cases runs.1
    | ok listing =>
      obtain ⟨program, read, -, classes⟩ := lowerLines_bound_texts lowered
      have names : p.registers.names = ["hello!"] := runs.2
      refine ⟨listing, p, program, rfl, read, names, ?_⟩
      rcases classes "hello!" (by simp [names]) with ⟨l, member, assigned⟩ | ⟨-, operand⟩
      · rw [read] at unassigned
        have other := List.all_eq_true.mp unassigned l member
        simp [assigned] at other
      · exact operand

/-- A text that is no identifier, and to which nothing is assigned, gets a register without a diagnostic. -/
theorem sum_is_bound :
    (lowerLines (Config.standard false) ["x = a+b"]).1.isOk = true ∧
      (lowerLines (Config.standard false) ["x = a+b"]).2.registers.names = ["x", "a+b"] ∧
      (lowerLines (Config.standard false) ["x = a+b"]).2.diagnostics = [] ∧
      Lexeme.isIdentifier "a+b".toList = false ∧
      (Program.ofLines ["x = a+b"]).toOption.map (·.map (·.stmt.assigned?)) = some [some "x"] := by
  decide +kernel

end MipsLowering
