import MipsLowering.Proofs.Operands
import MipsLowering.Proofs.StatementCode

/-! # What statements ask of the tables

The code of a statement asks for registers of names, for literals of the pool, and for the addresses of
arrays.  `Stmt.demand` lists what it asks for, and `Meets` says of two states of a pass that the demand was
met on the way from one to the other: the names in it and no others have got registers, every label that the
code refers to belongs to a cell, to a literal in the demand or to an array in it, and every literal in the
demand is loaded. -/

namespace MipsLowering

-- The class of an operand is only used through the theorems about it.
seal Operand.ofString

/-! ## Operands and labels -/

/-- The label in the data section to which an operation refers.  Of an operation that is not known the last
    operand may be one. -/
def Op.symbol? : Op → Option String
  | .la _ label | .load _ _ (.label label) | .store _ _ (.label label) => some label
  | .other _ operands => operands.getLast?.join
  | _ => none

namespace Operand

/-- The class under which an operand is fetched: the blanks around it do not count. -/
def ofFetched (text : String) : Operand :=
  ofString (Text.stripped text)

/-- The literal of the pool that an operand is. -/
def pooled? : Operand → Option (LiteralKind × String)
  | .float value => some (.float, value)
  | .text value => some (.string, value)
  | _ => none

/-- A name has no blanks around it. -/
theorem stripped_of_name {text found : String} (sort : ofString text = .name found) :
    Text.stripped text = text := by
  have solid : ∀ c ∈ text.toList, Text.isBlank c = false := by
    simp only [ofString, Lexeme.isText] at sort
    grind
  rw [Text.stripped, Text.strip_of_solid solid, String.ofList_toList]

theorem ofFetched_of_name {text found : String} (sort : ofString text = .name found) :
    ofFetched text = .name found := by
  rw [ofFetched, stripped_of_name sort, sort]

end Operand

/-- A name is fetched into its own register. -/
theorem Tables.fetch_of_ofFetched {t : Tables} {operand name : String} (sort : Operand.ofFetched operand = .name name)
    (wanted : Option Register) : t.fetch operand wanted = (t.register name, t.load name (t.register name)) := by
  show t.fetchAs _ (Operand.ofFetched operand) = _
  rw [sort]
  rfl

/-- The operation that brings a literal of the pool into a register: the content of a float, the address of a
    text. -/
def LiteralKind.load (kind : LiteralKind) (dest : Register) (label : String) : Op :=
  match kind with
  | .float => .load .word dest (.label label)
  | .string => .la dest label

theorem BinaryOp.symbol?_code (o : BinaryOp) (dest left right : Register) :
    ∀ i ∈ o.code dest left right, i.op.symbol? = none := by
  cases o <;> simp [BinaryOp.code, aluCode, flipCode, Op.symbol?]

theorem UnaryOp.symbol?_code (o : UnaryOp) (dest source : Register) :
    ∀ i ∈ o.code dest source, i.op.symbol? = none := by
  cases o <;> simp [UnaryOp.code, aluCode, Op.symbol?]

/-! ## Demands -/

/-- What code asks of the tables. -/
structure Demand where
  /-- The names that get a register for a result. -/
  targets : List String := []
  /-- The arrays whose address is taken to reach an element. -/
  arrays : List String := []
  /-- The operands that are fetched. -/
  operands : List Operand := []

namespace Demand

instance : Append Demand where
  append d e := ⟨d.targets ++ e.targets, d.arrays ++ e.arrays, d.operands ++ e.operands⟩

/-- The demand of code that fetches operands. -/
def fetching (operands : List String) : Demand where
  operands := operands.map .ofFetched

/-- The names that a demand binds to registers. -/
def names (d : Demand) : List String :=
  d.targets ++ d.operands.flatMap Operand.names

/-- The literals that a demand takes from the pool. -/
def literals (d : Demand) : List (LiteralKind × String) :=
  d.operands.filterMap Operand.pooled?

variable {d e : Demand}

theorem mem_names {name : String} : name ∈ d.names ↔ name ∈ d.targets ∨ .name name ∈ d.operands := by
  have named : ∀ operand : Operand, name ∈ operand.names ↔ operand = .name name := by
    intro operand
    cases operand <;> simp [Operand.names, eq_comm]
  simp only [names, List.mem_append, List.mem_flatMap, named, exists_eq_right]

@[simp] theorem mem_names_append {name : String} : name ∈ (d ++ e).names ↔ name ∈ d.names ∨ name ∈ e.names := by
  show name ∈ (d.targets ++ e.targets) ++ (d.operands ++ e.operands).flatMap Operand.names ↔ _
  simp only [names, List.flatMap_append, List.mem_append]
  exact or_or_or_comm

@[simp] theorem literals_append : (d ++ e).literals = d.literals ++ e.literals :=
  List.filterMap_append

@[simp] theorem targets_append : (d ++ e).targets = d.targets ++ e.targets :=
  rfl

@[simp] theorem arrays_append : (d ++ e).arrays = d.arrays ++ e.arrays :=
  rfl

@[simp] theorem targets_fetching (operands : List String) : (fetching operands).targets = [] :=
  rfl

end Demand

/-- The operands that are fetched into the argument register.  A scalar that has a cell is loaded from there
    and not fetched. -/
def Stmt.argued (symbols : SymbolTable) (value : String) : List Operand :=
  match Operand.ofString value with
  | .name found =>
    match (symbols.lookup? found).filter fun s => s.inMemory && !s.isArray with
    | some _ => []
    | none => [.name found]
  | _ => [.ofFetched value]

/-- The operands that printing fetches.  A word that names nothing is a text. -/
def Stmt.printed (symbols : SymbolTable) (value : String) : List Operand :=
  if isVariableName value && !symbols.contains value then [.text value]
  else
    match symbols.operandType value with
    | .float => [.ofFetched value]
    | _ => argued symbols value

/-- What a statement asks for, if these symbols are known and these arguments are queued.  A statement whose
    operator has no code asks for nothing, and an operand that is copied keeps its blanks. -/
def Stmt.demand (symbols : SymbolTable) (queue : List String) : Stmt → Demand
  | .branch condition _ operand2 operator =>
    match given operator, given operand2 with
    | some symbol, some right =>
      if (BinaryOp.ofSymbol? symbol).isSome then .fetching [condition, right] else {}
    | _, _ => .fetching [condition]
  | .assign target operand1 operator operand2 =>
    match operator, operand2 with
    | some symbol, some right =>
      if (BinaryOp.ofSymbol? symbol).isSome then
        { targets := [target] } ++ .fetching (operand1.toList ++ [right])
      else {}
    | some symbol, none =>
      if (UnaryOp.ofSymbol? symbol).isSome then { targets := [target] } ++ .fetching operand1.toList else {}
    | none, _ => { targets := [target], operands := operand1.toList.map .ofString }
  | .arrayLoad target array index => { targets := [target], arrays := [array] } ++ .fetching [index]
  | .arrayStore array index value => { arrays := [array] } ++ .fetching [index, value]
  | .zeroFill array start stop => { arrays := [array] } ++ .fetching [start, stop]
  | .call _ count _ _ => .fetching (Tables.pushed queue count)
  | .ret value => .fetching (given value).toList
  | .print value => { operands := printed symbols value }
  | _ => {}

/-! ## Meeting a demand -/

/-- Code that refers only to cells, to literals in the demand, and to arrays in it by the address register,
    and that loads every literal in the demand. -/
structure Pass.Serves (q : Pass) (d : Demand) (nodes : List Node) : Prop where
  refers : ∀ i, .instr i ∈ nodes → ∀ label, i.op.symbol? = some label →
    q.symbols.isInMemory label = true ∨
      (∃ literal ∈ d.literals, ∃ r, q.data.literalLabel? literal.1 literal.2 = some label ∧
        i.op = literal.1.load r label) ∨
      label ∈ d.arrays ∧ i.op = .la q.config.addressRegister label
  loads : ∀ literal ∈ d.literals, ∃ i r label, .instr i ∈ nodes ∧
    q.data.literalLabel? literal.1 literal.2 = some label ∧ i.op = literal.1.load r label

/-- On the way from `p` to `q` a demand is met. -/
structure Meets (p q : Pass) (d : Demand) : Prop where
  config : q.config = p.config
  bound : ∀ name, name ∈ q.registers.names ↔ name ∈ p.registers.names ∨ name ∈ d.names
  filled : "" ∉ d.names
  literals : p.data.literals <+: q.data.literals
  cells : ∀ name, p.symbols.isInMemory name = true → q.symbols.isInMemory name = true
  text : ∃ nodes, q.text = p.text ++ nodes ∧ q.Serves d nodes

namespace Pass.Serves

variable {q : Pass} {d e : Demand} {first second : List Node}

theorem append (early : q.Serves d first) (late : q.Serves e second) :
    q.Serves (d ++ e) (first ++ second) where
  refers i member label refers := by
    rw [Demand.literals_append, Demand.arrays_append]
    rcases List.mem_append.mp member with member | member
    · rcases early.refers i member label refers with cell | ⟨literal, asked, rest⟩ | ⟨asked, same⟩
      · exact .inl cell
      · exact .inr (.inl ⟨literal, List.mem_append_left _ asked, rest⟩)
      · exact .inr (.inr ⟨List.mem_append_left _ asked, same⟩)
    · rcases late.refers i member label refers with cell | ⟨literal, asked, rest⟩ | ⟨asked, same⟩
      · exact .inl cell
      · exact .inr (.inl ⟨literal, List.mem_append_right _ asked, rest⟩)
      · exact .inr (.inr ⟨List.mem_append_right _ asked, same⟩)
  loads literal asked := by
    rw [Demand.literals_append] at asked
    rcases List.mem_append.mp asked with asked | asked
    · obtain ⟨i, dest, label, member, rest⟩ := early.loads literal asked
      exact ⟨i, dest, label, List.mem_append_left _ member, rest⟩
    · obtain ⟨i, dest, label, member, rest⟩ := late.loads literal asked
      exact ⟨i, dest, label, List.mem_append_right _ member, rest⟩

/-- Code that loads the one literal that is asked for. -/
theorem literal {operand : Operand} {kind : LiteralKind} {value label : String} {dest : Register}
    {comment : Option String} (pooled : operand.pooled? = some (kind, value))
    (found : q.data.literalLabel? kind value = some label) :
    q.Serves { operands := [operand] } [.instr ⟨kind.load dest label, comment⟩] := by
  have asked : ({ operands := [operand] } : Demand).literals = [(kind, value)] :=
    List.filterMap_cons_some pooled
  constructor
  · intro i member other refers
    obtain rfl : i = ⟨kind.load dest label, comment⟩ := by simpa using member
    obtain rfl : label = other := by
      cases kind <;> exact Option.some.inj refers
    exact .inr (.inl ⟨(kind, value), by simp [asked], dest, found, rfl⟩)
  · intro literal member
    obtain rfl : literal = (kind, value) := by simpa [asked] using member
    exact ⟨_, dest, label, List.mem_singleton.mpr rfl, found, rfl⟩

end Pass.Serves

namespace Meets

variable {p q r : Pass} {d e : Demand} {nodes : List Node}

/-- What served a demand still serves it when the tables have grown. -/
theorem serves (later : Meets q r e) (served : q.Serves d nodes) : r.Serves d nodes where
  refers i member label refers := by
    rcases served.refers i member label refers with cell | ⟨literal, asked, dest, found, same⟩ | ⟨asked, same⟩
    · exact .inl (later.cells label cell)
    · exact .inr (.inl ⟨literal, asked, dest, DataSection.literalLabel?_of_prefix later.literals found, same⟩)
    · exact .inr (.inr ⟨asked, by rw [later.config, same]⟩)
  loads literal asked := by
    obtain ⟨i, dest, label, member, found, same⟩ := served.loads literal asked
    exact ⟨i, dest, label, member, DataSection.literalLabel?_of_prefix later.literals found, same⟩

theorem trans (early : Meets p q d) (late : Meets q r e) : Meets p r (d ++ e) where
  config := late.config.trans early.config
  bound name := by rw [late.bound, early.bound, Demand.mem_names_append, or_assoc]
  filled := by
    rw [Demand.mem_names_append, not_or]
    exact ⟨early.filled, late.filled⟩
  literals := early.literals.trans late.literals
  cells name cell := late.cells name (early.cells name cell)
  text := by
    obtain ⟨first, laid, served⟩ := early.text
    obtain ⟨second, laid', served'⟩ := late.text
    exact ⟨first ++ second, by rw [laid', laid, List.append_assoc], (late.serves served).append served'⟩

theorem congr (meets : Meets p q d) (same : e = d) : Meets p q e :=
  same ▸ meets

/-- What comes behind may ask for nothing. -/
theorem andNothing (early : Meets p q d) (late : Meets q r {}) : Meets p r d :=
  (early.trans late).congr (by cases d; show _ = Demand.mk _ _ _; simp)

/-- What comes before may ask for nothing. -/
theorem afterNothing (early : Meets p q {}) (late : Meets q r e) : Meets p r e :=
  early.trans late

/-- A stretch in which the symbols stay as they are. -/
theorem of_lays {names : List String} (lays : Lays p q nodes names)
    (named : ∀ name, name ∈ names ↔ name ∈ d.names) (filled : "" ∉ names) (served : q.Serves d nodes) :
    Meets p q d where
  config := lays.config
  bound name := by rw [lays.bound, named]
  filled := by rwa [← named]
  literals := lays.literals
  cells name cell := by rwa [lays.symbols]
  text := ⟨nodes, lays.text, served⟩

/-- Code that refers to cells only asks for nothing. -/
theorem of_cells (lays : Lays p q nodes [])
    (cells : ∀ i, .instr i ∈ nodes → ∀ label, i.op.symbol? = some label →
      q.symbols.isInMemory label = true) : Meets p q {} :=
  of_lays lays (fun _ => Iff.rfl) (by simp) ⟨fun i member label refers => .inl (cells i member label refers), by
    simp [Demand.literals]⟩

/-- A stretch without instructions in which no name gets a register and no literal a label. -/
theorem quiet (config : q.config = p.config) (registers : q.registers = p.registers)
    (literals : q.data.literals = p.data.literals)
    (cells : ∀ name, p.symbols.isInMemory name = true → q.symbols.isInMemory name = true)
    (text : q.text = p.text ++ nodes) (silent : ∀ n ∈ nodes, n.isInstr = false) : Meets p q {} where
  config := config
  bound name := by simp [registers, Demand.names]
  filled := by simp [Demand.names]
  literals := literals ▸ List.prefix_rfl
  cells := cells
  text := ⟨nodes, text, fun i member => absurd (silent _ member) (by simp [Node.isInstr]), by
    simp [Demand.literals]⟩

theorem refl (p : Pass) : Meets p p {} :=
  quiet rfl rfl rfl (fun _ => id) (List.append_nil _).symm (by simp)

end Meets

namespace Emit

variable {p q : Pass}

theorem meets_code {is : List Instr} (ran : (code is).run p = .ok () q)
    (silent : ∀ i ∈ is, i.op.symbol? = none) : Meets p q {} := by
  refine .of_cells (lays_code ran) fun i member label refers => ?_
  rw [silent i (by simpa using member)] at refers
  cases refers

theorem meets_label {name : String} (ran : (label name).run p = .ok () q) : Meets p q {} := by
  simp only [label, run_get_bind] at ran
  split at ran
  · cases ran
    exact .quiet rfl rfl rfl (fun _ => id) rfl (by simp [Node.isInstr])
  · cases ran
    exact .quiet rfl rfl rfl (fun _ => id) rfl (by simp [Node.isInstr])

theorem meets_diagnose {d : Diagnostic} (ran : (diagnose d).run p = .ok () q) : Meets p q {} :=
  .of_cells (lays_diagnose ran) (by simp)

/-- What an action does to labels, arguments and records asks for nothing. -/
theorem meets_modify {f : Pass → Pass} (ran : (modify f : Emit Unit).run p = .ok () q)
    (same : ∀ p, (f p).config = p.config ∧ (f p).registers = p.registers ∧ (f p).data = p.data ∧
      (f p).symbols = p.symbols ∧ (f p).text = p.text) : Meets p q {} := by
  cases ran
  obtain ⟨config, registers, data, symbols, text⟩ := same p
  exact .quiet config registers (by rw [data]) (fun _ => by rw [symbols]; exact id)
    (text.trans (List.append_nil _).symm) (by simp)

/-- Recording an assigned name takes no cell away. -/
theorem meets_note {name : String} {type : ValueType} (ran : (note name type).run p = .ok () q) :
    Meets p q {} := by
  cases ran
  refine .quiet rfl rfl rfl (fun other cell => ?_) (List.append_nil _).symm (by simp)
  simpa only [SymbolTable.isInMemory_eq_cell?, SymbolTable.cell?_note] using cell

/-- Nor does a declaration. -/
theorem meets_declared {name : String} {make : Option Symbol → Symbol}
    (named : ∀ t : SymbolTable, (make (t.lookup? name)).name = name)
    (ran : (declared (·.giveCell name make)).run p = .ok () q) : Meets p q {} := by
  obtain rfl := run_declared_ok ran
  refine .quiet rfl rfl ?_ (fun other cell => ?_) (List.append_nil _).symm (by simp)
  · cases (p.symbols.giveCell name make).2 <;> rfl
  · have kept : ¬(other = name ∧ p.symbols.isInMemory name = false) := by
      rintro ⟨rfl, none⟩
      rw [none] at cell
      cases cell
    show (p.symbols.giveCell name make).1.isInMemory other = true
    rw [SymbolTable.isInMemory, SymbolTable.lookup?_giveCell (named _), if_neg kept]
    exact cell

theorem meets_declare {name : String} {type : ValueType} (ran : (declare name type).run p = .ok () q) :
    Meets p q {} :=
  meets_declared (fun _ => SymbolTable.name_declaredEntry name type) ran

theorem meets_declareArray {name : String} {type : ValueType} {length : Int}
    (ran : (declareArray name type length).run p = .ok () q) : Meets p q {} :=
  meets_declared (fun _ => rfl) ran

theorem ne_empty_of_registerFor {name : String} {r : Register} (ran : (registerFor name).run p = .ok r q) :
    name ≠ "" := by
  rintro rfl
  cases ran

theorem meets_registerFor {name : String} {r : Register} (ran : (registerFor name).run p = .ok r q) :
    Meets p q { targets := [name] } :=
  .of_lays (lays_registerFor ran).1 (by simp [Demand.names]) (by simpa using (ne_empty_of_registerFor ran).symm)
    ⟨by simp, by simp [Demand.literals]⟩

/-- The code that brings a name into its register refers to the cell of the name at most. -/
theorem loadCode_symbol? {symbols : SymbolTable} {name : String} {register : Register} :
    ∀ i ∈ loadCode (symbols.lookup? name) name register, ∀ label, i.op.symbol? = some label →
      symbols.isInMemory label = true := by
  intro i member label refers
  unfold loadCode at member
  cases entry : symbols.lookup? name with
  | none => simp [entry] at member
  | some s =>
    cases cell : s.inMemory with
    | false => simp [entry, cell] at member
    | true =>
      have same : name = label := by
        cases array : s.isArray <;> simp [entry, cell, array] at member <;> subst member <;>
          exact Option.some.inj refers
      rw [← same, SymbolTable.isInMemory, entry]
      exact cell

theorem meets_materialize {operand : String} {wanted : Option Register} {r : Register}
    (ran : (materialize operand wanted).run p = .ok r q) : Meets p q (.fetching [operand]) := by
  obtain ⟨⟨register, is⟩, p₁, fetched, ran⟩ := run_bind_ok.mp ran
  obtain ⟨_, p₂, coded, done⟩ := run_bind_ok.mp ran
  cases done
  have laysCode := lays_code coded
  simp only [fetch, run_get_bind] at fetched
  show Meets p q { operands := [.ofFetched operand] }
  unfold Operand.ofFetched
  cases sort : Operand.ofString (Text.stripped operand) with
  | immediate value =>
    simp only [sort] at fetched
    cases fetched
    exact .of_lays laysCode (by simp [Demand.names, Operand.names]) (by simp)
      ⟨by simp [Op.symbol?], by simp [Demand.literals, Operand.pooled?]⟩
  | float value | text value =>
    simp only [sort] at fetched
    obtain ⟨label, p₂, interned, done⟩ := run_bind_ok.mp fetched
    cases done
    obtain ⟨lays, found⟩ := lays_intern interned
    exact .of_lays (lays.andCode laysCode) (by simp [Demand.names, Operand.names]) (by simp)
      (.literal rfl (DataSection.literalLabel?_of_prefix laysCode.literals found))
  | name found =>
    simp only [sort] at fetched
    obtain ⟨register, p₂, got, done⟩ := run_bind_ok.mp fetched
    cases done
    refine .of_lays ((lays_registerFor got).1.andCode laysCode) (by simp [Demand.names, Operand.names])
      (by simpa using (ne_empty_of_registerFor got).symm)
      ⟨fun i member label refers => .inl ?_, by simp [Demand.literals, Operand.pooled?]⟩
    -- The operations of a load refer to the name only, and only if it has a cell.
    rw [laysCode.symbols]
    exact loadCode_symbol? i (by simpa using member) label refers

/-- The address of an array may be asked for before it has a cell, or though it gets none. -/
theorem meets_base {array comment : String}
    (ran : (opNote (.la p.config.addressRegister array) comment).run p = .ok () q) :
    Meets p q { arrays := [array] } := by
  have lays := lays_code ran
  refine .of_lays lays (by simp [Demand.names]) (by simp)
    ⟨fun i member label refers => ?_, by simp [Demand.literals]⟩
  obtain rfl : i = ⟨.la p.config.addressRegister array, some comment⟩ := by simpa using member
  obtain rfl : array = label := Option.some.inj refers
  exact .inr (.inr ⟨List.mem_singleton_self _, by rw [lays.config]⟩)

/-- A copy between registers, unless they are the same. -/
theorem meets_move {dest source : Register}
    (ran : (if (source != dest) = true then op (.move dest source) else pure ()).run p = .ok () q) :
    Meets p q {} := by
  split at ran
  · exact meets_code ran (by simp [Op.symbol?])
  · cases ran
    exact .refl p

/-- A register is written to a cell only. -/
theorem meets_storeBack {name : String} {register : Register}
    (ran : (storeBack name register).run p = .ok () q) : Meets p q {} := by
  rcases run_storeBack_ok ran with ⟨-, rfl⟩ | ⟨s, cell, ⟨-, ran⟩ | ⟨-, ran⟩⟩
  · exact .refl q
  · exact meets_diagnose ran
  · have lays := lays_code ran
    refine .of_cells lays fun i member label refers => ?_
    obtain rfl : name = label := by
      obtain rfl : i = _ := by simpa using member
      exact Option.some.inj refers
    rw [lays.symbols, SymbolTable.isInMemory_eq_cell?, cell]
    rfl

end Emit

namespace Lower

open Emit

variable {p q : Pass}

/-! ## Statements -/

theorem meets_binary {target symbol right : String} {left : Option String}
    (symbols : SymbolTable) (queue : List String) (ran : (binary target left symbol right).run p = .ok () q) :
    Meets p q ((Stmt.assign target left (some symbol) (some right)).demand symbols queue) := by
  unfold binary at ran
  cases known : BinaryOp.ofSymbol? symbol with
  | none =>
    simp only [known] at ran
    simpa [Stmt.demand, known] using meets_diagnose ran
  | some o =>
    simp only [known] at ran
    obtain ⟨_, p₁, noted, ran⟩ := run_bind_ok.mp ran
    obtain ⟨dest, p₂, got, ran⟩ := run_bind_ok.mp ran
    obtain ⟨text, p₃, present, rest⟩ := run_bind_ok.mp ran
    obtain ⟨rfl, rfl⟩ := run_operand present
    rw [run_get_bind] at rest
    obtain ⟨first, p₄, fetched, rest⟩ := run_bind_ok.mp rest
    rw [run_get_bind] at rest
    obtain ⟨second, p₅, fetched', rest⟩ := run_bind_ok.mp rest
    obtain ⟨_, p₆, coded, stored⟩ := run_bind_ok.mp rest
    have asked := (meets_materialize fetched).trans (meets_materialize fetched')
    have finished := (meets_code coded (o.symbol?_code _ _ _)).andNothing (meets_storeBack stored)
    have meets := ((meets_note noted).afterNothing (meets_registerFor got)).trans asked
    exact (meets.andNothing finished).congr (by simp [Stmt.demand, known]; rfl)

theorem meets_unary {target symbol : String} {source : Option String}
    (symbols : SymbolTable) (queue : List String) (ran : (unary target symbol source).run p = .ok () q) :
    Meets p q ((Stmt.assign target source (some symbol) none).demand symbols queue) := by
  unfold unary at ran
  cases known : UnaryOp.ofSymbol? symbol with
  | none =>
    simp only [known] at ran
    simpa [Stmt.demand, known] using meets_diagnose ran
  | some o =>
    simp only [known] at ran
    obtain ⟨_, p₁, noted, ran⟩ := run_bind_ok.mp ran
    obtain ⟨dest, p₂, got, ran⟩ := run_bind_ok.mp ran
    obtain ⟨text, p₃, present, rest⟩ := run_bind_ok.mp ran
    obtain ⟨rfl, rfl⟩ := run_operand present
    obtain ⟨register, p₄, fetched, rest⟩ := run_bind_ok.mp rest
    obtain ⟨_, p₅, coded, stored⟩ := run_bind_ok.mp rest
    have finished := (meets_code coded (o.symbol?_code _ _)).andNothing (meets_storeBack stored)
    have meets := ((meets_note noted).afterNothing (meets_registerFor got)).trans (meets_materialize fetched)
    exact (meets.andNothing finished).congr (by simp [Stmt.demand, known])

theorem meets_loadInto {dest : Register} {source : String}
    (ran : (loadInto dest source).run p = .ok () q) : Meets p q { operands := [.ofString source] } := by
  unfold loadInto at ran
  cases sort : Operand.ofString source with
  | immediate value =>
    simp only [sort] at ran
    exact .of_lays (lays_code ran) (by simp [Demand.names, Operand.names]) (by simp)
      ⟨by simp [Op.symbol?], by simp [Demand.literals, Operand.pooled?]⟩
  | float value | text value =>
    simp only [sort] at ran
    obtain ⟨label, p₁, interned, coded⟩ := run_bind_ok.mp ran
    obtain ⟨lays, found⟩ := lays_intern interned
    have laysCode := lays_code coded
    exact .of_lays (lays.andCode laysCode) (by simp [Demand.names, Operand.names]) (by simp)
      (.literal rfl (DataSection.literalLabel?_of_prefix laysCode.literals found))
  | name found =>
    obtain rfl := Operand.eq_of_ofString_name sort
    simp only [sort] at ran
    obtain ⟨register, p₁, fetched, ran⟩ := run_bind_ok.mp ran
    exact ((meets_materialize fetched).andNothing (meets_move ran)).congr
      (by simp [Demand.fetching, Operand.ofFetched_of_name sort])

theorem meets_copy {target : String} {source operand2 : Option String}
    (symbols : SymbolTable) (queue : List String) (ran : (copy target source).run p = .ok () q) :
    Meets p q ((Stmt.assign target source none operand2).demand symbols queue) := by
  unfold copy at ran
  rw [run_get_bind] at ran
  obtain ⟨_, p₁, noted, ran⟩ := run_bind_ok.mp ran
  obtain ⟨dest, p₂, got, ran⟩ := run_bind_ok.mp ran
  obtain ⟨text, p₃, present, rest⟩ := run_bind_ok.mp ran
  obtain ⟨rfl, rfl⟩ := run_operand present
  obtain ⟨_, p₄, loaded, stored⟩ := run_bind_ok.mp rest
  have meets := ((meets_note noted).afterNothing (meets_registerFor got)).trans (meets_loadInto loaded)
  exact meets.andNothing (meets_storeBack stored)

theorem meets_assign {target : String} {operand1 operator operand2 : Option String}
    (symbols : SymbolTable) (queue : List String)
    (ran : (assign target operand1 operator operand2).run p = .ok () q) :
    Meets p q ((Stmt.assign target operand1 operator operand2).demand symbols queue) := by
  cases operator with
  | none => exact meets_copy symbols queue ran
  | some symbol =>
    cases operand2 with
    | none => exact meets_unary symbols queue ran
    | some right => exact meets_binary symbols queue ran

theorem meets_branch {condition target : String} {operand2 operator : Option String}
    (symbols : SymbolTable) (queue : List String)
    (ran : (branch condition target operand2 operator).run p = .ok () q) :
    Meets p q ((Stmt.branch condition target operand2 operator).demand symbols queue) := by
  obtain ⟨_, p₁, noted, ran⟩ := run_bind_ok.mp ran
  have referred := meets_modify noted fun _ => ⟨rfl, rfl, rfl, rfl, rfl⟩
  -- Without an operator or without a second operand, only the condition is asked for.
  have simple : ∀ r p₂, (materialize condition (some p₁.config.scratch0)).run p₁ = .ok r p₂ →
      (branchOn r target).run p₂ = .ok () q → Meets p q (.fetching [condition]) := by
    intro r p₂ fetched coded
    exact (referred.afterNothing (meets_materialize fetched)).andNothing (meets_code coded (by simp [Op.symbol?]))
  cases hasOperator : Stmt.given operator with
  | none =>
    simp only [hasOperator, run_get_bind] at ran
    obtain ⟨r, p₂, fetched, coded⟩ := run_bind_ok.mp ran
    exact (simple r p₂ fetched coded).congr (by simp [Stmt.demand, hasOperator])
  | some symbol =>
    cases hasRight : Stmt.given operand2 with
    | none =>
      simp only [hasOperator, hasRight, run_get_bind] at ran
      obtain ⟨r, p₂, fetched, coded⟩ := run_bind_ok.mp ran
      exact (simple r p₂ fetched coded).congr (by simp [Stmt.demand, hasOperator, hasRight])
    | some right =>
      simp only [hasOperator, hasRight] at ran
      obtain ⟨outcome, p₂, related, ran⟩ := run_bind_ok.mp ran
      cases known : BinaryOp.ofSymbol? symbol with
      | none =>
        simp only [relation, known] at related
        obtain ⟨_, p₃, diagnosed, done⟩ := run_bind_ok.mp related
        cases done
        cases ran
        exact (referred.afterNothing (meets_diagnose diagnosed)).congr
          (by simp [Stmt.demand, hasOperator, hasRight, known])
      | some o =>
        simp only [relation, known, run_get_bind] at related
        obtain ⟨first, p₃, fetched, related⟩ := run_bind_ok.mp related
        obtain ⟨second, p₄, fetched', related⟩ := run_bind_ok.mp related
        obtain ⟨_, p₅, coded, done⟩ := run_bind_ok.mp related
        cases done
        have asked := (meets_materialize fetched).trans (meets_materialize fetched')
        have finished := (meets_code coded (o.symbol?_code _ _ _)).andNothing
          (meets_code ran (by simp [Op.symbol?]))
        exact ((referred.afterNothing asked).andNothing finished).congr
          (by simp [Stmt.demand, hasOperator, hasRight, known]; rfl)

theorem meets_loadArgument {operand : String} (ran : (loadArgument operand).run p = .ok () q) :
    Meets p q { operands := Stmt.argued p.symbols operand } := by
  unfold loadArgument at ran
  unfold Stmt.argued
  cases sort : Operand.ofString operand with
  | immediate value =>
    simp only [sort] at ran
    have same : Operand.ofFetched operand = .immediate value := by
      rw [Operand.ofFetched, stripped_of_immediate sort, sort]
    exact .of_lays (lays_code ran) (by simp [Demand.names, same, Operand.names]) (by simp)
      ⟨by simp [Op.symbol?], by simp [Demand.literals, same, Operand.pooled?]⟩
  | float | text =>
    simp only [sort] at ran
    obtain ⟨r, p₁, fetched, moved⟩ := run_bind_ok.mp ran
    exact (meets_materialize fetched).andNothing (meets_move moved)
  | name found =>
    obtain rfl := Operand.eq_of_ofString_name sort
    simp only [sort, run_get_bind] at ran
    cases cell : (p.symbols.lookup? found).filter fun s => s.inMemory && !s.isArray with
    | some s =>
      simp only [cell] at ran ⊢
      obtain ⟨entry, scalar⟩ := Option.filter_eq_some_iff.mp cell
      have lays := lays_code ran
      refine .of_cells lays fun i member label refers => ?_
      obtain rfl : found = label := by
        obtain rfl : i = _ := by simpa using member
        exact Option.some.inj refers
      rw [lays.symbols, SymbolTable.isInMemory, entry]
      exact (Bool.and_eq_true_iff.mp scalar).1
    | none =>
      simp only [cell] at ran ⊢
      obtain ⟨r, p₁, fetched, coded⟩ := run_bind_ok.mp ran
      have meets := (meets_materialize fetched).andNothing (meets_code coded (by simp [Op.symbol?]))
      exact meets.congr (by simp [Demand.fetching, Operand.ofFetched_of_name sort])

theorem meets_prepare {operand : String} {service : Service}
    (ran : (prepare operand).run p = .ok service q) :
    Meets p q { operands := Stmt.printed p.symbols operand } := by
  simp only [prepare, run_get_bind] at ran
  unfold Stmt.printed
  cases word : isVariableName operand && !p.symbols.contains operand with
  | true =>
    simp only [word, if_true] at ran
    obtain ⟨label, p₁, interned, ran⟩ := run_bind_ok.mp ran
    obtain ⟨_, p₂, coded, done⟩ := run_bind_ok.mp ran
    cases done
    obtain ⟨lays, found⟩ := lays_intern interned
    have laysCode := lays_code coded
    exact .of_lays (lays.andCode laysCode) (by simp [Demand.names, Operand.names]) (by simp)
      (.literal rfl (DataSection.literalLabel?_of_prefix laysCode.literals found))
  | false =>
    simp only [word, Bool.false_eq_true, if_false] at ran
    cases typed : p.symbols.operandType operand with
    | float =>
      simp only [typed, run_get_bind] at ran
      obtain ⟨r, p₁, fetched, ran⟩ := run_bind_ok.mp ran
      obtain ⟨_, p₂, coded, done⟩ := run_bind_ok.mp ran
      cases done
      exact (meets_materialize fetched).andNothing (meets_code coded (by simp [Op.symbol?]))
    | _ =>
      simp only [typed] at ran
      obtain ⟨_, p₁, loaded, done⟩ := run_bind_ok.mp ran
      cases done
      exact meets_loadArgument loaded

theorem meets_print {value : String} (queue : List String) (ran : (print value).run p = .ok () q) :
    Meets p q ((Stmt.print value).demand p.symbols queue) := by
  obtain ⟨service, p₁, prepared, ran⟩ := run_bind_ok.mp ran
  obtain ⟨_, p₂, selected, called⟩ := run_bind_ok.mp ran
  have finished := (meets_code selected (by simp [Op.symbol?])).andNothing
    (meets_code called (by simp [Op.symbol?]))
  exact (meets_prepare prepared).andNothing finished

theorem meets_read {target : String} (ran : (read target).run p = .ok () q) : Meets p q {} := by
  simp only [read, run_get_bind] at ran
  rw [run_ite_bind] at ran
  obtain ⟨_, p₁, given, ran⟩ := run_bind_ok.mp ran
  obtain ⟨_, p₂, selected, ran⟩ := run_bind_ok.mp ran
  obtain ⟨_, p₃, called, stored⟩ := run_bind_ok.mp ran
  have declared : Meets p p₁ {} := by
    split at given
    · exact meets_declare given
    · cases given
      exact .refl p
  have asked := (meets_code selected (by simp [Op.symbol?])).andNothing (meets_code called (by simp [Op.symbol?]))
  exact (declared.andNothing asked).andNothing (meets_storeBack stored)

/-- The address of an element is reached from the address of its array. -/
theorem meets_elementAddress {array index : String} {address : Register}
    (ran : (elementAddress array index).run p = .ok address q) :
    Meets p q ({ arrays := [array] } ++ .fetching [index]) := by
  simp only [elementAddress, run_get_bind] at ran
  obtain ⟨_, p₁, based, ran⟩ := run_bind_ok.mp ran
  obtain ⟨register, p₂, fetched, ran⟩ := run_bind_ok.mp ran
  obtain ⟨_, p₃, sized, ran⟩ := run_bind_ok.mp ran
  obtain ⟨_, p₄, scaled, ran⟩ := run_bind_ok.mp ran
  obtain ⟨_, p₅, added, done⟩ := run_bind_ok.mp ran
  cases done
  have finished := ((meets_code sized (by simp [Op.symbol?])).andNothing
    (meets_code scaled (by simp [Op.symbol?]))).andNothing (meets_code added (by simp [Op.symbol?]))
  exact ((meets_base based).trans (meets_materialize fetched)).andNothing finished

theorem meets_arrayStore {array index value : String} (symbols : SymbolTable) (queue : List String)
    (ran : (arrayStore array index value).run p = .ok () q) :
    Meets p q ((Stmt.arrayStore array index value).demand symbols queue) := by
  obtain ⟨address, p₁, addressed, ran⟩ := run_bind_ok.mp ran
  rw [run_get_bind] at ran
  obtain ⟨register, p₂, fetched, coded⟩ := run_bind_ok.mp ran
  rw [run_get_bind] at coded
  exact ((meets_elementAddress addressed).trans (meets_materialize fetched)).andNothing
    (meets_code coded (by simp [Op.symbol?]))

theorem meets_arrayLoad {target array index : String} (symbols : SymbolTable) (queue : List String)
    (ran : (arrayLoad target array index).run p = .ok () q) :
    Meets p q ((Stmt.arrayLoad target array index).demand symbols queue) := by
  simp only [arrayLoad, run_get_bind] at ran
  obtain ⟨_, p₁, noted, ran⟩ := run_bind_ok.mp ran
  obtain ⟨dest, p₂, got, ran⟩ := run_bind_ok.mp ran
  obtain ⟨address, p₃, addressed, ran⟩ := run_bind_ok.mp ran
  obtain ⟨_, p₄, coded, stored⟩ := run_bind_ok.mp ran
  have asked := ((meets_note noted).afterNothing (meets_registerFor got)).trans
    (meets_elementAddress addressed)
  have finished := (meets_code coded (by simp [Op.symbol?])).andNothing (meets_storeBack stored)
  exact asked.andNothing finished

/-- The loop of a fill reaches memory by the address register only. -/
theorem meets_fillLoop {config : Config} {array : String} {last : Register} {size : Int}
    (ran : (do
      let loop ← freshLabel "arr_pad" ["", "_end"]
      reference loop
      reference (loop ++ "_end")
      label loop
      op (.beq config.indexRegister last (loop ++ "_end"))
      op (.store ((← get).symbols.elementType array).width zeroRegister (.base config.addressRegister))
      op (.aluImm .addiu config.addressRegister config.addressRegister size)
      op (.aluImm .addiu config.indexRegister config.indexRegister 1)
      op (.j loop)
      label (loop ++ "_end") : Emit Unit).run p = .ok () q) : Meets p q {} := by
  obtain ⟨loop, p₁, made, ran⟩ := run_bind_ok.mp ran
  obtain ⟨_, p₂, referred, ran⟩ := run_bind_ok.mp ran
  obtain ⟨_, p₃, referred', ran⟩ := run_bind_ok.mp ran
  obtain ⟨_, p₄, labelled, ran⟩ := run_bind_ok.mp ran
  obtain ⟨_, p₅, tested, ran⟩ := run_bind_ok.mp ran
  rw [run_get_bind] at ran
  obtain ⟨_, p₆, stored, ran⟩ := run_bind_ok.mp ran
  obtain ⟨_, p₇, advanced, ran⟩ := run_bind_ok.mp ran
  obtain ⟨_, p₈, counted, ran⟩ := run_bind_ok.mp ran
  obtain ⟨_, p₉, jumped, labelled'⟩ := run_bind_ok.mp ran
  have named : Meets p p₁ {} := by
    cases made
    exact .quiet rfl rfl rfl (fun _ => id) (List.append_nil _).symm (by simp)
  -- Nothing of what follows refers to the data section, so no part of it asks for anything.
  have begins := ((named.andNothing (meets_modify referred fun _ => ⟨rfl, rfl, rfl, rfl, rfl⟩)).andNothing
    (meets_modify referred' fun _ => ⟨rfl, rfl, rfl, rfl, rfl⟩)).andNothing (meets_label labelled)
  have steps := ((meets_code tested (by simp [Op.symbol?])).andNothing
    (meets_code stored (by simp [Op.symbol?]))).andNothing (meets_code advanced (by simp [Op.symbol?]))
  have ends := ((meets_code counted (by simp [Op.symbol?])).andNothing
    (meets_code jumped (by simp [Op.symbol?]))).andNothing (meets_label labelled')
  exact (begins.andNothing steps).andNothing ends

theorem meets_zeroFill {array start stop : String} (symbols : SymbolTable) (queue : List String)
    (ran : (zeroFill array start stop).run p = .ok () q) :
    Meets p q ((Stmt.zeroFill array start stop).demand symbols queue) := by
  simp only [zeroFill, run_get_bind] at ran
  obtain ⟨_, p₁, based, ran⟩ := run_bind_ok.mp ran
  obtain ⟨first, p₂, fetched, ran⟩ := run_bind_ok.mp ran
  rw [run_ite_bind] at ran
  obtain ⟨_, p₃, moved, ran⟩ := run_bind_ok.mp ran
  obtain ⟨_, p₄, sized, ran⟩ := run_bind_ok.mp ran
  obtain ⟨_, p₅, scaled, ran⟩ := run_bind_ok.mp ran
  obtain ⟨_, p₆, added, ran⟩ := run_bind_ok.mp ran
  obtain ⟨last, p₇, fetched', ran⟩ := run_bind_ok.mp ran
  have began := ((meets_move moved).andNothing (meets_code sized (by simp [Op.symbol?]))).andNothing
    ((meets_code scaled (by simp [Op.symbol?])).andNothing (meets_code added (by simp [Op.symbol?])))
  have asked := (((meets_base based).trans (meets_materialize fetched)).andNothing began).trans
    (meets_materialize fetched')
  exact asked.andNothing (meets_fillLoop ran)

/-- The number of arguments is found without code. -/
theorem meets_argumentCount {function : String} {count : Option Int} {target rawCount : Option String}
    {n : Int} (ran : (argumentCount function count target rawCount).run p = .ok n q) : Meets p q {} := by
  simp only [argumentCount, run_get_bind] at ran
  cases count with
  | some given =>
    simp only at ran
    split at ran
    · obtain ⟨_, p₁, warned, done⟩ := run_bind_ok.mp ran
      cases done
      exact meets_modify warned fun _ => ⟨rfl, rfl, rfl, rfl, rfl⟩
    · cases ran
      exact .refl p
  | none =>
    cases rawCount with
    | none =>
      cases ran
      exact .refl p
    | some raw =>
      obtain ⟨_, p₁, diagnosed, done⟩ := run_bind_ok.mp ran
      cases done
      exact meets_diagnose diagnosed

theorem meets_pushAll {arguments : List String} (ran : (pushAll arguments).run p = .ok () q) :
    Meets p q (.fetching arguments) := by
  induction arguments generalizing p with
  | nil =>
    cases ran
    exact .refl _
  | cons argument rest ih =>
    simp only [pushAll, run_get_bind] at ran
    obtain ⟨register, p₁, fetched, ran⟩ := run_bind_ok.mp ran
    obtain ⟨_, p₂, coded, ran⟩ := run_bind_ok.mp ran
    have pushed := (meets_materialize fetched).andNothing
      (meets_code (run_push_ok.mp coded).2 (by simp [pushCode, Op.symbol?]))
    exact pushed.trans (ih ran)

theorem symbol?_popCode {count wordSize : Int} {is : List Instr} (size : popCode count wordSize = .ok is) :
    ∀ i ∈ is, i.op.symbol? = none := by
  rcases popCode_cases size with ⟨-, rfl⟩ | ⟨-, rfl⟩ <;> simp [Op.symbol?]

theorem meets_call {function : String} {count : Option Int} {target rawCount : Option String}
    (symbols : SymbolTable) (ran : (call function count target rawCount).run p = .ok () q) :
    Meets p q ((Stmt.call function count target rawCount).demand symbols p.params) := by
  obtain ⟨p₁, p₂, p₃, p₄, is, counted, pushed, jumped, size, coded, result⟩ := run_call_ok ran
  have asked : Meets p p₂ (.fetching (Tables.pushed p.params count)) :=
    (meets_argumentCount counted).afterNothing (meets_pushAll pushed)
  have noted : (reference function).run p₂ = .ok () { p₂ with labels := p₂.labels.reference function } := rfl
  have called := ((meets_modify noted fun _ => ⟨rfl, rfl, rfl, rfl, rfl⟩).andNothing
    (meets_code jumped (by simp [Op.symbol?]))).andNothing (meets_code coded (symbol?_popCode size))
  have cleared : (modify fun p => { p with params := [] } : Emit Unit).run p₄ = .ok () { p₄ with params := [] } := rfl
  have back := called.andNothing (meets_modify cleared fun _ => ⟨rfl, rfl, rfl, rfl, rfl⟩)
  rcases result with ⟨-, rfl⟩ | ⟨name, -, taken⟩
  · exact asked.andNothing back
  · obtain ⟨_, p₅, declared, stored⟩ := run_bind_ok.mp taken
    exact (asked.andNothing back).andNothing ((meets_declare declared).andNothing (meets_storeBack stored))

theorem meets_ret {value : Option String} (symbols : SymbolTable) (queue : List String)
    (ran : (ret value).run p = .ok () q) : Meets p q ((Stmt.ret value).demand symbols queue) := by
  unfold ret at ran
  cases given : Stmt.given value with
  | none =>
    simp only [given] at ran
    exact (meets_code ran (by simp [Op.symbol?])).congr (by simp [Stmt.demand, given]; rfl)
  | some operand =>
    have demand : (Stmt.ret value).demand symbols queue = .fetching [operand] := by
      simp [Stmt.demand, given]
    rw [demand]
    cases sort : Operand.ofString operand with
    | immediate constant =>
      simp only [given, sort] at ran
      obtain ⟨_, p₁, loaded, jumped⟩ := run_bind_ok.mp ran
      have same : Operand.ofFetched operand = .immediate constant := by
        rw [Operand.ofFetched, stripped_of_immediate sort, sort]
      have meets : Meets p p₁ (.fetching [operand]) :=
        .of_lays (lays_code loaded) (by simp [Demand.fetching, Demand.names, same, Operand.names]) (by simp)
          ⟨by simp [Op.symbol?], by simp [Demand.fetching, Demand.literals, same, Operand.pooled?]⟩
      exact meets.andNothing (meets_code jumped (by simp [Op.symbol?]))
    | float | text | name =>
      simp only [given, sort] at ran
      obtain ⟨r, p₁, fetched, ran⟩ := run_bind_ok.mp ran
      rw [run_ite_bind] at ran
      obtain ⟨_, p₂, moved, jumped⟩ := run_bind_ok.mp ran
      exact ((meets_materialize fetched).andNothing (meets_move moved)).andNothing
        (meets_code jumped (by simp [Op.symbol?]))

/-- Every statement that is lowered without a fault gets what it asks for. -/
theorem meets_stmt {s : Stmt} (ran : (stmt s).run p = .ok () q) : Meets p q (s.demand p.symbols p.params) := by
  cases s with
  | declare name typeName isGlobal => exact meets_declare ran
  | declareArray name length typeName isGlobal => exact meets_declareArray ran
  | label name => exact meets_label ran
  | comment text =>
    cases ran
    exact .quiet rfl rfl rfl (fun _ => id) rfl (by simp [Node.isInstr])
  | goto target =>
    obtain ⟨_, p₁, noted, coded⟩ := run_bind_ok.mp ran
    exact (meets_modify noted fun _ => ⟨rfl, rfl, rfl, rfl, rfl⟩).andNothing
      (meets_code coded (by simp [Op.symbol?]))
  | branch => exact meets_branch _ _ ran
  | assign => exact meets_assign _ _ ran
  | arrayLoad => exact meets_arrayLoad _ _ ran
  | arrayStore => exact meets_arrayStore _ _ ran
  | zeroFill => exact meets_zeroFill _ _ ran
  | param operand => exact meets_modify ran fun _ => ⟨rfl, rfl, rfl, rfl, rfl⟩
  | call => exact meets_call _ ran
  | ret => exact meets_ret _ _ ran
  | print => exact meets_print _ ran
  | read => exact meets_read ran
  | malformed | unsupported | foreign => exact meets_diagnose ran

theorem meets_line {l : Line} (ran : (line l).run p = .ok () q) :
    Meets p q (l.stmt.demand p.symbols p.params) := by
  obtain ⟨r, own, lowered, rfl, bare⟩ := run_line_ok ran
  have meets := meets_stmt lowered
  obtain ⟨nodes, text, served⟩ := meets.text
  obtain rfl : r.text = nodes := text
  refine { meets with text := ⟨own, rfl, ?_⟩ }
  constructor
  · intro i member label refers
    obtain ⟨j, laid, same⟩ := instr_mem_of_bare bare member
    rw [← same] at refers ⊢
    exact served.refers j laid label refers
  · intro literal asked
    obtain ⟨j, dest, label, laid, found, same⟩ := served.loads literal asked
    obtain ⟨i, member, sameOp⟩ := instr_mem_of_bare bare.symm laid
    exact ⟨i, dest, label, member, found, sameOp.trans same⟩

end Lower

/-! ## Passes -/

/-- What the statement of a step asks for when its turn comes. -/
def TraceStep.demand (s : TraceStep) : Demand :=
  s.stmt.demand s.before.symbols s.before.params

/-- What the statements of some steps ask for. -/
def Demand.ofSteps (steps : List TraceStep) : Demand :=
  (steps.map TraceStep.demand).foldr (· ++ ·) {}

theorem Demand.mem_names_ofSteps {steps : List TraceStep} {name : String} :
    name ∈ (ofSteps steps).names ↔ ∃ s ∈ steps, name ∈ s.demand.names := by
  induction steps with
  | nil => simp [ofSteps, names]
  | cons s rest ih =>
    show name ∈ (s.demand ++ ofSteps rest).names ↔ _
    simp only [mem_names_append, ih, List.mem_cons, exists_eq_or_imp]

/-- What was laid out in a step serves its demand up to the end of the pass. -/
theorem Chain.meets {p q : Pass} {steps : List TraceStep} (chain : Chain p steps q) :
    Meets p q (.ofSteps steps) ∧ ∀ s ∈ steps, q.Serves s.demand s.nodes := by
  induction chain with
  | nil p => exact ⟨.refl p, by simp⟩
  | @cons s rest q ran later ih =>
    have first : Meets s.before s.after s.demand := Lower.meets_line ran
    refine ⟨first.trans ih.1, fun s' member => ?_⟩
    rcases List.mem_cons.mp member with rfl | member
    · obtain ⟨nodes, text, served⟩ := first.text
      obtain rfl : s'.nodes = nodes := List.append_cancel_left ((after_text ran).symm.trans text)
      exact ih.1.serves served
    · exact ih.2 s' member

end MipsLowering
