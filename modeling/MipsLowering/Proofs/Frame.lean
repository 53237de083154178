import MipsLowering.Proofs.Homes

/-! # What code leaves as it is

The code of a statement changes no homes but those that it writes, except that a value that is fetched
from a cell passes through the register of its name (`Tables.Ready.frame`). -/

namespace MipsLowering

-- The class of an operand is only used through the theorems about it.
seal Operand.ofString

/-! ## Operations -/

/-- What the functions outside of a listing have to leave alone: names keep their values there. -/
def World.Respects (w : World) (config : Config) : Prop :=
  ∀ function c, (∀ r ∈ config.pool, (w.outside function c).reg r = c.reg r) ∧
    (w.outside function c).cells = c.cells

namespace Op

/-- The register that an operation writes to. -/
def sets? : Op → Option Register
  | .alu _ dest _ _ | .aluImm _ dest _ _ | .mflo dest | .li dest _ | .la dest _ | .move dest _
  | .load _ dest _ => some dest
  | .jal _ => some linkRegister
  | .syscall => some resultRegister
  | _ => none

/-- The cell that an operation writes to. -/
def stores? : Op → Option String
  | .store _ _ (.label name) => some name
  | _ => none

end Op

namespace Image

variable (m : Image) {w : World} {config : Config}

/-- An operation keeps a register of the pool that it does not write to, and likewise a cell. -/
theorem exec_frame (respects : w.Respects config) {rest : List Node} {c d : Content} {op : Op}
    {flow : Flow} (done : m.exec w rest c op = some (d, flow)) :
    (∀ r ∈ config.pool, op.sets? ≠ some r → d.reg r = c.reg r) ∧
      ∀ name, op.stores? ≠ some name → d.cells name = c.cells name := by
  have setReg : ∀ dest value, (∀ r ∈ config.pool, some dest ≠ some r → (c.setReg dest value).reg r = c.reg r) ∧
      ∀ name, (none : Option String) ≠ some name → (c.setReg dest value).cells name = c.cells name := by
    intro dest value
    exact ⟨fun r _ differs => Content.reg_setReg_of_ne c value fun same => differs (same ▸ rfl),
      fun name _ => rfl⟩
  cases op with
  | alu | aluImm | mflo | la | move =>
    cases done
    exact setReg _ _
  | li dest value =>
    obtain ⟨n, _, same⟩ := Option.map_eq_some_iff.mp done
    cases same
    exact setReg _ _
  | load width dest address =>
    obtain ⟨name, cell, rfl, _, rfl, rfl⟩ := exec_load m w done
    exact setReg _ _
  | store width source address =>
    obtain ⟨name, rfl, rfl, rfl⟩ := exec_store m w done
    exact ⟨fun r _ _ => rfl, fun other differs => Content.cells_setCell_of_ne c _
      fun same => differs (same ▸ rfl)⟩
  | jal label =>
    simp only [exec] at done
    split at done
    · cases done
      exact setReg _ _
    · cases done
      have kept := respects label c
      exact ⟨fun r pooled _ => kept.1 r pooled, fun name _ => by rw [kept.2]⟩
  | syscall =>
    simp only [exec, service] at done
    split at done
    · cases done; exact ⟨fun r _ _ => rfl, fun name _ => rfl⟩
    · cases done; exact ⟨fun r _ _ => rfl, fun name _ => rfl⟩
    · cases done; exact ⟨fun r _ _ => rfl, fun name _ => rfl⟩
    · cases done; exact setReg _ _
    · cases done; exact ⟨fun r _ _ => rfl, fun name _ => rfl⟩
    · cases done; exact ⟨fun r _ _ => rfl, fun name _ => rfl⟩
    · cases done
  | other mnemonic operands => cases done
  | div | mtc1 | bnez | beq | j | jr =>
    cases done
    exact ⟨fun r _ _ => rfl, fun name _ => rfl⟩

end Image

/-! ## Statements -/

/-- The operations that may stand in the code of a statement: they write to the cell and the register of
    its target, to registers that no name is bound to, and to the register of a name that they load, and
    none of them returns to a caller. -/
structure Tables.AllowsOp (t : Tables) (s : Stmt) (op : Op) : Prop where
  stores : ∀ name, op.stores? = some name → .cell name ∈ t.written s
  sets : ∀ r ∈ t.config.pool, op.sets? = some r → .register r ∈ t.written s ∨
    ∃ name ∈ s.loaded t.symbols, op = .load (t.width name) (t.register name) (.label name)
  stays : op.isReturn = false

def Tables.Allows (t : Tables) (s : Stmt) : Node → Prop
  | .instr i => t.AllowsOp s i.op
  | _ => True

theorem BinaryOp.sets_code (op : BinaryOp) (dest left right : Register) :
    ∀ i ∈ op.code dest left right,
      i.op.stores? = none ∧ i.op.isReturn = false ∧ ∀ r, i.op.sets? = some r → r = dest := by
  cases op <;> simp [BinaryOp.code, aluCode, flipCode, Op.stores?, Op.sets?, Op.isReturn]

theorem UnaryOp.sets_code (op : UnaryOp) (dest source : Register) :
    ∀ i ∈ op.code dest source,
      i.op.stores? = none ∧ i.op.isReturn = false ∧ ∀ r, i.op.sets? = some r → r = dest := by
  cases op <;> simp [UnaryOp.code, aluCode, Op.stores?, Op.sets?, Op.isReturn]

namespace Tables

variable {t : Tables} {s : Stmt}

/-- An operation that stores nothing and writes to the register of the target or to a register that no
    name is bound to. -/
theorem allows_of_sets {op : Op} (stores : op.stores? = none) (stays : op.isReturn = false)
    (sets : ∀ r ∈ t.config.pool, op.sets? = some r → .register r ∈ t.written s) :
    t.Allows s op.node :=
  ⟨fun name stored => absurd (stores.symm.trans stored) (by simp),
    fun r pooled here => .inl (sets r pooled here), stays⟩

theorem allows_spare {op : Op} {dest : Register} (stores : op.stores? = none)
    (stays : op.isReturn = false) (sets : op.sets? = some dest) (spare : dest ∉ t.config.pool) :
    t.Allows s op.node :=
  allows_of_sets stores stays fun r pooled here => by
    cases sets.symm.trans here
    exact absurd pooled spare

theorem allows_idle {op : Op} (stores : op.stores? = none) (stays : op.isReturn = false)
    (sets : op.sets? = none) : t.Allows s op.node :=
  allows_of_sets stores stays fun r _ here => by cases sets.symm.trans here

theorem allows_code_of_sets {is : List Instr} (dest : Register)
    (sets : ∀ i ∈ is,
      i.op.stores? = none ∧ i.op.isReturn = false ∧ ∀ r, i.op.sets? = some r → r = dest)
    (spare : dest ∈ t.config.pool → .register dest ∈ t.written s) :
    ∀ node ∈ is.map (·.op.node), t.Allows s node := by
  intro node member
  obtain ⟨i, among, rfl⟩ := List.mem_map.mp member
  obtain ⟨stores, stays, here⟩ := sets i among
  refine allows_of_sets stores stays fun r pooled set => ?_
  obtain rfl := here r set
  exact spare pooled

theorem nodes_forall {P : Node → Prop} {ops : List Op} (all : ∀ op ∈ ops, P op.node) :
    ∀ node ∈ ops.map Op.node, P node := by
  intro node member
  obtain ⟨op, among, rfl⟩ := List.mem_map.mp member
  exact all op among

namespace Ready

variable (ready : t.Ready s)

include ready

theorem allows_fetch {operand : String} {wanted : Option Register}
    (spare : t.registers.literalRegister wanted ∉ t.config.pool)
    (fetched : Stmt.namesIn operand ⊆ s.fetched t.symbols)
    (named : Stmt.namesIn operand ⊆ s.names t.symbols) :
    ∀ op ∈ (t.fetch operand wanted).2, t.Allows s op.node := by
  intro op member
  unfold fetch at member
  cases sort : Operand.ofString (Text.stripped operand) with
  | name name =>
    simp only [sort, fetchAs, ready.load_eq] at member
    split at member
    next backed =>
      obtain rfl := List.mem_singleton.mp member
      have inside : name ∈ Stmt.namesIn operand := by simp [Stmt.namesIn, sort, Operand.names]
      exact ⟨fun _ stored => absurd stored (by simp [Op.stores?]),
        fun _ _ _ => .inr ⟨name, Stmt.mem_loaded.mpr ⟨fetched inside, backed, named inside⟩, rfl⟩, rfl⟩
    next => cases member
  | _ =>
    simp only [sort, fetchAs, List.mem_singleton] at member
    subst member
    exact allows_spare rfl rfl rfl spare

theorem allows_store {name : String} (target : s.target? = some name) (r : Register) :
    ∀ node ∈ t.store name r, t.Allows s node := by
  rw [ready.store_eq]
  split
  next backed =>
    intro node member
    obtain rfl := List.mem_singleton.mp member
    refine ⟨fun stored same => ?_, fun _ _ set => absurd set (by simp [Op.sets?]), rfl⟩
    cases same
    simp [written, target, backed]
  next => simp

/-- The operands of a statement that prints nothing. -/
theorem allows_operand (silent : ∀ value, s ≠ .print value) {operand : String}
    {wanted : Option Register} (spare : t.registers.literalRegister wanted ∉ t.config.pool)
    (among : Stmt.namesIn operand ⊆ s.fetched t.symbols) :
    ∀ op ∈ (t.fetch operand wanted).2, t.Allows s op.node :=
  ready.allows_fetch spare among fun _ inside =>
    Stmt.mem_names_of_fetched (among inside) (.inl silent)

theorem allows_operands (silent : ∀ value, s ≠ .print value) {left right : String}
    (amongLeft : Stmt.namesIn left ⊆ s.fetched t.symbols) (amongRight : Stmt.namesIn right ⊆ s.fetched t.symbols) :
    ∀ node ∈ (t.fetch left (some t.config.scratch0)).2.map Op.node ++
      (t.fetch right (some t.config.scratch1)).2.map Op.node, t.Allows s node :=
  List.forall_mem_append.mpr
    ⟨nodes_forall (ready.allows_operand silent ready.literalRegister_scratch0 amongLeft),
      nodes_forall (ready.allows_operand silent ready.literalRegister_scratch1 amongRight)⟩

theorem allows_copy {dest : Register} {operand : String}
    (into : .register dest ∈ t.written s) (silent : ∀ value, s ≠ .print value)
    (among : Stmt.copiedNames operand ⊆ s.fetched t.symbols) :
    ∀ op ∈ t.copyInto dest (Operand.ofString operand), t.Allows s op.node := by
  intro op member
  cases sort : Operand.ofString operand with
  | name name =>
    rw [sort, copyInto, List.mem_append] at member
    rcases member with fetch | move
    · have copied : Stmt.copiedNames operand = Stmt.namesIn name := by
        simp [Stmt.copiedNames, sort, Operand.names]
      rw [copied] at among
      exact ready.allows_operand silent ready.literalRegister_none among op fetch
    · unfold moveCode at move
      split at move
      · obtain rfl := List.mem_singleton.mp move
        refine allows_of_sets rfl rfl fun r _ set => ?_
        cases set
        exact into
      · cases move
  | _ =>
    simp only [sort, copyInto, List.mem_singleton] at member
    subst member
    refine allows_of_sets rfl rfl fun r _ set => ?_
    cases set
    exact into

end Ready

theorem Supplies.allows {ops : List Op} {fetched named : List String}
    (supplies : t.Supplies ops fetched named) (ready : t.Ready s)
    (amongFetched : fetched ⊆ s.fetched t.symbols) (amongNamed : named ⊆ s.names t.symbols) :
    ∀ op ∈ ops, t.Allows s op.node := by
  have argument : argumentRegister ∉ t.config.pool := t.config.not_mem_pool_of_reserved (by decide)
  cases supplies with
  | literal loads =>
    intro op member
    obtain rfl := List.mem_singleton.mp member
    rcases loads with ⟨value, rfl⟩ | ⟨label, rfl⟩ <;> exact allows_spare rfl rfl rfl argument
  | cell backed => exact fun op member => List.mem_singleton.mp member ▸ allows_spare rfl rfl rfl argument
  | fetch spare moved =>
    refine List.forall_mem_append.mpr
      ⟨ready.allows_fetch spare amongFetched amongNamed, fun op member => ?_⟩
    rcases moved with rfl | ⟨rfl, _⟩
    · exact List.mem_singleton.mp member ▸ allows_spare rfl rfl rfl argument
    · cases member

theorem allows_service (service : Lower.Service) :
    ∀ node ∈ [(serviceCode service).node, Op.syscall.node], t.Allows s node := by
  have result : resultRegister ∉ t.config.pool := t.config.not_mem_pool_of_reserved (by decide)
  intro node member
  rcases List.mem_cons.mp member with rfl | member
  · exact allows_spare rfl rfl rfl result
  · exact List.mem_singleton.mp member ▸ allows_spare rfl rfl rfl result

namespace Ready

theorem allows_print {value : String} (ready : t.Ready (.print value)) :
    ∀ op ∈ (t.prepareCode value).1, t.Allows (.print value) op.node := by
  have shown : (Stmt.print value).fetched t.symbols = Stmt.shownNames t.symbols value := by
    simp [Stmt.fetched, Stmt.source?, Source.first, Source.second]
  have prepares := ready.prepares value
  generalize (t.prepareCode value).1 = ops at prepares
  generalize (t.prepareCode value).2 = service at prepares
  cases prepares with
  | argument supplies _ => exact supplies.allows ready (by simp [shown]) (List.Subset.refl _)
  | float fetched named _ =>
    refine List.forall_mem_append.mpr
      ⟨ready.allows_fetch ready.literalRegister_scratch0 (by simp [shown, fetched])
        (by rw [← named]; exact List.Subset.refl _), fun op member => ?_⟩
    exact List.mem_singleton.mp member ▸ allows_idle rfl rfl rfl

theorem allows_call {function : String} {count : Option Int} {target rawCount : Option String}
    (ready : t.Ready (.call function count target rawCount)) :
    ∀ node ∈ t.callCode function count target rawCount, t.Allows (.call function count target rawCount) node := by
  have spare : ∀ r ∈ reservedRegisters, r ∉ t.config.pool := fun r reserved =>
    t.config.not_mem_pool_of_reserved reserved
  simp only [callCode, List.forall_mem_append]
  refine ⟨⟨⟨?_, ?_⟩, ?_⟩, ?_⟩
  · unfold countRemark
    split <;> simp [Allows]
  · exact fun node member => List.mem_singleton.mp member ▸
      allows_spare rfl rfl rfl (spare linkRegister (by decide))
  · rcases t.releaseCode_cases count with none | ⟨n, one⟩
    · rw [none]
      simp
    · rw [one]
      exact fun node member => List.mem_singleton.mp member ▸
        allows_spare rfl rfl rfl (spare stackPointer (by decide))
  · unfold resultCode
    split
    next => simp
    next name given => exact ready.allows_store given _

/-- Every line of the code of a statement is one that may stand there. -/
theorem allows_code (ready : t.Ready s) : ∀ node ∈ t.code s, t.Allows s node := by
  have into : ∀ {name}, s.target? = some name → s.isAssignment = true →
      .register (t.register name) ∈ t.written s := by
    intro name target assigns
    simp [written, target, assigns]
  have jump : ∀ r target, ∀ node ∈ [(Op.bnez r target).node], t.Allows s node :=
    fun r target node member => List.mem_singleton.mp member ▸ allows_idle rfl rfl rfl
  have coded := t.coded s
  generalize t.code s = nodes at coded ⊢
  cases coded with
  | idle source still =>
    intro node member
    cases node with
    | instr i => exact absurd rfl (still _ member i)
    | _ => trivial
  | goto target => exact fun node member => List.mem_singleton.mp member ▸ allows_idle rfl rfl rfl
  | binary source =>
    have fetched := Stmt.fetched_of_source t.symbols source
    have target := Stmt.target?_of_source source
    rw [binaryCode, List.forall_mem_append, List.forall_mem_append]
    exact ⟨⟨ready.allows_operands (by simp) (by simp [fetched, Source.first]) (by simp [fetched, Source.second]),
      allows_code_of_sets _ (BinaryOp.sets_code _ _ _ _) fun _ => into target rfl⟩, ready.allows_store target _⟩
  | unary source =>
    have fetched := Stmt.fetched_of_source t.symbols source
    have target := Stmt.target?_of_source source
    simp only [unaryCode, List.forall_mem_append]
    refine ⟨⟨nodes_forall (ready.allows_operand (by simp) ready.literalRegister_none ?_), ?_⟩,
      ready.allows_store target _⟩
    · simp [fetched, Source.first]
    · exact allows_code_of_sets _ (UnaryOp.sets_code _ _ _) fun _ => into target rfl
  | copy source =>
    have fetched := Stmt.fetched_of_source t.symbols source
    have target := Stmt.target?_of_source source
    simp only [copyCode, List.forall_mem_append]
    exact ⟨nodes_forall (ready.allows_copy (into target rfl) (by simp)
      (by simp [fetched, Source.first])), ready.allows_store target _⟩
  | relation source =>
    have fetched := Stmt.fetched_of_source t.symbols source
    have spare : t.config.scratch0 ∉ t.config.pool := t.config.not_mem_pool_of_scratch t.config.scratch0_mem
    rw [relationCode, List.forall_mem_append, List.forall_mem_append]
    exact ⟨⟨ready.allows_operands (by simp) (by simp [fetched, Source.first]) (by simp [fetched, Source.second]),
      allows_code_of_sets _ (BinaryOp.sets_code _ _ _ _) fun pooled => absurd pooled spare⟩, jump _ _⟩
  | test source =>
    have fetched := Stmt.fetched_of_source t.symbols source
    rw [List.forall_mem_append]
    exact ⟨nodes_forall (ready.allows_operand (by simp) ready.literalRegister_scratch0
      (by simp [fetched, Source.first])), jump _ _⟩
  | print value =>
    rw [printCode, List.forall_mem_append]
    exact ⟨nodes_forall ready.allows_print, allows_service _⟩
  | read target =>
    rw [readCode, List.forall_mem_append]
    exact ⟨allows_service _, ready.allows_store rfl _⟩
  | call => exact ready.allows_call

/-- Names that are fetched from the cell of the target are assigned too. -/
theorem register_mem_written {name : String} (fetched : name ∈ s.fetched t.symbols)
    (stored : .cell name ∈ t.written s) : .register (t.register name) ∈ t.written s := by
  obtain ⟨target, _⟩ := cell_mem_written_iff.mp stored
  refine register_mem_written_iff.mpr ⟨name, target, ?_, rfl⟩
  cases s with
  | assign => rfl
  | read | call => cases fetched
  | _ => cases target

variable {m : Image} {w : World} {tail : List Node} {c d : Content} {flow : Flow}

/-- What one operation of the code of a statement leaves as it is. -/
theorem exec_keeps (ready : t.Ready s) (respects : w.Respects t.config) {i : Instr}
    (member : .instr i ∈ t.code s) (done : m.exec w tail c i.op = some (d, flow)) :
    (∀ name, .cell name ∉ t.written s → d.cells name = c.cells name) ∧
      ∀ r ∈ t.config.pool, .register r ∉ t.written s → d.reg r = c.reg r ∨
        ∃ name ∈ s.loaded t.symbols, .cell name ∉ t.written s ∧ r = t.register name ∧
          some (d.reg r) = c.at? (.cell name) := by
  have allowed := ready.allows_code _ member
  refine ⟨fun name unwritten => (m.exec_frame respects done).2 name fun stored =>
    unwritten (allowed.stores name stored), fun r pooled unwritten => ?_⟩
  by_cases set : i.op.sets? = some r
  · rcases allowed.sets r pooled set with assigned | ⟨name, loaded, load⟩
    · exact absurd assigned unwritten
    · rw [load] at done set
      obtain rfl : t.register name = r := Option.some.inj set
      obtain ⟨fetched, _, named⟩ := Stmt.mem_loaded.mp loaded
      obtain ⟨_, cell, isLabel, present, rfl, _⟩ := Image.exec_load m w done
      cases isLabel
      refine .inr ⟨name, loaded, fun stored => unwritten (register_mem_written fetched stored), rfl, ?_⟩
      rw [Content.reg_setReg_self _ _ (ready.bound name named).notZero, Content.at?, present,
        Option.map_some]
  · exact .inl ((m.exec_frame respects done).1 r pooled set)

/-- What the code of a statement leaves as it is. -/
theorem frame (ready : t.Ready s) (respects : w.Respects t.config)
    (ran : m.runBlock w tail (t.code s) c = some (d, flow)) :
    (∀ name, .cell name ∉ t.written s → d.cells name = c.cells name) ∧
      ∀ r ∈ t.config.pool, .register r ∉ t.written s → d.reg r = c.reg r ∨
        ∃ name ∈ s.loaded t.symbols, r = t.register name ∧ some (d.reg r) = c.at? (.cell name) := by
  constructor
  · intro name unwritten
    refine m.runBlock_invariant w (P := fun e => e.cells name = c.cells name) ?_ rfl ran
    intro i member rest e e' flow' before done
    exact ((ready.exec_keeps respects member done).1 name unwritten).trans before
  · intro r pooled unwritten
    -- The cells that are loaded keep their values up to the end, so it does not matter when.
    refine (m.runBlock_invariant w (P := fun e =>
      (∀ name, .cell name ∉ t.written s → e.cells name = c.cells name) ∧
        (e.reg r = c.reg r ∨ ∃ name ∈ s.loaded t.symbols, r = t.register name ∧
          some (e.reg r) = c.at? (.cell name))) ?_ ⟨fun _ _ => rfl, .inl rfl⟩ ran).2
    rintro i member rest e e' flow' ⟨same, register⟩ done
    obtain ⟨cells, registers⟩ := ready.exec_keeps respects member done
    refine ⟨fun name unstored => (cells name unstored).trans (same name unstored), ?_⟩
    rcases registers r pooled unwritten with kept | ⟨name, loaded, unstored, here, value⟩
    · rw [kept]
      exact register
    · exact .inr ⟨name, loaded, here, by rw [value, Content.at?, same name unstored, Content.at?]⟩

end Ready

/-! ## Loads -/

/-- Code in which the register of a name is loaded from its cell, behind straight operations only. -/
def Loads (t : Tables) (name : String) (nodes : List Node) : Prop :=
  ∃ (ops : List Op) (rest : List Node), nodes = ops.map Op.node ++
    (Op.load (t.width name) (t.register name) (.label name)).node :: rest ∧
    ∀ op ∈ ops, op.isStraight = true

theorem Loads.append {name : String} {nodes : List Node} (loads : t.Loads name nodes)
    (rest : List Node) : t.Loads name (nodes ++ rest) := by
  obtain ⟨ops, later, rfl, straight⟩ := loads
  exact ⟨ops, later ++ rest, by rw [List.append_assoc, List.cons_append], straight⟩

theorem Loads.behind {name : String} {nodes : List Node} (loads : t.Loads name nodes) {ops : List Op}
    (straight : ∀ op ∈ ops, op.isStraight = true) : t.Loads name (ops.map Op.node ++ nodes) := by
  obtain ⟨ops', rest, rfl, straight'⟩ := loads
  exact ⟨ops ++ ops', rest, by rw [List.map_append, List.append_assoc],
    List.forall_mem_append.mpr ⟨straight, straight'⟩⟩

namespace Ready

variable (ready : t.Ready s) {name : String}

include ready

theorem straight_fetch (operand : String) (wanted : Option Register) :
    ∀ op ∈ (t.fetch operand wanted).2, op.isStraight = true := by
  intro op member
  unfold fetch at member
  cases sort : Operand.ofString (Text.stripped operand) with
  | name name =>
    simp only [sort, fetchAs, ready.load_eq] at member
    split at member
    next => exact List.mem_singleton.mp member ▸ rfl
    next => cases member
  | _ =>
    simp only [sort, fetchAs, List.mem_singleton] at member
    exact member ▸ rfl

theorem loads_fetch {operand : String} (inside : name ∈ Stmt.namesIn operand)
    (backed : t.symbols.isInMemory name = true) (wanted : Option Register) :
    t.Loads name ((t.fetch operand wanted).2.map Op.node) := by
  refine ⟨[], [], ?_, by simp⟩
  unfold Stmt.namesIn at inside
  unfold fetch
  cases sort : Operand.ofString (Text.stripped operand) with
  | name other =>
    rw [sort] at inside
    obtain rfl := List.mem_singleton.mp inside
    simp [fetchAs, ready.load_eq, backed]
  | _ =>
    rw [sort] at inside
    cases inside

theorem loads_pair {left right : String} (inside : name ∈ Stmt.namesIn left ++ Stmt.namesIn right)
    (backed : t.symbols.isInMemory name = true) (first second : Option Register) :
    t.Loads name ((t.fetch left first).2.map Op.node ++ (t.fetch right second).2.map Op.node) := by
  rcases List.mem_append.mp inside with inLeft | inRight
  · exact (ready.loads_fetch inLeft backed first).append _
  · exact (ready.loads_fetch inRight backed second).behind (ready.straight_fetch left first)

theorem loads_copy {operand : String} (inside : name ∈ Stmt.copiedNames operand)
    (backed : t.symbols.isInMemory name = true) (dest : Register) :
    t.Loads name ((t.copyInto dest (Operand.ofString operand)).map Op.node) := by
  unfold Stmt.copiedNames at inside
  cases sort : Operand.ofString operand with
  | name other =>
    simp only [sort, Operand.names, List.flatMap_cons, List.flatMap_nil, List.append_nil] at inside
    rw [copyInto, List.map_append]
    exact (ready.loads_fetch inside backed none).append _
  | _ =>
    rw [sort] at inside
    cases inside

end Ready

theorem Supplies.loads {ops : List Op} {fetched named : List String} {name : String}
    (supplies : t.Supplies ops fetched named) (ready : t.Ready s) (inside : name ∈ named)
    (backed : t.symbols.isInMemory name = true) : t.Loads name (ops.map Op.node) := by
  cases supplies with
  | literal | cell => cases inside
  | fetch spare moved =>
    rw [List.map_append]
    exact (ready.loads_fetch inside backed _).append _

/-- The names that a statement loads are loaded by its code. -/
theorem Ready.loads_code (ready : t.Ready s) {name : String} (loaded : name ∈ s.loaded t.symbols) :
    t.Loads name (t.code s) := by
  obtain ⟨inside, backed, named⟩ := Stmt.mem_loaded.mp loaded
  have coded := t.coded s
  generalize t.code s = nodes at coded ⊢
  cases coded with
  | idle source still =>
    rw [Stmt.fetched, source] at inside
    cases inside
  | binary source =>
    rw [Stmt.fetched_of_source t.symbols source] at inside
    exact ((ready.loads_pair inside backed _ _).append _).append _
  | unary source =>
    rw [(Stmt.fetched_of_source t.symbols source).trans (List.append_nil _)] at inside
    exact ((ready.loads_fetch inside backed _).append _).append _
  | copy source =>
    rw [(Stmt.fetched_of_source t.symbols source).trans (List.append_nil _)] at inside
    exact (ready.loads_copy inside backed _).append _
  | relation source =>
    rw [Stmt.fetched_of_source t.symbols source] at inside
    exact ((ready.loads_pair inside backed _ _).append _).append _
  | test source =>
    rw [(Stmt.fetched_of_source t.symbols source).trans (List.append_nil _)] at inside
    exact (ready.loads_fetch inside backed _).append _
  | print value =>
    have prepares := ready.prepares value
    rw [printCode]
    generalize (t.prepareCode value).1 = ops at prepares
    generalize (t.prepareCode value).2 = service at prepares
    refine Loads.append ?_ _
    cases prepares with
    | argument supplies _ => exact supplies.loads ready named backed
    | float _ printed _ =>
      rw [Stmt.names, printed] at named
      rw [List.map_append]
      exact (ready.loads_fetch named backed _).append _
  | goto | read | call => cases inside

namespace Ready

variable (ready : t.Ready s) {m : Image} {w : World} {tail : List Node} {c d : Content} {flow : Flow}
  {name : String}

include ready

theorem bound_of_target (target : s.target? = some name) (assigned : s.isAssignment = true) :
    t.Bound name := by
  cases s with
  | assign dest operand1 operator operand2 =>
    obtain ⟨source, works, rfl⟩ := Option.map_eq_some_iff.mp target
    refine ready.bound dest ?_
    rw [Stmt.names_assign t.symbols works]
    exact List.mem_cons_self
  | _ => cases assigned

/-- Where no two names share a register, only an assignment to a name writes its register. -/
theorem register_not_mem_written (apart : t.registers.Apart) (bound : t.Bound name)
    (untargeted : s.target? ≠ some name) : .register (t.register name) ∉ t.written s := by
  intro set
  obtain ⟨other, target, assigned, same⟩ := register_mem_written_iff.mp set
  obtain rfl := bound.inj apart (ready.bound_of_target target assigned) same
  exact untargeted target

/-- The register of a name that is neither assigned nor loaded keeps its value. -/
theorem keeps_register (apart : t.registers.Apart) (respects : w.Respects t.config)
    (ran : m.runBlock w tail (t.code s) c = some (d, flow)) (bound : t.Bound name)
    (untargeted : s.target? ≠ some name) (unloaded : name ∉ s.loaded t.symbols) :
    d.reg (t.register name) = c.reg (t.register name) := by
  have unset := ready.register_not_mem_written apart bound untargeted
  rcases (ready.frame respects ran).2 _ bound.pooled unset with kept | ⟨other, loaded, same, _⟩
  · exact kept
  · obtain rfl := bound.inj apart (ready.bound other (Stmt.mem_loaded.mp loaded).2.2) same
    exact absurd loaded unloaded

/-- The register of a name that is loaded and not assigned ends up with the value of the cell. -/
theorem loads_register (apart : t.registers.Apart) (respects : w.Respects t.config)
    (ran : m.runBlock w tail (t.code s) c = some (d, flow)) (untargeted : s.target? ≠ some name)
    (loaded : name ∈ s.loaded t.symbols) : some (d.reg (t.register name)) = c.at? (.cell name) := by
  have bound := ready.bound name (Stmt.mem_loaded.mp loaded).2.2
  have unset := ready.register_not_mem_written apart bound untargeted
  have unstored : .cell name ∉ t.written s := fun stored =>
    untargeted (cell_mem_written_iff.mp stored).1
  obtain ⟨ops, last, code, straight⟩ := ready.loads_code loaded
  have inFirst : ∀ node ∈ ops.map Op.node, node ∈ t.code s := fun node member =>
    code ▸ List.mem_append_left _ member
  have inLast : ∀ node ∈ last, node ∈ t.code s := fun node member =>
    code ▸ List.mem_append_right _ (List.mem_cons_of_mem _ member)
  rw [code] at ran
  obtain ⟨e, ranFirst, ran⟩ := m.runBlock_append_straight w straight ran
  have cells : e.cells name = c.cells name :=
    m.runBlock_invariant w (P := fun x => x.cells name = c.cells name)
      (fun i member _ _ _ _ before done =>
        ((ready.exec_keeps respects (inFirst _ member) done).1 name unstored).trans before) rfl ranFirst
  obtain ⟨f, done, ran⟩ := m.runBlock_straight w rfl ran
  obtain ⟨_, cell, isLabel, present, rfl, _⟩ := m.exec_load w done
  cases isLabel
  have value : some ((e.setReg (t.register name) cell.value).reg (t.register name)) =
      c.at? (.cell name) := by
    rw [Content.reg_setReg_self _ _ bound.notZero, Content.at?, ← cells, present, Option.map_some]
  -- From here on the register and the cell agree, whatever is loaded behind it.
  refine (m.runBlock_invariant w (c := e.setReg (t.register name) cell.value) (P := fun x =>
    x.cells name = c.cells name ∧ some (x.reg (t.register name)) = c.at? (.cell name)) ?_
    ⟨cells, value⟩ ran).2
  rintro i member rest x y flow' ⟨same, value⟩ done
  obtain ⟨keepsCells, registers⟩ := ready.exec_keeps respects (inLast _ member) done
  refine ⟨(keepsCells name unstored).trans same, ?_⟩
  rcases registers _ bound.pooled unset with kept | ⟨other, loaded', _, here, value'⟩
  · rw [kept]
    exact value
  · obtain rfl := bound.inj apart (ready.bound other (Stmt.mem_loaded.mp loaded').2.2) here
    rw [value', Content.at?, same, Content.at?]

end Ready

end Tables

end MipsLowering
