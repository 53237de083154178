import MipsLowering.Proofs.Allocation
import MipsLowering.Proofs.ArrayCode
import MipsLowering.Proofs.Demands
import MipsLowering.Proofs.Interpreter
import MipsLowering.Proofs.Outcomes
import MipsLowering.Proofs.RegisterWrites

/-! # Values that wait in registers

Code puts a value into a register and needs it some operations later: a first operand while the second is
fetched, an address while the index is brought in and scaled, the bounds of a fill while its loop goes round.
`Tables.waits` lists these stretches for every statement, and a stretch is safe if no operation of it overwrites
the register.

Accepted settings keep the registers of names apart from all others.  What else has to be apart is not checked:
`registers_held_iff` says for each kind of statement exactly which registers these are. -/

namespace MipsLowering

-- The class of an operand is only used through the theorems about it.
seal Operand.ofString

/-! ## Registers that are overwritten -/

/-- The register that is left to the assembler. -/
def assemblerRegister : Register := "$at"

/-- Whether a constant takes more than the sixteen bits that an instruction has room for. -/
def isWide (value : String) : Bool :=
  !(Text.integer? value.toList).any fun n => -32768 ≤ n && n < 65536

namespace Op

/-- Whether the assembler makes two instructions of an operation, the first of which goes to its own register:
    that holds for addresses given by labels and for wide constants. -/
def isExpanded : Op → Bool
  | .la _ _ | .load _ _ (.label _) | .store _ _ (.label _) => true
  | .li _ value => isWide value
  | _ => false

/-- Whether an operation may overwrite a register. -/
def overwrites (op : Op) (r : Register) : Bool :=
  op.writes (.register r) || op.isExpanded && r == assemblerRegister

variable {op : Op} {r dest : Register}

theorem ne_of_not_overwrites (safe : op.overwrites r = false) (sets : op.sets? = some dest) : r ≠ dest := by
  rintro rfl
  rw [overwrites, writes_of_sets? sets] at safe
  cases safe

theorem ne_assemblerRegister (safe : op.overwrites r = false) (expanded : op.isExpanded = true) :
    r ≠ assemblerRegister := by
  rintro rfl
  rw [overwrites, expanded, beq_self_eq_true, Bool.and_self, Bool.or_true] at safe
  cases safe

end Op

/-- A value that waits in a register: the lines up to the one that puts it there, the operations while it waits,
    and the lines from the one on that needs it. -/
structure Wait where
  front : List Node
  register : Register
  between : List Op
  back : List Node

namespace Wait

def lines (w : Wait) : List Node :=
  w.front ++ w.between.map Op.node ++ w.back

/-- No operation overwrites the value while it waits. -/
def Kept (w : Wait) : Prop :=
  ∀ op ∈ w.between, op.overwrites w.register = false

end Wait

namespace Tables

variable (t : Tables)

/-- The first of two operands waits while the second is fetched. -/
def pairWait (left right : String) (back : Register → Register → List Node) : Wait :=
  let first := t.fetch left (some t.config.scratch0)
  let second := t.fetch right (some t.config.scratch1)
  ⟨first.2.map Op.node, first.1, second.2, back first.1 second.1⟩

/-- The base of an array waits for the offset of the element, and the index for the size of an element. -/
def elementWaits (array index : String) (back : List Node) : List Wait :=
  let fetched := t.fetch index (some t.config.indexRegister)
  let base : Op := .la t.config.addressRegister array
  let size : Op := .li t.config.scratch0 (toString (t.symbols.elementSize array))
  let offset : Op := .alu .mul t.config.indexRegister fetched.1 t.config.scratch0
  let sum : Op := .alu .addu t.config.addressRegister t.config.addressRegister t.config.indexRegister
  [⟨[base.node], t.config.addressRegister, fetched.2 ++ [size, offset], sum.node :: back⟩,
    ⟨(base :: fetched.2).map Op.node, fetched.1, [size], offset.node :: sum.node :: back⟩]

/-- The address of an element also waits for the value that is stored. -/
def storeWaits (array index value : String) : List Wait :=
  let fetched := t.fetch value (some t.config.scratch0)
  let store : Op := .store (t.symbols.elementType array).width fetched.1 (.base t.config.addressRegister)
  ⟨(t.elementCode array index).map Op.node, t.config.addressRegister, fetched.2, [store.node]⟩ ::
    t.elementWaits array index (fetched.2.map Op.node ++ [store.node])

/-- In a fill the base waits for the offset of the first element, and then the cursor for the last index, as the
    first index does.  In the loop the last index waits for the next round, and so do the cursor and the index
    while the other one moves on. -/
def fillWaits (array start stop loop : String) : List Wait :=
  let first := t.fetch start (some t.config.indexRegister)
  let last := t.fetch stop (some t.config.scratch1)
  let cursor := t.config.addressRegister
  let index := t.config.indexRegister
  let size : Op := .li t.config.scratch0 (toString (t.symbols.elementSize array))
  let offset : Op := .alu .mul t.config.scratch0 index t.config.scratch0
  let sum : Op := .alu .addu cursor cursor t.config.scratch0
  let clear : Op := .store (t.symbols.elementType array).width zeroRegister (.base cursor)
  let moveOn : Op := .aluImm .addiu cursor cursor (t.symbols.elementSize array)
  let countUp : Op := .aluImm .addiu index index 1
  let base : Op := .la cursor array
  let begun := (base :: first.2 ++ moveCode index first.1).map Op.node
  let placed := begun ++ [size.node, offset.node, sum.node]
  let entered := placed ++ last.2.map Op.node ++ [.label loop, (Op.beq index last.1 (loop ++ "_end")).node]
  let leaves := [(Op.j loop).node, .label (loop ++ "_end")]
  [⟨[base.node], cursor, first.2 ++ moveCode index first.1 ++ [size, offset],
      sum.node :: last.2.map Op.node ++ t.fillLoop array loop last.1⟩,
    ⟨begun, index, [size, offset, sum] ++ last.2, t.fillLoop array loop last.1⟩,
    ⟨placed, cursor, last.2, t.fillLoop array loop last.1⟩,
    ⟨entered, last.1, [clear, moveOn, countUp], leaves⟩,
    ⟨entered, index, [clear, moveOn], countUp.node :: leaves⟩,
    ⟨entered ++ [clear.node, moveOn.node], cursor, [countUp], leaves⟩]

/-- The values that wait in registers in the code of a statement that is lowered from a state. -/
def waits (p : Pass) : Stmt → List Wait
  | .assign target left (some symbol) (some right) =>
    match BinaryOp.ofSymbol? symbol with
    | some op =>
      [t.pairWait (left.getD "") right fun first second =>
        (op.code (t.register target) first second).map (·.op.node) ++ t.store target (t.register target)]
    | none => []
  | .branch condition target operand2 operator =>
    match Stmt.given operator, Stmt.given operand2 with
    | some symbol, some right =>
      match BinaryOp.ofSymbol? symbol with
      | some op =>
        [t.pairWait condition right fun first second =>
          (op.code t.config.scratch0 first second).map (·.op.node) ++ [(Op.bnez t.config.scratch0 target).node]]
      | none => []
    | _, _ => []
  | .arrayLoad target array index =>
    let load : Op :=
      .load (t.symbols.elementType array).width (t.register target) (.base t.config.addressRegister)
    t.elementWaits array index (load.node :: t.store target (t.register target))
  | .arrayStore array index value => t.storeWaits array index value
  | .zeroFill array start stop => t.fillWaits array start stop (p.labels.generate "arr_pad" ["", "_end"]).1
  | _ => []

/-- A wait is a cut through the code of its statement. -/
theorem lines_of_mem_waits {p : Pass} {s : Stmt} {w : Wait} (member : w ∈ t.waits p s) : w.lines = t.codeFrom p s := by
  cases s with
  | assign target left operator right =>
    cases operator with
    | none => cases member
    | some symbol =>
      cases right with
      | none => cases member
      | some right =>
        simp only [waits, codeFrom, code, assignCode] at member ⊢
        cases known : BinaryOp.ofSymbol? symbol with
        | none =>
          rw [known] at member
          cases member
        | some op =>
          rw [known] at member
          obtain rfl := List.mem_singleton.mp member
          simp only [Wait.lines, pairWait, binaryCode, List.append_assoc]
  | branch condition target right operator =>
    simp only [waits, codeFrom, code, branchCode] at member ⊢
    cases given : Stmt.given operator with
    | none =>
      rw [given] at member
      cases member
    | some symbol =>
      cases given' : Stmt.given right with
      | none =>
        rw [given, given'] at member
        cases member
      | some right =>
        cases known : BinaryOp.ofSymbol? symbol with
        | none =>
          simp only [given, given', known] at member
          cases member
        | some op =>
          simp only [given, given', known] at member
          obtain rfl := List.mem_singleton.mp member
          simp only [Wait.lines, pairWait, relationCode, known, List.append_assoc]
  | arrayLoad target array index =>
    simp only [waits, elementWaits, List.mem_cons, List.not_mem_nil, or_false] at member
    rcases member with rfl | rfl
    · simp [Wait.lines, codeFrom, arrayLoadCode, elementCode]
    · simp [Wait.lines, codeFrom, arrayLoadCode, elementCode]
  | arrayStore array index value =>
    simp only [waits, storeWaits, elementWaits, List.mem_cons, List.not_mem_nil, or_false] at member
    rcases member with rfl | rfl | rfl
    · simp [Wait.lines, codeFrom, arrayStoreCode]
    · simp [Wait.lines, codeFrom, arrayStoreCode, elementCode]
    · simp [Wait.lines, codeFrom, arrayStoreCode, elementCode]
  | zeroFill array start stop =>
    simp only [waits, fillWaits, List.mem_cons, List.not_mem_nil, or_false] at member
    rcases member with rfl | rfl | rfl | rfl | rfl | rfl
    all_goals simp [Wait.lines, codeFrom, fillCode, cursorCode, fillLoop]
  | _ => cases member

end Tables

/-! ## Registers that are apart -/

namespace Config

/-- The register that takes a literal for which another one is wanted; an empty setting stands for none. -/
def literalFor (config : Config) (wanted : Register) : Register :=
  if wanted.isEmpty then config.scratch0 else wanted

theorem literalFor_scratch0 (config : Config) : config.literalFor config.scratch0 = config.scratch0 :=
  ite_self _

variable {config : Config} {r : Register}

theorem not_mem_pool_of_isSpecial (special : config.isSpecial r = true) : r ∉ config.pool := by
  intro pooled
  rw [config.isSpecial_of_mem_pool pooled] at special
  cases special

theorem ne_assemblerRegister (pooled : r ∈ config.pool) : r ≠ assemblerRegister := by
  rintro rfl
  exact config.not_mem_pool_of_reserved (by decide) pooled

variable (config)

theorem isSpecial_indexRegister : config.isSpecial config.indexRegister = true := by
  simp [Settings.isSpecial, config.indexRegister_mem]

/-- While a literal is fetched as the second operand, another one stays in its register. -/
def LiteralsApart : Prop :=
  config.scratch0 ≠ config.literalFor config.scratch1 ∧ config.scratch0 ≠ assemblerRegister

/-- The registers in which the address of an element is computed do not get into each other's way. -/
def ElementsApart : Prop :=
  config.addressRegister ∉ [config.literalFor config.indexRegister, config.indexRegister, config.scratch0,
      assemblerRegister] ∧
    config.literalFor config.indexRegister ≠ config.scratch0

/-- The registers of a fill do not get into each other's way. -/
def FillsApart : Prop :=
  config.addressRegister ∉ [config.literalFor config.indexRegister, config.indexRegister, config.scratch0,
      config.literalFor config.scratch1, assemblerRegister] ∧
    config.indexRegister ∉ [config.scratch0, config.literalFor config.scratch1, assemblerRegister]

instance : Decidable config.LiteralsApart :=
  inferInstanceAs (Decidable (_ ∧ _))

instance : Decidable config.ElementsApart :=
  inferInstanceAs (Decidable (_ ∧ _))

instance : Decidable config.FillsApart :=
  inferInstanceAs (Decidable (_ ∧ _))

end Config

namespace Tables

variable {t : Tables} {operand : String} {wanted r : Register}

/-- A fetch overwrites the register that it is for, and at most that of the assembler besides. -/
theorem overwrites_fetch {wanted : Option Register} {op : Op} (member : op ∈ (t.fetch operand wanted).2)
    (hit : op.overwrites r = true) : r = (t.fetch operand wanted).1 ∨ r = assemblerRegister := by
  -- Besides its destination, an operation that is expanded overwrites the register of the assembler.
  have only : ∀ dest, op.WritesTo dest → r = dest ∨ r = assemblerRegister := by
    intro dest writes
    simp only [Op.overwrites, Bool.or_eq_true, Bool.and_eq_true, beq_iff_eq] at hit
    rcases hit with hit | ⟨-, isAssembler⟩
    · rcases writes _ hit with same | lo | hi
      · cases same
        exact .inl rfl
      · cases lo
      · cases hi
    · exact .inr isAssembler
  unfold fetch at *
  cases sort : Operand.ofString (Text.stripped operand) with
  | immediate | float | text =>
    rw [sort] at member
    obtain rfl := List.mem_singleton.mp member
    exact only _ (Op.writesTo_of_sets? rfl)
  | name name =>
    rw [sort] at member
    simp only [fetchAs, load] at member
    split at member
    · cases member
    · split at member
      · obtain rfl := List.mem_singleton.mp member
        exact only _ (Op.writesTo_of_sets? rfl)
      · obtain rfl := List.mem_singleton.mp member
        exact only _ (Op.writesTo_of_sets? rfl)

theorem fetch_fst_of_name {name : String} (sort : Operand.ofFetched operand = .name name) (wanted : Option Register) :
    (t.fetch operand wanted).1 = t.register name := by
  rw [fetch_of_ofFetched sort]

/-- A name that has a cell is loaded into its register. -/
theorem fetch_of_cell {name : String} (sort : Operand.ofFetched operand = .name name)
    (cell : t.symbols.isInMemory name = true) (wanted : Option Register) :
    ∃ op, t.fetch operand wanted = (t.register name, [op]) ∧ op.sets? = some (t.register name) := by
  rw [SymbolTable.isInMemory_eq_cell?] at cell
  obtain ⟨entry, found⟩ := Option.isSome_iff_exists.mp cell
  cases array : entry.isArray with
  | true => exact ⟨.la _ name, by simp [fetch_of_ofFetched sort, load, found, array], rfl⟩
  | false =>
    exact ⟨.load entry.type.width _ (.label name), by simp [fetch_of_ofFetched sort, load, found, array], rfl⟩

section

variable (scratch : t.registers.scratch = t.config.scratch)

include scratch

theorem literalRegister_eq (wanted : Register) :
    t.registers.literalRegister (some wanted) = t.config.literalFor wanted := by
  simp only [RegisterFile.literalRegister, scratch]
  rfl

theorem fetch_fst_of_literal (literal : (Operand.ofFetched operand).names = []) (wanted : Register) :
    (t.fetch operand (some wanted)).1 = t.config.literalFor wanted := by
  rw [← literalRegister_eq scratch]
  show (t.fetchAs _ (Operand.ofFetched operand)).1 = _
  cases sort : Operand.ofFetched operand with
  | name name => simp [sort, Operand.names] at literal
  | _ => rfl

variable (bound : ∀ name ∈ (Operand.ofFetched operand).names, t.Bound name)

include bound

/-- An operand is not brought into a register with another part, if literals are not. -/
theorem fetch_fst_ne (special : t.config.isSpecial r = true) (apart : t.config.literalFor wanted ≠ r) :
    (t.fetch operand (some wanted)).1 ≠ r := by
  cases sort : Operand.ofFetched operand with
  | name name =>
    rw [fetch_fst_of_name sort]
    rintro rfl
    exact Config.not_mem_pool_of_isSpecial special (bound name (by simp [sort, Operand.names])).pooled
  | _ =>
    rw [fetch_fst_of_literal scratch (by rw [sort]; rfl)]
    exact apart

theorem kept_fetch (special : t.config.isSpecial r = true) (apart : t.config.literalFor wanted ≠ r)
    (spare : r ≠ assemblerRegister) : ∀ op ∈ (t.fetch operand (some wanted)).2, op.overwrites r = false := by
  intro op member
  by_contra hit
  rcases overwrites_fetch member (by simpa using hit) with same | same
  · exact fetch_fst_ne scratch bound special apart same.symm
  · exact spare same

end

theorem isWide_elementSize (symbols : SymbolTable) (array : String) :
    isWide (symbols.elementSize array).repr = false := by
  have size : symbols.elementSize array ≤ 4 := by
    unfold SymbolTable.elementSize
    cases symbols.lookup? array with
    | none => decide
    | some s => cases type : s.type <;> simp [Symbol.elementSize, type, ValueType.size, ValueType.width, Width.bytes]
  have lower : -32768 ≤ (symbols.elementSize array : Int) := by omega
  have upper : (symbols.elementSize array : Int) < 65536 := by omega
  rw [isWide, ← Nat.toString_eq_repr, integer?_elementSize, Option.any_some, decide_eq_true lower, decide_eq_true upper]
  rfl

/-! ## Statements whose values are kept -/

section

variable (scratch : t.registers.scratch = t.config.scratch) {array index value start stop loop : String}

include scratch

theorem kept_pairWait {left right : String} (apart : t.config.LiteralsApart)
    (first : (Operand.ofFetched left).names = []) (second : (Operand.ofFetched right).names = [])
    (back : Register → Register → List Node) : (t.pairWait left right back).Kept := by
  have register : (t.pairWait left right back).register = t.config.scratch0 := by
    rw [← t.config.literalFor_scratch0]
    exact fetch_fst_of_literal scratch first t.config.scratch0
  rw [Wait.Kept, register]
  exact kept_fetch scratch (by simp [second]) t.config.isSpecial_roles.2 apart.1.symm apart.2

theorem kept_elementWaits (apart : t.config.ElementsApart)
    (bound : ∀ name ∈ (Operand.ofFetched index).names, t.Bound name) (back : List Node) :
    ∀ w ∈ t.elementWaits array index back, w.Kept := by
  obtain ⟨base, fetched⟩ := apart
  simp only [List.mem_cons, List.not_mem_nil, or_false, not_or] at base
  obtain ⟨notLiteral, notIndex, notScratch, spare⟩ := base
  simp only [elementWaits, List.mem_cons, List.not_mem_nil, or_false]
  rintro w (rfl | rfl) op member
  · rcases List.mem_append.mp member with member | member
    · exact kept_fetch scratch bound t.config.isSpecial_roles.1 (Ne.symm notLiteral) spare op member
    · simp only [List.mem_cons, List.not_mem_nil, or_false] at member
      rcases member with rfl | rfl
      · simp [Op.overwrites, Op.writes, spare, notScratch]
      · simp [Op.overwrites, Op.writes, Op.isExpanded, notIndex]
  · obtain rfl := List.mem_singleton.mp member
    have other := fetch_fst_ne scratch bound t.config.isSpecial_roles.2 fetched
    simp [Op.overwrites, Op.writes, Op.isExpanded, isWide_elementSize, other]

theorem kept_storeWaits (apart : t.config.ElementsApart)
    (bound : ∀ name ∈ (Operand.ofFetched index).names, t.Bound name)
    (bound' : ∀ name ∈ (Operand.ofFetched value).names, t.Bound name) :
    ∀ w ∈ t.storeWaits array index value, w.Kept := by
  have base := apart.1
  simp only [List.mem_cons, List.not_mem_nil, or_false, not_or] at base
  obtain ⟨-, -, notScratch, spare⟩ := base
  intro w member
  rcases List.mem_cons.mp member with rfl | member
  · refine kept_fetch scratch bound' t.config.isSpecial_roles.1 ?_ spare
    rw [t.config.literalFor_scratch0]
    exact Ne.symm notScratch
  · exact kept_elementWaits scratch apart bound _ w member

theorem kept_fillWaits (apart : t.config.FillsApart)
    (bound : ∀ name ∈ (Operand.ofFetched start).names, t.Bound name)
    (bound' : ∀ name ∈ (Operand.ofFetched stop).names, t.Bound name) :
    ∀ w ∈ t.fillWaits array start stop loop, w.Kept := by
  obtain ⟨base, index⟩ := apart
  simp only [List.mem_cons, List.not_mem_nil, or_false, not_or] at base index
  obtain ⟨notStart, notIndex, notScratch, notStop, spare⟩ := base
  obtain ⟨indexScratch, indexStop, indexSpare⟩ := index
  have special := t.config.isSpecial_roles.1
  have special' := t.config.isSpecial_indexRegister
  have first := kept_fetch scratch bound special (Ne.symm notStart) spare
  have last := kept_fetch scratch bound' special (Ne.symm notStop) spare
  have last' := kept_fetch scratch bound' special' (Ne.symm indexStop) indexSpare
  have other := fetch_fst_ne scratch bound' special (Ne.symm notStop)
  have other' := fetch_fst_ne scratch bound' special' (Ne.symm indexStop)
  have move : ∀ op ∈ moveCode t.config.indexRegister (t.fetch start (some t.config.indexRegister)).1,
      op.overwrites t.config.addressRegister = false := by
    intro op member
    unfold moveCode at member
    split at member
    · obtain rfl := List.mem_singleton.mp member
      simp [Op.overwrites, Op.writes, Op.isExpanded, notIndex]
    · cases member
  simp only [fillWaits, List.mem_cons, List.not_mem_nil, or_false]
  -- In the order of the code: the address until the cursor is placed, the index until the loop, the cursor until the
  -- loop, and in the loop the last index, the index and the cursor.
  rintro w (rfl | rfl | rfl | rfl | rfl | rfl)
  · simp only [Wait.Kept, List.mem_append, List.mem_cons, List.not_mem_nil, or_false]
    rintro op ((member | member) | rfl | rfl)
    · exact first op member
    · exact move op member
    · simp [Op.overwrites, Op.writes, notScratch, spare]
    · simp [Op.overwrites, Op.writes, Op.isExpanded, notScratch]
  · simp only [Wait.Kept, List.mem_append, List.mem_cons, List.not_mem_nil, or_false]
    rintro op ((rfl | rfl | rfl) | member)
    · simp [Op.overwrites, Op.writes, indexScratch, indexSpare]
    · simp [Op.overwrites, Op.writes, Op.isExpanded, indexScratch]
    · simp [Op.overwrites, Op.writes, Op.isExpanded, Ne.symm notIndex]
    · exact last' op member
  · exact last
  · simp [Wait.Kept, Op.overwrites, Op.writes, Op.isExpanded, other, other']
  · simp [Wait.Kept, Op.overwrites, Op.writes, Op.isExpanded, Ne.symm notIndex]
  · simp [Wait.Kept, Op.overwrites, Op.writes, Op.isExpanded, notIndex]

end

end Tables

/-! ## Steps -/

/-- Two operands are fetched one after the other, and nothing else is to wait. -/
theorem Stmt.waits_of_pair {s : Stmt} {left right : String} (pair : s.pair? = some (left, right)) {t : Tables}
    {p : Pass} {w : Wait} (member : w ∈ t.waits p s) :
    (∃ back, w = t.pairWait left right back) ∧ ∀ symbols queue,
      .ofFetched left ∈ (s.demand symbols queue).operands ∧ .ofFetched right ∈ (s.demand symbols queue).operands := by
  cases s with
  | assign target operand1 operator operand2 =>
    cases operand1 <;> cases operator <;> cases operand2 <;> cases pair
    next symbol =>
      simp only [Tables.waits] at member
      cases known : BinaryOp.ofSymbol? symbol with
      | none =>
        rw [known] at member
        cases member
      | some op =>
        rw [known] at member
        refine ⟨⟨_, List.mem_singleton.mp member⟩, fun symbols queue => ?_⟩
        simp only [demand, known, Option.isSome_some, if_true]
        exact ⟨List.mem_cons_self, List.mem_cons_of_mem _ List.mem_cons_self⟩
  | branch condition target operand2 operator =>
    cases operand2 <;> cases operator <;> cases pair
    simp only [Tables.waits] at member
    split at member
    next symbol second given given' =>
      obtain rfl := Option.some.inj (eq_of_given given')
      cases known : BinaryOp.ofSymbol? symbol with
      | none =>
        simp only [known] at member
        cases member
      | some op =>
        simp only [known] at member
        refine ⟨⟨_, List.mem_singleton.mp member⟩, fun symbols queue => ?_⟩
        simp only [demand, given, given', known, Option.isSome_some, if_true]
        exact ⟨List.mem_cons_self, List.mem_cons_of_mem _ List.mem_cons_self⟩
    next => cases member
  | _ => cases pair

namespace TraceStep

variable (s : TraceStep)

/-- A step that fetches two different literals. -/
def PairsLiterals : Prop :=
  ∃ left right, s.stmt.pair? = some (left, right) ∧ Text.stripped left ≠ Text.stripped right ∧
    (Operand.ofFetched left).names = [] ∧ (Operand.ofFetched right).names = []

/-- A step that fetches two different names, when at most so many names are in use. -/
def PairsNames (limit : Nat) : Prop :=
  ∃ left right first second, s.stmt.pair? = some (left, right) ∧ Operand.ofFetched left = .name first ∧
    Operand.ofFetched right = .name second ∧ first ≠ second ∧ s.after.registers.names.length ≤ limit

/-- A step that reads or writes an element of an array. -/
def AccessesElement : Prop :=
  (∃ target array index, s.stmt = .arrayLoad target array index) ∨
    ∃ array index value, s.stmt = .arrayStore array index value

/-- A step that fills a part of an array with zeros. -/
def Fills : Prop :=
  ∃ array start stop, s.stmt = .zeroFill array start stop

/-- The tables under which the code of a step is settled know the settings and what the step has asked for. -/
structure Settled (t : Tables) : Prop where
  draws : s.after.registers.DrawsOn t.config
  scratch : t.registers.scratch = t.config.scratch
  later : s.after.registers.Extends t.registers
  names : ∀ name ∈ s.demand.names, name ∈ s.after.registers.names

variable {s} {t : Tables}

theorem Settled.lookup? (settled : s.Settled t) {name : String} (asked : name ∈ s.demand.names) :
    ∃ r, s.after.registers.lookup? name = some r ∧ t.registers.lookup? name = some r := by
  obtain ⟨r, found⟩ := Option.isSome_iff_exists.mp (RegisterFile.lookup?_isSome.mpr (settled.names name asked))
  exact ⟨r, found, settled.later.lookup? found⟩

theorem Settled.bound (settled : s.Settled t) {name : String} (asked : name ∈ s.demand.names) : t.Bound name := by
  obtain ⟨r, -, found⟩ := settled.lookup? asked
  exact ⟨r, (settled.later.drawsOn settled.draws).mem_pool found, found⟩

theorem Settled.bound_fetched (settled : s.Settled t) {operand : String}
    (asked : .ofFetched operand ∈ s.demand.operands) : ∀ name ∈ (Operand.ofFetched operand).names, t.Bound name := by
  intro name named
  exact settled.bound (List.mem_append_right _ (List.mem_flatMap.mpr ⟨_, asked, named⟩))

end TraceStep

theorem Chain.settledTables {config : Config} {program : Program} {steps : List TraceStep} {q : Pass}
    (chain : Chain (Pass.ready config program) steps q) : ∀ s ∈ steps, s.Settled (q.tablesAt s) := by
  intro s member
  obtain ⟨first, second, rfl⟩ := List.append_of_mem member
  obtain ⟨before, ran, later⟩ := chain.around
  obtain ⟨same, draws, -⟩ := (before.concat ran).settings
  obtain ⟨same', -, scratch⟩ := chain.settings
  rw [same, ← same'] at draws
  exact ⟨draws, scratch, later.growth.registers, fun name asked => ((Lower.meets_line ran).bound name).mpr (.inr asked)⟩

/-! ## Settings under which values are kept -/

namespace Config

/-- In every program that is lowered, all values are kept that wait in the code of certain steps. -/
def Keeps (config : Config) (asked : TraceStep → Prop) : Prop :=
  ∀ program listing p, lowerProgram config program = (.ok listing, p) →
    ∀ s ∈ (traceProgram config program).1, asked s →
      ∀ w ∈ (p.tablesAt s).waits s.before s.stmt, s.nodes.map Node.bare = w.lines ∧ w.Kept

variable {config : Config} {asked : TraceStep → Prop}

theorem keeps_of_settled (kept : ∀ s t p, t.config = config → s.Settled t → asked s →
    ∀ w ∈ t.waits p s.stmt, w.Kept) : config.Keeps asked := by
  intro program listing p lowered s member asks w waits
  obtain ⟨q, ran, -, rfl⟩ := lowerProgram_iff.mp ⟨listing, lowered⟩
  obtain ⟨chain, -⟩ := chain_traceFrom ran
  refine ⟨?_, kept s (q.tablesAt s) s.before chain.settings.1 (chain.settledTables s member) asks w waits⟩
  rw [chain.laid s member]
  exact (Tables.lines_of_mem_waits _ waits).symm

theorem keeps_literals (apart : config.LiteralsApart) : config.Keeps TraceStep.PairsLiterals := by
  apply keeps_of_settled
  rintro s t p rfl settled ⟨left, right, pair, -, first, second⟩ w waits
  obtain ⟨⟨back, rfl⟩, -⟩ := Stmt.waits_of_pair pair waits
  exact Tables.kept_pairWait settled.scratch apart first second back

theorem keeps_elements (apart : config.ElementsApart) : config.Keeps TraceStep.AccessesElement := by
  apply keeps_of_settled
  rintro s t p rfl settled (⟨target, array, index, load⟩ | ⟨array, index, value, store⟩) w waits
  · rw [load] at waits
    refine Tables.kept_elementWaits settled.scratch apart (settled.bound_fetched ?_) _ w waits
    rw [TraceStep.demand, load]
    exact List.mem_cons_self
  · rw [store] at waits
    refine Tables.kept_storeWaits settled.scratch apart (settled.bound_fetched ?_) (settled.bound_fetched ?_) w waits
    · rw [TraceStep.demand, store]
      exact List.mem_cons_self
    · rw [TraceStep.demand, store]
      exact List.mem_cons_of_mem _ List.mem_cons_self

theorem keeps_fills (apart : config.FillsApart) : config.Keeps TraceStep.Fills := by
  apply keeps_of_settled
  rintro s t p rfl settled ⟨array, start, stop, fill⟩ w waits
  rw [fill] at waits
  refine Tables.kept_fillWaits settled.scratch apart (settled.bound_fetched ?_) (settled.bound_fetched ?_) w waits
  · rw [TraceStep.demand, fill]
    exact List.mem_cons_self
  · rw [TraceStep.demand, fill]
    exact List.mem_cons_of_mem _ List.mem_cons_self

/-- Names that have different registers are fetched one after the other without loss. -/
theorem keeps_names {limit : Nat} (enough : limit ≤ config.pool.length) (distinct : (config.pool.take limit).Nodup) :
    config.Keeps (·.PairsNames limit) := by
  apply keeps_of_settled
  rintro s t p rfl settled ⟨left, right, first, second, pair, sort, sort', different, few⟩ w waits
  obtain ⟨⟨back, rfl⟩, asked⟩ := Stmt.waits_of_pair pair waits
  obtain ⟨asked, asked'⟩ := asked s.before.symbols s.before.params
  have named : first ∈ s.demand.names := Demand.mem_names.mpr (.inr (sort ▸ asked))
  have named' : second ∈ s.demand.names := Demand.mem_names.mpr (.inr (sort' ▸ asked'))
  intro op member
  by_contra hit
  have register : (t.pairWait left right back).register = t.register first := Tables.fetch_fst_of_name sort _
  rw [register, Bool.not_eq_false] at hit
  rcases Tables.overwrites_fetch member hit with same | same
  · rw [Tables.fetch_fst_of_name sort'] at same
    obtain ⟨r, found, held⟩ := settled.lookup? named
    obtain ⟨r', found', held'⟩ := settled.lookup? named'
    obtain rfl : r = r' := by simpa [Tables.register, held, held'] using same
    rw [← settled.draws.pool] at enough distinct
    exact different (settled.draws.sound.apart_of_take few enough distinct first second r found found')
  · exact ne_assemblerRegister (settled.bound named).pooled same

end Config

/-! ## Programs that lose values -/

/-- Statements that break no pass and use no labels are lowered. -/
theorem exists_lowered {config : Config} {program : Program} (filled : ∀ l ∈ program, l.stmt.Filled)
    (whole : ∀ l ∈ program, ∀ history, ¬ l.stmt.Breaks config history)
    (unlabelled : ∀ l ∈ program, l.stmt.usedLabel? = none) :
    ∃ listing p, lowerProgram config program = (.ok listing, p) := by
  have unbroken : program.Indexed ∧ program.Sized config := by
    rw [← Program.unbroken_iff filled]
    rintro before l after rfl
    exact whole l (by simp) _
  have complete : ¬ program.Misses config := by
    rintro ⟨-, label, used, -⟩
    obtain ⟨l, member, same⟩ := List.mem_filterMap.mp used
    rw [unlabelled l member] at same
    cases same
  obtain ⟨listing, succeeded⟩ := (lowerProgram_succeeds_iff filled).mpr ⟨unbroken.1, unbroken.2, complete⟩
  exact ⟨listing, _, Prod.ext succeeded rfl⟩

/-- A literal that takes one instruction and a literal of the pool, which takes two. -/
theorem Operand.ofFetched_samples :
    ofFetched "1" = .immediate "1" ∧ ofFetched "2.5" = .float "2.5" := by
  simp only [ofFetched, ofString]
  decide

namespace Tables

variable {t : Tables} (scratch : t.registers.scratch = t.config.scratch) (wanted : Register)

include scratch

theorem fetch_one :
    t.fetch "1" (some wanted) = (t.config.literalFor wanted, [.li (t.config.literalFor wanted) "1"]) := by
  show t.fetchAs _ (Operand.ofFetched "1") = _
  rw [Operand.ofFetched_samples.1, literalRegister_eq scratch]
  rfl

theorem fetch_half : ∃ label, t.fetch "2.5" (some wanted) =
    (t.config.literalFor wanted, [.load .word (t.config.literalFor wanted) (.label label)]) := by
  refine ⟨t.literal .float "2.5", ?_⟩
  show t.fetchAs _ (Operand.ofFetched "2.5") = _
  rw [Operand.ofFetched_samples.2, literalRegister_eq scratch]
  rfl

end Tables

namespace Config

variable {config : Config} {asked : TraceStep → Prop}

/-- What is kept in every program is kept in a program of one statement. -/
theorem Keeps.of_stmt (keeps : config.Keeps asked) (stmt : Stmt) (filled : stmt.Filled)
    (whole : ∀ history, ¬ stmt.Breaks config history) (unlabelled : stmt.usedLabel? = none)
    (asks : ∀ s : TraceStep, s.stmt = stmt → asked s) :
    ∃ (t : Tables) (p : Pass), t.config = config ∧ t.registers.scratch = t.config.scratch ∧
      ∀ w ∈ t.waits p stmt, w.Kept := by
  obtain ⟨listing, p, lowered⟩ := @exists_lowered config [⟨"", stmt⟩] (by simpa using filled)
    (by simpa using whole) (by simpa using unlabelled)
  obtain ⟨q, ran, -, rfl⟩ := lowerProgram_iff.mp ⟨listing, lowered⟩
  obtain ⟨chain, lines⟩ := chain_traceFrom ran
  obtain ⟨s, only, line⟩ := List.map_eq_singleton_iff.mp lines
  have member : s ∈ (traceProgram config [⟨"", stmt⟩]).1 := by
    show s ∈ traceFrom (Pass.ready config _) _
    rw [only]
    exact List.mem_singleton.mpr rfl
  have same : s.stmt = stmt := congrArg Line.stmt line
  refine ⟨q.tablesAt s, s.before, chain.settings.1, chain.settings.2.2, fun w waits => ?_⟩
  exact (keeps _ listing _ lowered s member (asks s same) w (same ▸ waits)).2

theorem literalsApart_of_keeps (keeps : config.Keeps TraceStep.PairsLiterals) : config.LiteralsApart := by
  have sorts := Operand.ofFetched_samples
  obtain ⟨t, p, rfl, scratch, kept⟩ := keeps.of_stmt (.assign "x" (some "1") (some "+") (some "2.5"))
    ⟨by decide, ⟨_, rfl, by decide⟩, by rintro _ ⟨⟩; decide⟩ (fun _ => id) rfl fun s same =>
      ⟨"1", "2.5", by rw [same]; rfl, by decide, by rw [sorts.1]; rfl, by rw [sorts.2]; rfl⟩
  obtain ⟨label, half⟩ := Tables.fetch_half scratch t.config.scratch1
  have kept := kept _ List.mem_cons_self
  simp only [Wait.Kept, Tables.pairWait, Option.getD_some, Tables.fetch_one scratch, half, literalFor_scratch0,
    List.forall_mem_singleton] at kept
  exact ⟨Op.ne_of_not_overwrites kept rfl, Op.ne_assemblerRegister kept rfl⟩

theorem elementsApart_of_keeps (keeps : config.Keeps TraceStep.AccessesElement) : config.ElementsApart := by
  obtain ⟨t, p, rfl, scratch, kept⟩ := keeps.of_stmt (.arrayStore "a" "2.5" "1")
    ⟨by decide, by decide⟩ (fun _ => id) rfl fun s same => .inr ⟨_, _, _, same⟩
  obtain ⟨label, half⟩ := Tables.fetch_half scratch t.config.indexRegister
  simp only [Tables.waits, Tables.storeWaits, Tables.elementWaits, List.forall_mem_cons] at kept
  obtain ⟨-, base, index, -⟩ := kept
  simp only [Wait.Kept, half, List.cons_append, List.nil_append, List.forall_mem_cons] at base index
  obtain ⟨fetch, size, offset, -⟩ := base
  simp only [ElementsApart, List.mem_cons, List.not_mem_nil, or_false, not_or]
  exact ⟨⟨Op.ne_of_not_overwrites fetch rfl, Op.ne_of_not_overwrites offset rfl, Op.ne_of_not_overwrites size rfl,
    Op.ne_assemblerRegister fetch rfl⟩, Op.ne_of_not_overwrites index.1 rfl⟩

theorem fillsApart_of_keeps (keeps : config.Keeps TraceStep.Fills) : config.FillsApart := by
  obtain ⟨t, p, rfl, scratch, kept⟩ := keeps.of_stmt (.zeroFill "a" "1" "2.5")
    ⟨by decide, by decide⟩ (fun _ => id) rfl fun s same => ⟨_, _, _, same⟩
  obtain ⟨label, half⟩ := Tables.fetch_half scratch t.config.scratch1
  simp only [Tables.waits, Tables.fillWaits, List.forall_mem_cons] at kept
  obtain ⟨base, index, cursor, -, -, round, -⟩ := kept
  simp only [Wait.Kept, Tables.fetch_one scratch, half, List.cons_append, List.nil_append, List.forall_mem_append,
    List.forall_mem_cons] at base index cursor round
  obtain ⟨start, -, -, offset, -⟩ := base
  obtain ⟨-, offset', -, stop', -⟩ := index
  obtain ⟨stop, -⟩ := cursor
  simp only [FillsApart, List.mem_cons, List.not_mem_nil, or_false, not_or]
  exact ⟨⟨Op.ne_of_not_overwrites start rfl, Op.ne_of_not_overwrites round.1 rfl, Op.ne_of_not_overwrites offset rfl,
      Op.ne_of_not_overwrites stop rfl, Op.ne_assemblerRegister stop rfl⟩,
    Op.ne_of_not_overwrites offset' rfl, Op.ne_of_not_overwrites stop' rfl, Op.ne_assemblerRegister stop' rfl⟩

end Config

/-! ### As many names as wanted -/

/-- A name of so many letters and one more. -/
def spareName (k : Nat) : String :=
  String.ofList (List.replicate (k + 1) 'n')

theorem isVariableName_spareName (k : Nat) : isVariableName (spareName k) = true := by
  have letters : ∀ c ∈ List.replicate k 'n', (Text.isWordChar c || c == '.') = true := by
    intro c member
    rw [List.eq_of_mem_replicate member]
    decide
  simp only [isVariableName, spareName, String.toList_ofList, List.replicate_succ, Lexeme.isIdentifier,
    List.all_eq_true.mpr letters]
  rfl

theorem spareName_injective : Function.Injective spareName := by
  intro j k same
  have lengths := congrArg (·.toList.length) same
  simpa [spareName] using lengths

theorem ofFetched_spareName (k : Nat) : Operand.ofFetched (spareName k) = .name (spareName k) :=
  Operand.ofFetched_of_name (ofString_of_isVariableName (isVariableName_spareName k))

/-- Adds a name to another one. -/
def sumStmt (j k : Nat) : Stmt :=
  .assign (spareName j) (some (spareName j)) (some "+") (some (spareName k))

theorem names_sumStmt (j k : Nat) (symbols : SymbolTable) (queue : List String) :
    ((sumStmt j k).demand symbols queue).names = [spareName j, spareName j, spareName k] := by
  show [spareName j] ++ [Operand.ofFetched (spareName j), .ofFetched (spareName k)].flatMap Operand.names = _
  simp [ofFetched_spareName, Operand.names]

/-- Declares so many names and adds each of them to each. -/
def sumsOfAll (count : Nat) : Program :=
  (List.range count).map (fun k => ⟨"", .declare (spareName k) none false⟩) ++
    (List.range count).flatMap fun j => (List.range count).map fun k => ⟨"", sumStmt j k⟩

theorem mem_sumsOfAll {count : Nat} {l : Line} : l ∈ sumsOfAll count ↔
    (∃ k < count, l = ⟨"", .declare (spareName k) none false⟩) ∨ ∃ j < count, ∃ k < count, l = ⟨"", sumStmt j k⟩ := by
  simp [sumsOfAll, eq_comm]

section

variable {config : Config} {count : Nat}

theorem filled_sumsOfAll : ∀ l ∈ sumsOfAll count, l.stmt.Filled := by
  have nonempty : ∀ k, spareName k ≠ "" := by simp [spareName]
  have filled : ∀ k, Text.Filled (spareName k) := by
    intro k
    rw [Text.Filled, stripped_of_isVariableName (isVariableName_spareName k)]
    exact nonempty k
  intro l member
  rcases mem_sumsOfAll.mp member with ⟨k, -, rfl⟩ | ⟨j, -, k, -, rfl⟩
  · trivial
  · refine ⟨nonempty j, ⟨_, rfl, filled j⟩, ?_⟩
    rintro _ ⟨⟩
    exact filled k

theorem lowered_sumsOfAll : ∃ listing p, lowerProgram config (sumsOfAll count) = (.ok listing, p) := by
  apply exists_lowered filled_sumsOfAll
  · intro l member history
    rcases mem_sumsOfAll.mp member with ⟨k, -, rfl⟩ | ⟨j, -, k, -, rfl⟩
    · exact id
    · exact id
  · intro l member
    rcases mem_sumsOfAll.mp member with ⟨k, -, rfl⟩ | ⟨j, -, k, -, rfl⟩
    · rfl
    · rfl

variable {steps : List TraceStep} {q : Pass} (chain : Chain (Pass.ready config (sumsOfAll count)) steps q)
  (lines : steps.map TraceStep.line = sumsOfAll count)

include chain lines

/-- All names are in use at the end, and no others. -/
theorem names_sumsOfAll : q.registers.names.Perm ((List.range count).map spareName) := by
  have distinct : q.registers.names.Nodup := chain.settings.2.1.sound.distinct
  refine (List.perm_ext_iff_of_nodup distinct (List.nodup_range.map spareName_injective)).mpr fun name => ?_
  have fresh : name ∉ (Pass.ready config (sumsOfAll count)).registers.names := List.not_mem_nil
  rw [chain.meets.1.bound, or_iff_right fresh, Demand.mem_names_ofSteps, List.mem_map]
  constructor
  · rintro ⟨s, member, named⟩
    rcases mem_sumsOfAll.mp (lines ▸ List.mem_map_of_mem member) with ⟨k, -, line⟩ | ⟨j, below, k, below', line⟩
    · rw [TraceStep.demand, TraceStep.stmt, line] at named
      cases named
    · rw [TraceStep.demand, TraceStep.stmt, line, names_sumStmt] at named
      simp only [List.mem_cons, List.not_mem_nil, or_false] at named
      rcases named with rfl | rfl | rfl
      · exact ⟨j, List.mem_range.mpr below, rfl⟩
      · exact ⟨j, List.mem_range.mpr below, rfl⟩
      · exact ⟨k, List.mem_range.mpr below', rfl⟩
  -- Each name is added to itself somewhere, so it is asked for.
  · rintro ⟨k, below, rfl⟩
    have below := List.mem_range.mp below
    have listed : ⟨"", sumStmt k k⟩ ∈ sumsOfAll count := mem_sumsOfAll.mpr (.inr ⟨k, below, k, below, rfl⟩)
    obtain ⟨s, member, line⟩ := List.mem_map.mp (lines ▸ listed)
    refine ⟨s, member, ?_⟩
    rw [TraceStep.demand, TraceStep.stmt, line, names_sumStmt]
    exact List.mem_cons_self

/-- Every name has a cell when its turn comes to be added. -/
theorem isInMemory_sumsOfAll {j k : Nat} (below : j < count) (below' : k < count) :
    ∃ s ∈ steps, s.stmt = sumStmt j k ∧ s.after.symbols.isInMemory (spareName k) = true := by
  obtain ⟨first, second, rfl, declares, sums⟩ := List.map_eq_append_iff.mp lines
  obtain ⟨s, member, line⟩ : ∃ s ∈ second, s.line = ⟨"", sumStmt j k⟩ := by
    rw [← List.mem_map, sums]
    exact List.mem_flatMap.mpr ⟨j, List.mem_range.mpr below, List.mem_map.mpr ⟨k, List.mem_range.mpr below', rfl⟩⟩
  obtain ⟨before, after, rfl⟩ := List.append_of_mem member
  rw [← List.append_assoc] at chain
  obtain ⟨early, ran, -⟩ := chain.around
  have ranTo := (early.concat ran).run_lines
  have filled : ∀ l ∈ (first ++ before ++ [s]).map TraceStep.line, l.stmt.Filled := by
    intro l member
    apply @filled_sumsOfAll count
    rw [← lines]
    simp only [List.map_append, List.map_cons, List.map_nil, List.mem_append, List.mem_cons, List.not_mem_nil,
      or_false] at member ⊢
    tauto
  refine ⟨s, by simp, congrArg Line.stmt line, ?_⟩
  rw [(Lower.lines_ok (Pass.after_ready _ _) filled ranTo).cells, List.mem_flatMap]
  refine ⟨.declare (spareName k) none false, ?_, List.mem_singleton.mpr rfl⟩
  -- All declarations come before the first sum.
  have declared : ⟨"", .declare (spareName k) none false⟩ ∈ first.map TraceStep.line := by
    rw [declares]
    exact List.mem_map.mpr ⟨k, List.mem_range.mpr below', rfl⟩
  obtain ⟨s', member', line'⟩ := List.mem_map.mp declared
  simp only [List.nil_append, List.map_map]
  exact List.mem_map.mpr ⟨s', by simp [member'], congrArg Line.stmt line'⟩

end

/-- The second of two names with the same register is loaded over the first. -/
theorem Config.nodup_of_keeps {config : Config} {limit : Nat} (enough : limit ≤ config.pool.length)
    (keeps : config.Keeps (·.PairsNames limit)) : (config.pool.take limit).Nodup := by
  -- The program that adds every name to every name uses as many registers of the pool as there are names.
  obtain ⟨listing, p, lowered⟩ := @lowered_sumsOfAll config limit
  obtain ⟨q, ran, -, rfl⟩ := lowerProgram_iff.mp ⟨listing, lowered⟩
  obtain ⟨chain, lines⟩ := chain_traceFrom ran
  have perm := names_sumsOfAll chain lines
  have length : q.registers.names.length = limit := by simpa using perm.length_eq
  obtain ⟨same, draws, -⟩ := chain.settings
  rw [same] at draws
  have named : ∀ i < limit, ∃ k < limit, q.registers.names[i]? = some (spareName k) ∧
      (config.pool.take limit)[i]? = q.registers.lookup? (spareName k) := by
    intro i below
    have inside : i < q.registers.names.length := length ▸ below
    obtain ⟨k, below', isName⟩ := List.mem_map.mp (perm.mem_iff.mp (List.getElem_mem inside))
    have listed : q.registers.names[i]? = some (spareName k) := by rw [List.getElem?_eq_getElem inside, isName]
    refine ⟨k, List.mem_range.mp below', listed, ?_⟩
    rw [List.getElem?_take_of_lt below, draws.sound.lookup?_of_getElem? listed, draws.pool,
      ← RegisterFile.getElem?_pool config.pool_ne_nil, Nat.min_eq_left (by omega)]
  -- Were two of these registers the same, then loading the second name of a sum would overwrite the first.
  refine List.nodup_iff_getElem?_ne_getElem?.mpr fun i j less below equal => ?_
  rw [List.length_take] at below
  obtain ⟨j', low, listed, register⟩ := named i (by omega)
  obtain ⟨k', low', listed', register'⟩ := named j (by omega)
  obtain ⟨s, member, stmt, cell⟩ := isInMemory_sumsOfAll chain lines low low'
  have different : spareName j' ≠ spareName k' := by
    intro one
    rw [one, ← listed'] at listed
    exact less.ne ((List.getElem?_inj (by omega) draws.sound.distinct).mp listed)
  have few : s.after.registers.names.length ≤ limit := length ▸ (chain.settledTables s member).later.names.length_le
  obtain ⟨-, kept⟩ := keeps _ listing _ lowered s member
    ⟨_, _, _, _, by rw [stmt]; rfl, ofFetched_spareName j', ofFetched_spareName k', different, few⟩ _
    (by rw [stmt]; exact List.mem_cons_self)
  obtain ⟨op, fetched, sets⟩ := @Tables.fetch_of_cell (q.tablesAt s) _ _ (ofFetched_spareName k') cell
    (some q.config.scratch1)
  have safe : op.overwrites ((q.tablesAt s).register (spareName j')) = false := by
    have between : op ∈ ((q.tablesAt s).fetch (spareName k') (some q.config.scratch1)).2 := by simp [fetched]
    rw [← Tables.fetch_fst_of_name (ofFetched_spareName j') (some q.config.scratch0)]
    exact kept op between
  apply Op.ne_of_not_overwrites safe sets
  rw [register, register'] at equal
  exact congrArg (·.getD "") equal

/-- Accepted settings keep what waits in registers exactly if certain registers are apart: for two literals the
    registers that take them, for two names those of the pool that are in use, and for elements and fills those of
    the address, of the index and of literals. -/
theorem registers_held_iff (config : Config) :
    (config.Keeps TraceStep.PairsLiterals ↔ config.LiteralsApart) ∧
    (∀ limit ≤ config.pool.length, config.Keeps (·.PairsNames limit) ↔ (config.pool.take limit).Nodup) ∧
    (config.Keeps TraceStep.AccessesElement ↔ config.ElementsApart) ∧
    (config.Keeps TraceStep.Fills ↔ config.FillsApart) :=
  ⟨⟨Config.literalsApart_of_keeps, Config.keeps_literals⟩,
    fun _ enough => ⟨Config.nodup_of_keeps enough, Config.keeps_names enough⟩,
    ⟨Config.elementsApart_of_keeps, Config.keeps_elements⟩, ⟨Config.fillsApart_of_keeps, Config.keeps_fills⟩⟩

theorem standard_registers_held :
    8 ≤ (Config.standard false).pool.length ∧ (Config.standard false).Keeps TraceStep.PairsLiterals ∧
      (Config.standard false).Keeps (·.PairsNames 8) ∧ (Config.standard false).Keeps TraceStep.AccessesElement ∧
      (Config.standard false).Keeps TraceStep.Fills := by
  have enough : 8 ≤ (Config.standard false).pool.length := by decide
  obtain ⟨literals, names, elements, fills⟩ := registers_held_iff (Config.standard false)
  exact ⟨enough, literals.mpr (by decide), (names 8 enough).mpr (by decide), elements.mpr (by decide),
    fills.mpr (by decide)⟩

/-- Settings that are accepted though both operands of a sum may go to one register. -/
def sharedScratch : Config where
  scratch := ["$v1", "$v1"]
  accepted := by decide

/-- The second literal overwrites the first, and the sum of 1 and 2 is 4. -/
theorem sharedScratch_sum :
    ¬ sharedScratch.Keeps TraceStep.PairsLiterals ∧
    (lowerLines sharedScratch ["x = 1 + 2"]).2.text.map Node.bare =
      ([.li "$v1" "1", .li "$v1" "2", .alu .add "$s0" "$v1" "$v1"].map Op.node ++ exitNodes sharedScratch).map
        Node.bare ∧
    (Core.run (fun _ => 0) ([.li "$v1" "1", .li "$v1" "2", .alu .add "$s0" "$v1" "$v1"].map Op.node)
      ⟨fun _ => 0, fun _ => 0⟩).map (·.reg "$s0") = some 4 := by
  refine ⟨fun keeps => ?_, by decide +kernel, by decide +kernel⟩
  have apart := Config.literalsApart_of_keeps keeps
  exact absurd apart (by decide)

end MipsLowering
