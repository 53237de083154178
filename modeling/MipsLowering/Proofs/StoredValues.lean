import MipsLowering.Proofs.Fetches
import MipsLowering.Proofs.IndexedWrites

/-! # Values that are stored and found again

A literal that is assigned to a scalar goes to a register, from there to the cell of the scalar, and from the cell to
another register when the scalar is fetched.  Store and load choose their widths on their own, but both by the type of
the cell.  A word comes back as it was.  A byte comes back with its sign, so of the codes of characters only those
below 128 do.

What happens in between is left open: a `Core.Trail` is any way through the lines of the listing, in whatever order,
that does not write to the cell.  `lowerProgram_gives_back` says what every fetch finds at the end of such a way, and
likewise every load of an element of an array. -/

namespace MipsLowering

-- The class of an operand is only used through the theorems about it.
seal Operand.ofString

/-! ## Literals -/

/-- The number that a literal stands for: an integer, a truth value, or the code of a character. -/
inductive Lexeme.Denotes : List Char → Int → Prop where
  | integer {cs : List Char} {n : Int} (numeral : Text.integer? cs = some n) : Denotes cs n
  | truth {cs : List Char} (isTrue : isTrue cs = true) : Denotes cs 1
  | falsity {cs : List Char} (isFalse : isFalse cs = true) : Denotes cs 0
  | char (c : Char) : Denotes ['\'', c, '\''] c.toNat

theorem Text.not_letter_of_isDecimal {c : Char} (decimal : isDecimal c = true) :
    c.toLower ≠ 't' ∧ c.toLower ≠ 'f' ∧ c ≠ '\'' := by
  by_cases ascii : c.toNat < 128
  · have checked : ∀ n < 128, isDecimal (Char.ofNat n) = true →
        (Char.ofNat n).toLower ≠ 't' ∧ (Char.ofNat n).toLower ≠ 'f' ∧ Char.ofNat n ≠ '\'' := by
      decide +kernel
    simpa [decimal] using checked c.toNat ascii
  · have same : c.toLower = c := by
      unfold Char.toLower
      rw [dif_neg]
      rintro ⟨-, upper⟩
      exact ascii (Nat.lt_of_le_of_lt (UInt32.le_iff_toNat_le.mp upper) (by decide))
    rw [same]
    refine ⟨?_, ?_, ?_⟩ <;> (rintro rfl; exact ascii (by decide))

theorem Lexeme.immediate_of_isInteger {cs : List Char} (integer : isInteger cs = true) :
    immediate cs = String.ofList cs := by
  have first : ∀ c ∈ cs, c.toLower ≠ 't' ∧ c.toLower ≠ 'f' ∧ c ≠ '\'' := by
    intro c member
    rcases integral_of_isInteger integer c member with rfl | decimal
    · decide
    · exact Text.not_letter_of_isDecimal decimal
  cases cs with
  | nil => cases integer
  | cons c rest =>
    obtain ⟨notT, notF, notQuote⟩ := first c List.mem_cons_self
    have notChar : charLiteral? (c :: rest) = none := by
      rw [Option.eq_none_iff_forall_ne_some]
      intro d char
      exact notQuote (List.cons.inj (charLiteral?_eq_some_iff.mp char)).1
    simp [immediate, isTrue, isFalse, notT, notF, notChar]

theorem Text.integer?_toString (n : Nat) : integer? (toString n).toList = some (n : Int) := by
  have digits : (toString n).toList = Nat.toDigits 10 n := Nat.toList_repr
  have unsigned : ∀ rest, Nat.toDigits 10 n ≠ '-' :: rest := by
    intro rest same
    have digit : '-'.isDigit = true :=
      Nat.isDigit_of_mem_toDigits (by decide) (by decide) (same ▸ List.mem_cons_self)
    cases digit
  rw [digits, integer?, if_pos (isInteger_toDigits n), natOfDigits_toDigits]
  exact unsigned

/-- A literal that stands for a number is an immediate operand, which is written as this number. -/
theorem Operand.ofString_of_denotes {s : String} {n : Int} (denotes : Lexeme.Denotes s.toList n) :
    ∃ value, ofString s = .immediate value ∧ Text.integer? value.toList = some n := by
  have immediate : ∀ {cs : List Char}, cs = s.toList → Lexeme.isInteger cs = true ∨ Lexeme.isBoolean cs = true ∨
      Lexeme.isCharLiteral cs = true → ofString s = .immediate (Lexeme.immediate cs) := by
    rintro cs rfl literal
    simp only [ofString]
    rw [if_pos (by simpa [or_assoc] using literal)]
  generalize chars : s.toList = cs at denotes
  cases denotes with
  | integer numeral =>
    have integer : Lexeme.isInteger cs = true := by
      by_contra other
      simp [Text.integer?, other] at numeral
    refine ⟨_, immediate chars.symm (.inl integer), ?_⟩
    rw [Lexeme.immediate_of_isInteger integer, String.toList_ofList, numeral]
  | truth isTrue =>
    refine ⟨_, immediate chars.symm (.inr (.inl (by simp [Lexeme.isBoolean, isTrue]))), ?_⟩
    rw [Lexeme.immediate, if_pos isTrue]
    decide
  | falsity isFalse =>
    have notTrue : Lexeme.isTrue cs = false := by
      simp only [Lexeme.isFalse, beq_iff_eq] at isFalse
      simp [Lexeme.isTrue, isFalse]
    refine ⟨_, immediate chars.symm (.inr (.inl (by simp [Lexeme.isBoolean, isFalse]))), ?_⟩
    rw [Lexeme.immediate, if_neg (by simp [notTrue]), if_pos isFalse]
    decide
  | char c =>
    have known : Lexeme.charLiteral? ['\'', c, '\''] = some c := Lexeme.charLiteral?_eq_some_iff.mpr rfl
    refine ⟨_, immediate chars.symm (.inr (.inr (by simp [Lexeme.isCharLiteral, known]))), ?_⟩
    rw [Lexeme.immediate, if_neg (by simp [Lexeme.isTrue]), if_neg (by simp [Lexeme.isFalse]), known]
    exact Text.integer?_toString c.toNat

/-- A literal is fetched without memory, and its value is its number. -/
theorem Tables.literal_spec (t : Tables) (place : String → Word) {literal : String} {n : Int}
    (denotes : Lexeme.Denotes literal.toList n) :
    Text.stripped literal = literal ∧ t.Admits place literal ∧ t.Stored literal ∧
      ∀ c, t.value place c literal = BitVec.ofInt 32 n := by
  obtain ⟨value, sort, numeral⟩ := Operand.ofString_of_denotes denotes
  have stripped := stripped_of_immediate sort
  refine ⟨stripped, ?_, ?_, fun c => ?_⟩
  · rw [Admits, stripped, sort]
    trivial
  · intro name named
    rw [stripped, sort] at named
    cases named
  · rw [Tables.value, stripped, sort, valueAs, numeral, Option.getD_some]

/-- What a cell gives back of a number that fits into a byte, with a sign or without one. -/
def ValueType.kept : ValueType → Int → Int
  | .char, n => if 128 ≤ n then n - 256 else n
  | _, n => n

theorem ValueType.narrow_ofInt {type : ValueType} {n : Int} (fits : type = .char → -128 ≤ n ∧ n < 256) :
    type.width.narrow (BitVec.ofInt 32 n) = BitVec.ofInt 32 (type.kept n) := by
  cases type with
  | char =>
    obtain ⟨lower, upper⟩ := fits rfl
    -- The low byte of the number, read with a sign, is what is left of it modulo 256 around zero.
    have low : (BitVec.ofInt 32 n).setWidth 8 = BitVec.ofInt 8 n := by
      apply BitVec.eq_of_toNat_eq
      rw [BitVec.toNat_setWidth, BitVec.toNat_ofInt, BitVec.toNat_ofInt]
      omega
    have signed : n.bmod 256 = ValueType.kept .char n := by
      simp only [kept, Int.bmod]
      split <;> omega
    show ((BitVec.ofInt 32 n).setWidth 8).signExtend 32 = _
    rw [low, BitVec.signExtend, BitVec.toInt_ofInt]
    exact congrArg _ signed
  | _ => rfl

/-! ## Trails -/

/-- Whether an operation is beyond `Core.exec`: a jump, a call, a division or one for the console. -/
def Op.isBeyond : Op → Bool
  | .alu .. | .aluImm .. | .li .. | .la .. | .move .. | .load .. | .store .. => false
  | _ => true

/-- The bytes to which an operation stores through a register. -/
def Op.Reaches (c : Core) : Op → Word → Prop
  | .store width _ (.base r), a => (a - c.reg r).toNat < width.bytes
  | _, _ => False

namespace Core

variable {place : String → Word} {text : List Node} {name : String} {bytes : Word → Prop} {c d : Core}

/-- The lines of a text are passed in whatever order, and none of them writes to the cell of a name: neither to its
    label, nor through a register to one of some bytes.  What is beyond `Core.exec` may do anything to registers and
    to the rest of memory. -/
inductive Trail (place : String → Word) (text : List Node) (name : String) (bytes : Word → Prop) (c : Core) :
    Core → Prop where
  | start : Trail place text name bytes c c
  | exec {d e : Core} {i : Instr} (trail : Trail place text name bytes c d) (member : .instr i ∈ text)
      (done : d.exec place i.op = some e) (unnamed : i.op.stores? ≠ some name)
      (elsewhere : ∀ a, bytes a → ¬ i.op.Reaches d a) : Trail place text name bytes c e
  | beyond {d e : Core} {i : Instr} (trail : Trail place text name bytes c d) (member : .instr i ∈ text)
      (isBeyond : i.op.isBeyond = true) (kept : ∀ a, bytes a → e.memory a = d.memory a) :
      Trail place text name bytes c e

/-- An operation changes no byte but where it stores. -/
theorem exec_outside {op : Op} (done : c.exec place op = some d) {a : Word}
    (outside : ∀ width source address, op = .store width source address →
      ¬ (a - c.locate place address).toNat < width.bytes) : d.memory a = c.memory a := by
  cases op with
  | store width source address =>
    obtain ⟨-, ⟨⟩⟩ := Option.ite_none_right_eq_some.mp done
    exact Memory.write_outside (outside width source address rfl)
  | load width dest address =>
    obtain ⟨-, ⟨⟩⟩ := Option.ite_none_right_eq_some.mp done
    rfl
  | li dest value =>
    obtain ⟨n, -, rfl⟩ := Option.map_eq_some_iff.mp done
    rfl
  | alu | aluImm | la | move =>
    cases done
    rfl
  | _ => cases done

/-- Along a trail the bytes stay as they are, if all labels to which the text stores but the name itself are
    elsewhere. -/
theorem Trail.memory_eq (trail : Trail place text name bytes c d)
    (apart : ∀ i, .instr i ∈ text → ∀ width source label, i.op = .store width source (.label label) →
      label ≠ name → ∀ a, bytes a → ¬ (a - place label).toNat < width.bytes) :
    ∀ a, bytes a → d.memory a = c.memory a := by
  induction trail with
  | start => exact fun _ _ => rfl
  | @exec d e i _ member done unnamed elsewhere ih =>
    intro a inside
    refine (exec_outside done ?_).trans (ih a inside)
    intro width source address stores
    cases address with
    | label label =>
      refine apart i member width source label stores ?_ a inside
      rintro rfl
      exact unnamed (by rw [stores]; rfl)
    | base r =>
      have missed := elsewhere a inside
      rwa [stores] at missed
  | beyond _ _ _ kept ih => exact fun a inside => (kept a inside).trans (ih a inside)

/-- A trail goes on over lines that are passed one after the other and store neither to the name nor through a
    register. -/
theorem Trail.passes {nodes : List Node} {b : Core} (trail : Trail place text name bytes c b)
    (ran : run place nodes b = some d)
    (lines : ∀ i, .instr i ∈ nodes → .instr i ∈ text ∧ i.op.stores? ≠ some name ∧ ∀ e a, ¬ i.op.Reaches e a) :
    Trail place text name bytes c d := by
  induction nodes generalizing b with
  | nil =>
    cases ran
    exact trail
  | cons node rest ih =>
    have later := fun i member => lines i (List.mem_cons_of_mem node member)
    cases node with
    | instr i =>
      obtain ⟨b', done, ran⟩ := Option.bind_eq_some_iff.mp ran
      obtain ⟨member, unnamed, missed⟩ := lines i List.mem_cons_self
      exact ih (trail.exec member done unnamed fun a _ => missed b a) ran later
    | label | comment => exact ih trail ran later
    | directive => cases ran

end Core

/-! ## Steps -/

namespace Chain

variable {config : Config} {program : Program} {steps : List TraceStep} {q : Pass}
  (chain : Chain (Pass.ready config program) steps q)

include chain

/-- A line that stores to a label belongs to a statement that writes this name, which has the cell of a scalar. -/
theorem written_of_stores {s : TraceStep} (member : s ∈ steps) {i : Instr} (inside : .instr i ∈ s.nodes)
    {name : String} (stores : i.op.stores? = some name) :
    s.stmt.written? = some name ∧ ∃ e r, s.after.symbols.cell? name = some e ∧ e.isArray = false ∧
      i.op = .store e.type.width r (.label name) := by
  have bare : i.op.node ∈ s.nodes.map Node.bare := List.mem_map_of_mem inside
  rw [chain.laid s member] at bare
  obtain ⟨written, e, r, cell, scalar, same⟩ := Tables.storesCell_of_mem_codeFrom bare stores
  cases op : i.op
  all_goals rw [op] at same; cases same
  exact ⟨written, e, r, cell, scalar, rfl⟩

/-- All labels to which a program stores are those of scalars. -/
theorem scalar_of_store {i : Instr} (member : .instr i ∈ q.text ++ exitNodes q.config) {width : Width}
    {source : Register} {label : String} (stores : i.op = .store width source (.label label)) :
    ∃ e, q.symbols.cell? label = some e ∧ e.isArray = false ∧ width = e.type.width := by
  rw [chain.text] at member
  rcases List.mem_append.mp member with lines | exit
  · obtain ⟨s, inSteps, inside⟩ := List.mem_flatMap.mp lines
    obtain ⟨-, e, r, cell, scalar, same⟩ := chain.written_of_stores inSteps inside (by rw [stores]; rfl)
    cases stores.symm.trans same
    obtain ⟨before, after, rfl⟩ := List.append_of_mem inSteps
    exact ⟨e, chain.cell?_final cell, scalar, rfl⟩
  · unfold exitNodes at exit
    split at exit
    · simp only [List.mem_cons, List.not_mem_nil, or_false, reduceCtorEq, false_or] at exit
      rcases exit with same | same <;> (cases same; cases stores)
    · cases exit

end Chain

/-! ## What cells give back -/

theorem Fetch.LoadsCell.run {f : Fetch} {name : String} {width : Width} (loads : f.LoadsCell name width)
    {place : String → Word} (admits : width.Admits (place name)) (c : Core) :
    ∃ d, Core.run place (f.ops.map Op.node) c = some d ∧ d.reg f.register = c.memory.read width (place name) := by
  obtain ⟨r, notZero, notZero', ops⟩ := loads
  let loaded := c.setReg r (c.memory.read width (place name))
  have load : c.exec place (.load width r (.label name)) = some loaded := if_pos admits
  have value : loaded.reg r = c.memory.read width (place name) := c.reg_setReg_self _ notZero
  rw [ops, Core.run_op_cons load, Tables.moveCode]
  by_cases same : r = f.register
  · rw [same] at value
    exact ⟨loaded, by simp [same, Core.run], value⟩
  · refine ⟨loaded.setReg f.register (loaded.reg r), ?_, ?_⟩
    · rw [if_pos (bne_iff_ne.mpr same)]
      exact Core.run_op rfl
    · rw [Core.reg_setReg_self _ _ notZero', value]

/-- Wherever a program has got to without writing to the cell of a scalar, a statement that fetches the scalar finds
    a value there. -/
def Pass.CellHolds (p : Pass) (place : String → Word) (steps : List TraceStep) (name : String) (type : ValueType)
    (v : Word) (c : Core) : Prop :=
  ∀ d, Core.Trail place p.text name (fun a => (a - place name).toNat < type.size) c d →
    ∀ s ∈ steps, s.before.symbols.isInMemory name = true →
      ∀ f ∈ (p.tablesAt s).fetches s.before s.stmt, f.operand = .name name →
        s.nodes.map Node.bare = f.lines ∧
        ∃ e, Core.run place (f.ops.map Op.node) d = some e ∧ e.reg f.register = v

/-- Wherever a program has got to without writing to an element of an array, a statement that loads the element brings
    a value to the register of its target. -/
def Pass.ElementHolds (p : Pass) (place : String → Word) (steps : List TraceStep) (array : String) (type : ValueType)
    (i v : Word) (c : Core) : Prop :=
  ∀ d, Core.Trail place p.text array
      (fun a => (a - (place array + i * BitVec.ofNat 32 type.size)).toNat < type.size) c d →
    ∀ s ∈ steps, ∀ target index, s.stmt = .arrayLoad target array index →
      s.before.symbols.isInMemory array = true → (∀ value, Operand.ofFetched index ≠ .float value) →
      (p.tablesAt s).value place d index = i →
      ∃ e, Core.run place s.nodes d = some e ∧ e.reg ((p.tablesAt s).register target) = v

section

variable {config : Config} {program : Program} {steps : List TraceStep} {q : Pass}
  (chain : Chain (Pass.ready config program) steps q)

include chain

/-- A cell that some step finds is the one that is there at the end. -/
theorem Chain.cell?_of_isInMemory {s : TraceStep} (member : s ∈ steps) {name : String} {e : Symbol}
    (cell : q.symbols.cell? name = some e) (backed : s.before.symbols.isInMemory name = true) :
    s.before.symbols.cell? name = some e ∧ s.after.symbols.cell? name = some e := by
  rw [SymbolTable.isInMemory_eq_cell?, Option.isSome_iff_exists] at backed
  obtain ⟨e', found⟩ := backed
  obtain ⟨before, after, rfl⟩ := List.append_of_mem member
  have later := chain.cell?_step found
  obtain rfl := Option.some.inj ((chain.cell?_final later).symm.trans cell)
  exact ⟨found, later⟩

/-- Where the value of a name with a cell is used, it is fetched. -/
theorem Chain.exists_fetch {s : TraceStep} (member : s ∈ steps) {name : String}
    (backed : s.before.symbols.isInMemory name = true) (sort : Operand.ofString name = .name name)
    (uses : s.stmt.Uses s.before.params name) :
    ∃ f ∈ (q.tablesAt s).fetches s.before s.stmt, f.operand = .name name := by
  rw [SymbolTable.isInMemory_eq_cell?, Option.isSome_iff_exists] at backed
  obtain ⟨e, cell⟩ := backed
  obtain ⟨before, after, rfl⟩ := List.append_of_mem member
  have entry := SymbolTable.lookup?_of_cell? (chain.cell?_step cell)
  exact uses.exists_fetch sort (Option.isSome_iff_exists.mpr ⟨e, entry⟩)

/-- The cells of two scalars have no byte in common. -/
theorem Chain.apart_cells (small : q.data.size ≤ 2 ^ 32) (base : Word) {name other : String} (differs : name ≠ other)
    {e e' : Symbol} (cell : q.symbols.cell? name = some e) (scalar : e.isArray = false)
    (cell' : q.symbols.cell? other = some e') (scalar' : e'.isArray = false) :
    Memory.Apart (q.data.address base name) e.type.size (q.data.address base other) e'.type.size := by
  obtain ⟨b, found, fits⟩ := block?_of_cell? chain.run_lines cell
  obtain ⟨b', found', fits'⟩ := block?_of_cell? chain.run_lines cell'
  rw [DataSection.address, DataSection.address, DataSection.startOf_of_block? found,
    DataSection.startOf_of_block? found']
  exact DataSection.apart_of_block? small found found' differs base (Nat.le_refl _)
    (Nat.le_of_eq (fits.stop_of_scalar scalar).symm) (Nat.le_refl _)
    (Nat.le_of_eq (fits'.stop_of_scalar scalar').symm)

variable {p : Pass} (text : p.text = q.text ++ exitNodes q.config) (tables : ∀ s, p.tablesAt s = q.tablesAt s)
  {base : Word} (aligned : base.toNat % 4 = 0) (small : q.data.size ≤ 2 ^ 32) {c : Core} {v : Word}

include text tables aligned small

/-- What has been written to the cell of a scalar is found there. -/
theorem Chain.cellHolds {name : String} {e : Symbol} (cell : q.symbols.cell? name = some e)
    (scalar : e.isArray = false) (written : c.memory.read e.type.width (q.data.address base name) = v) :
    p.CellHolds (q.data.address base) steps name e.type v c := by
  intro d trail s member backed f fetched named
  rw [text] at trail
  rw [tables] at fetched
  obtain ⟨found, later⟩ := chain.cell?_of_isInMemory member cell backed
  have draws : (q.tablesAt s).registers.DrawsOn (q.tablesAt s).config := chain.settings.2.1
  have loads := Tables.loadsCell_of_mem_fetches later scalar draws found fetched named
  refine ⟨(chain.laid s member).trans (Tables.lines_of_mem_fetches fetched).symm, ?_⟩
  -- Other labels to which the program stores are cells of other scalars, so the trail has left this one alone.
  have kept := trail.memory_eq fun i inText width source label stores differs a inside => by
    obtain ⟨e', cell', scalar', rfl⟩ := chain.scalar_of_store inText stores
    exact chain.apart_cells small base differs.symm cell scalar cell' scalar' a inside
  obtain ⟨before, after, rfl⟩ := List.append_of_mem member
  obtain ⟨f', ran, value⟩ := loads.run (chain.admits_cell aligned later) d
  refine ⟨f', ran, value.trans ?_⟩
  rw [← written]
  exact Memory.read_congr kept

/-- What has been written to an element of an array is found there. -/
theorem Chain.elementHolds (roles : config.RolesApart) {array : String} {e : Symbol}
    (cell : q.symbols.cell? array = some e) (isArray : e.isArray = true) {i : Word} (lower : 0 ≤ i.toInt)
    (upper : i.toInt < e.length)
    (written : c.memory.read e.type.width (q.data.address base array + i * BitVec.ofNat 32 e.type.size) = v) :
    p.ElementHolds (q.data.address base) steps array e.type i v c := by
  intro d trail s member target index loads backed noFloat same
  rw [text] at trail
  rw [tables] at same ⊢
  obtain ⟨-, later⟩ := chain.cell?_of_isInMemory member cell backed
  obtain ⟨before, after, rfl⟩ := List.append_of_mem member
  have kept := trail.memory_eq fun j inText width source label stores differs a inside => by
    obtain ⟨e', cell', scalar', rfl⟩ := chain.scalar_of_store inText stores
    exact chain.apart_element later isArray small lower upper differs cell' scalar' a inside
  obtain ⟨f, ran, value, -⟩ := chain.runs_arrayLoad roles aligned small loads later isArray noFloat
    (same.symm ▸ lower) (same.symm ▸ upper)
  refine ⟨f, ran, value.trans ?_⟩
  rw [← written, same]
  exact Memory.read_congr kept

end

namespace Chain

variable {config : Config} {program : Program} {before after : List TraceStep} {s : TraceStep} {q : Pass}
  (chain : Chain (Pass.ready config program) (before ++ s :: after) q) {base : Word} (aligned : base.toNat % 4 = 0)
  {literal : String} {n : Int} (denotes : Lexeme.Denotes literal.toList n)

include chain aligned denotes

/-- A literal that is assigned to a scalar goes to its cell. -/
theorem runs_literal {name : String} (assigns : s.stmt = .assign name (some literal) none none) {e : Symbol}
    (cell : s.after.symbols.cell? name = some e) (scalar : e.isArray = false) (c : Core) :
    ∃ d, Core.run (q.data.address base) s.nodes c = some d ∧
      d.memory = c.memory.write e.type.width (q.data.address base name) (BitVec.ofInt 32 n) := by
  let t := q.tablesAt s
  obtain ⟨stripped, admits, -, value⟩ := t.literal_spec (q.data.address base) denotes
  have laid := chain.laid s (by simp)
  rw [assigns] at laid
  have code : s.nodes.map Node.bare = t.copyCode name literal := laid
  have reached : t.AdmitsAs (q.data.address base) (.name name) := chain.admitsAs aligned rfl (by simp)
  have entry : t.symbols.cell? name = some e := cell
  obtain ⟨d, ran, -, memory⟩ := Tables.runs_copyCode chain.settings.2.1 reached stripped admits c
  rw [Tables.assigned_of_cell entry scalar, value] at memory
  rw [← Core.run_map_bare, code]
  exact ⟨d, ran, memory⟩

/-- A literal that is stored in an array goes to the element. -/
theorem runs_arrayStore (roles : config.RolesApart) (small : q.data.size ≤ 2 ^ 32) {array index : String}
    (stores : s.stmt = .arrayStore array index literal) {e : Symbol} (cell : s.after.symbols.cell? array = some e)
    (isArray : e.isArray = true) (noFloat : ∀ value, Operand.ofFetched index ≠ .float value) {c : Core} :
    let place := q.data.address base
    let i := (q.tablesAt s).value place c index
    0 ≤ i.toInt → i.toInt < e.length →
    ∃ d, Core.run place s.nodes c = some d ∧
      d.memory = c.memory.write e.type.width (place array + i * BitVec.ofNat 32 e.type.size) (BitVec.ofInt 32 n) := by
  intro place i lower upper
  let t := q.tablesAt s
  obtain ⟨-, admits, stored, value⟩ := t.literal_spec place denotes
  obtain ⟨settings, draws, -⟩ := chain.settings
  have laid := chain.laid s (by simp)
  rw [stores] at laid
  have code : s.nodes.map Node.bare = (t.arrayStoreCode array index literal).map Op.node := laid
  obtain ⟨type, size, element⟩ := chain.element_spec cell isArray small lower upper aligned
  rw [← settings] at roles
  have ran := Tables.runs_arrayStore draws roles (chain.admitsAs aligned rfl noFloat) admits stored (by rw [size])
    element
  rwa [← code, Core.run_map_bare, type, value] at ran

end Chain

/-- A literal that is assigned to a scalar with a cell, or stored in an element of an array, is found again by every
    fetch of the scalar and every load of the element, whatever the program does in between without writing to the
    cell.  A word comes back as it was, and a byte with its sign.  Only statements that write a scalar store to its
    label, and all that use it fetch it. -/
theorem lowerProgram_gives_back {config : Config} {program : Program} {listing : String} {p : Pass} {base : Word}
    (lowered : lowerProgram config program = (.ok listing, p)) (aligned : base.toNat % 4 = 0)
    (small : p.data.size ≤ 2 ^ 32) :
    let steps := (traceProgram config program).1
    let place := p.data.address base
    (∀ s ∈ steps, ∀ name literal n e, s.stmt = .assign name (some literal) none none →
      Lexeme.Denotes literal.toList n → s.before.symbols.cell? name = some e → e.isArray = false →
      (e.type = .char → -128 ≤ n ∧ n < 256) → ∀ c, ∃ d, Core.run place s.nodes c = some d ∧
        p.CellHolds place steps name e.type (BitVec.ofInt 32 (e.type.kept n)) d) ∧
    (config.RolesApart → ∀ s ∈ steps, ∀ array index literal n e, s.stmt = .arrayStore array index literal →
      Lexeme.Denotes literal.toList n → s.before.symbols.cell? array = some e → e.isArray = true →
      (e.type = .char → -128 ≤ n ∧ n < 256) → (∀ value, Operand.ofFetched index ≠ .float value) → ∀ c,
      let i := (p.tablesAt s).value place c index
      0 ≤ i.toInt → i.toInt < e.length → ∃ d, Core.run place s.nodes c = some d ∧
        p.ElementHolds place steps array e.type i (BitVec.ofInt 32 (e.type.kept n)) d) ∧
    ∀ s ∈ steps,
      (∀ i, .instr i ∈ s.nodes → ∀ name, i.op.stores? = some name →
        s.stmt.written? = some name ∧ ∃ e, s.after.symbols.cell? name = some e ∧ e.isArray = false) ∧
      ∀ name, s.before.symbols.isInMemory name = true → Operand.ofString name = .name name →
        s.stmt.Uses s.before.params name →
        ∃ f ∈ (p.tablesAt s).fetches s.before s.stmt, f.operand = .name name := by
  intro steps place
  obtain ⟨q, ran, -, rfl⟩ := lowerProgram_iff.mp ⟨listing, lowered⟩
  have chain : Chain (Pass.ready config program) steps q := (chain_traceFrom ran).1
  refine ⟨?_, ?_, ?_⟩
  · intro s member name literal n e assigns denotes cell scalar fits c
    obtain ⟨before, after, split⟩ := List.append_of_mem member
    have around : Chain (Pass.ready config program) (before ++ s :: after) q := split ▸ chain
    have later := around.cell?_step cell
    obtain ⟨d, ran, memory⟩ := around.runs_literal aligned denotes assigns later scalar c
    refine ⟨d, ran, chain.cellHolds (by rfl) (by intro; rfl) aligned small (around.cell?_final later) scalar ?_⟩
    rw [memory]
    exact Memory.read_write_self.trans (ValueType.narrow_ofInt fits)
  · intro roles s member array index literal n e stores denotes cell isArray fits noFloat c i lower upper
    obtain ⟨before, after, split⟩ := List.append_of_mem member
    have around : Chain (Pass.ready config program) (before ++ s :: after) q := split ▸ chain
    have later := around.cell?_step cell
    obtain ⟨d, ran, memory⟩ :=
      around.runs_arrayStore aligned denotes roles small stores later isArray noFloat lower upper
    refine ⟨d, ran, chain.elementHolds (by rfl) (by intro; rfl) aligned small roles (around.cell?_final later)
      isArray lower upper ?_⟩
    rw [memory]
    exact Memory.read_write_self.trans (ValueType.narrow_ofInt fits)
  · intro s member
    refine ⟨?_, fun name backed sort uses => chain.exists_fetch member backed sort uses⟩
    intro i inside name stores
    obtain ⟨written, e, r, cell, scalar, -⟩ := chain.written_of_stores member inside stores
    exact ⟨written, e, cell, scalar⟩

/-- A program that stores a letter from outside ASCII and a number, writes to another cell, and finds each of them
    again. -/
def keepsValues : Program :=
  [⟨"declare c:char", .declare "c" (some "char") false⟩, ⟨"declare x:int", .declare "x" (some "int") false⟩,
    ⟨"declare_arr a[3] int", .declareArray "a" 3 (some "int") false⟩,
    ⟨"c = 'È'", .assign "c" (some "'È'") none none⟩, ⟨"x = 5", .assign "x" (some "5") none none⟩,
    ⟨"x = c", .assign "x" (some "c") none none⟩, ⟨"astore a, 1, -7", .arrayStore "a" "1" "-7"⟩,
    ⟨"c = 'A'", .assign "c" (some "'A'") none none⟩, ⟨"x = a[1]", .arrayLoad "x" "a" "1"⟩]

theorem keepsValues_gives_back :
    let steps := (traceProgram (.standard false) keepsValues).1
    let p := (lowerProgram (.standard false) keepsValues).2
    let place := p.data.address 0x10010000
    (∃ write between read d e f g, steps[3]? = some write ∧ steps[4]? = some between ∧ steps[5]? = some read ∧
      Core.run place write.nodes onesCore = some d ∧ Core.run place between.nodes d = some e ∧
      f ∈ (p.tablesAt read).fetches read.before read.stmt ∧ f.operand = .name "c" ∧
      Core.run place (f.ops.map Op.node) e = some g ∧ g.reg f.register = BitVec.ofInt 32 (-56)) ∧
    ∃ write between read d e g, steps[6]? = some write ∧ steps[7]? = some between ∧ steps[8]? = some read ∧
      Core.run place write.nodes onesCore = some d ∧ Core.run place between.nodes d = some e ∧
      Core.run place read.nodes e = some g ∧ g.reg ((p.tablesAt read).register "x") = BitVec.ofInt 32 (-7) := by
  intro steps p place
  let letter : Symbol := ⟨"c", .scalar, .char, 0, true⟩
  let array : Symbol := ⟨"a", .array, .int, 3, true⟩
  have runs : (lowerProgram (.standard false) keepsValues).1.isOk = true ∧ p.data.size ≤ 2 ^ 32 ∧
      (Config.standard false).RolesApart := by
    decide +kernel
  have cells : [3, 4, 5, 6, 7, 8].map (fun k => steps[k]?.map fun s =>
      (s.stmt, ["c", "x", "a"].map s.before.symbols.cell?)) =
      (keepsValues.drop 3).map fun l => some (l.stmt, [some letter, some (intSymbol "x"), some array]) := by
    decide +kernel
  let nodes : List Node :=
    [.instr ⟨.li "$s1" "5", some "x = 5"⟩, .instr ⟨.store .word "$s1" (.label "x"), some "store x"⟩]
  let nodes' : List Node :=
    [.instr ⟨.li "$s0" "65", some "c = 'A'"⟩, .instr ⟨.store .byte "$s0" (.label "c"), some "store c"⟩]
  have betweens : steps[4]?.map TraceStep.nodes = some nodes ∧ steps[7]?.map TraceStep.nodes = some nodes' ∧
      ∀ node ∈ nodes ++ nodes', node ∈ p.text := by
    decide +kernel
  obtain ⟨succeeds, small, roles⟩ := runs
  simp only [keepsValues, List.map, List.drop, List.cons.injEq, Option.map_eq_some_iff, Prod.mk.injEq, and_true]
    at cells
  obtain ⟨⟨write, found, stores, cell, -⟩, ⟨between, foundBetween, stmtBetween, -, cellBetween, -⟩,
    ⟨read, foundRead, reads, cellRead, -⟩, ⟨write', found', stores', -, -, cell'⟩,
    ⟨between', foundBetween', stmtBetween', cellBetween', -⟩, ⟨read', foundRead', reads', -, -, cellRead'⟩⟩ := cells
  rw [foundBetween, foundBetween', Option.map_some, Option.map_some, Option.some.injEq, Option.some.injEq] at betweens
  obtain ⟨code, code', text⟩ := betweens
  obtain ⟨listing, lowered⟩ := exists_of_isOk succeeds
  obtain ⟨scalars, elements, used⟩ := lowerProgram_gives_back lowered
    (show (0x10010000 : Word).toNat % 4 = 0 by decide) small
  have trail : ∀ {lines : List Node} {name : String} {c d : Core} (bytes : Word → Prop),
      (∀ node ∈ lines, node ∈ nodes ++ nodes' ∧ node.stores? ≠ some name) → Core.run place lines c = some d →
      Core.Trail place p.text name bytes c d := by
    intro lines name c d bytes known ran
    apply Core.Trail.start.passes ran
    intro i inside
    obtain ⟨member, unnamed⟩ := known _ inside
    refine ⟨text _ member, unnamed, ?_⟩
    simp only [nodes, nodes', List.cons_append, List.nil_append, List.mem_cons, List.not_mem_nil, or_false,
      Node.instr.injEq] at member
    rcases member with rfl | rfl | rfl | rfl <;> exact fun _ _ => id
  refine ⟨?_, ?_⟩
  · have backed : read.before.symbols.isInMemory "c" = true := by
      rw [SymbolTable.isInMemory_eq_cell?, cellRead]
      rfl
    obtain ⟨d, ran, holds⟩ := scalars write (List.mem_of_getElem? found) "c" "'È'" 200 letter stores (.char 'È') cell
      rfl (by decide) onesCore
    obtain ⟨e, ranBetween, -⟩ := scalars between (List.mem_of_getElem? foundBetween) "x" "5" 5 (intSymbol "x")
      stmtBetween (.integer (by decide +kernel)) cellBetween rfl (by decide) d
    obtain ⟨f, member, named⟩ := (used read (List.mem_of_getElem? foundRead)).2 "c" backed
      (ofString_of_isVariableName (by decide +kernel)) (reads ▸ .copy "x" none)
    have lines : ∀ node ∈ nodes, node ∈ nodes ++ nodes' ∧ node.stores? ≠ some "c" := by decide
    obtain ⟨-, g, ranRead, value⟩ := holds e (trail _ (code ▸ lines) ranBetween) read
      (List.mem_of_getElem? foundRead) backed f member named
    exact ⟨write, between, read, d, e, f, g, found, foundBetween, foundRead, ran, ranBetween, member, named, ranRead,
      value⟩
  · have backed : read'.before.symbols.isInMemory "a" = true := by
      rw [SymbolTable.isInMemory_eq_cell?, cellRead']
      rfl
    have index : ∀ s c, (p.tablesAt s).value place c "1" = 1 := by
      intro s c
      rw [Tables.value, Pass.stripped_one, Pass.ofString_one, Tables.valueAs]
      decide
    have noFloat : ∀ value, Operand.ofFetched "1" ≠ .float value := by
      intro value
      rw [Operand.ofFetched, Pass.stripped_one, Pass.ofString_one]
      simp
    obtain ⟨d, ran, holds⟩ := elements roles write' (List.mem_of_getElem? found') "a" "1" "-7" (-7) array stores'
      (.integer (by decide +kernel)) cell' rfl (by decide) noFloat onesCore (by rw [index]; decide)
      (by rw [index]; decide)
    obtain ⟨e, ranBetween, -⟩ := scalars between' (List.mem_of_getElem? foundBetween') "c" "'A'" 65 letter
      stmtBetween' (.char 'A') cellBetween' rfl (by decide) d
    have lines : ∀ node ∈ nodes', node ∈ nodes ++ nodes' ∧ node.stores? ≠ some "a" := by decide
    obtain ⟨g, ranRead, value⟩ := holds e (trail _ (code' ▸ lines) ranBetween) read'
      (List.mem_of_getElem? foundRead') "x" "1" reads' backed noFloat (by rw [index, index])
    exact ⟨write', between', read', d, e, g, found', foundBetween', foundRead', ran, ranBetween, ranRead, value⟩

/-- A program that stores a letter from outside ASCII and copies it. -/
def copiesAccent : Program :=
  [⟨"declare c:char", .declare "c" (some "char") false⟩, ⟨"declare x:int", .declare "x" (some "int") false⟩,
    ⟨"c = 'È'", .assign "c" (some "'È'") none none⟩, ⟨"x = c", .assign "x" (some "c") none none⟩]

/-- The code of the letter is 200, but what the copy has found in its cell is 256 less. -/
theorem copiesAccent_reads :
    Program.ofLines ["declare c:char", "declare x:int", "c = 'È'", "x = c"] = .ok copiesAccent ∧
    Lexeme.Denotes "'È'".toList 200 ∧
    let result := lowerProgram (.standard false) copiesAccent
    let place := result.2.data.address 0x10010000
    result.1.isOk = true ∧
    (Core.run place ((traceProgram (.standard false) copiesAccent).1.flatMap TraceStep.nodes) onesCore).map
      (fun d => d.memory.read .word (place "x")) = some (BitVec.ofInt 32 (-56)) :=
  ⟨by decide +kernel, .char 'È', by decide +kernel⟩

end MipsLowering
