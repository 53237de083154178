import MipsLowering.Proofs.Arrays
import MipsLowering.Proofs.Demands
import MipsLowering.Proofs.FillCode
import MipsLowering.Proofs.Labels

/-! # Fills with zeros

What the code of a fill does wherever it stands in a program.  Its loop is found by its own jumps, since
its labels are new where the fill is lowered (`Chain.label_notMem_text`), and accesses are aligned as cells
are (`Chain.admits_cell`).

Between bounds in order exactly the elements from the first index up to the last are cleared
(`lowerProgram_zeroFill`).  The loop ends where the index meets the last one, and so bounds in reverse order
are not those of an empty fill: the index goes all the way around (`lowerProgram_zeroFill_reversed`). -/

namespace MipsLowering

-- The class of an operand is only used through the theorems about it.
seal Operand.ofString

/-! ## Where the code stands -/

namespace Chain

variable {config : Config} {program : Program} {before after : List TraceStep} {s : TraceStep} {q : Pass}
  (chain : Chain (Pass.ready config program) (before ++ s :: after) q)

include chain

/-- The labels of a new loop stand nowhere before it. -/
theorem label_notMem_text {l : String}
    (made : l ∈ loopLabels (s.before.labels.nextFree "arr_pad" ["", "_end"])) : .label l ∉ s.before.text := by
  intro member
  obtain ⟨earlier, -, -⟩ := chain.around
  obtain ⟨numbers, accounts⟩ := (accounts_ready config program).foldl
    ((before.map TraceStep.line).map Line.stmt)
  rw [← (Lower.ledger_lines earlier.run_lines (Pass.ready_opens config program)).1, List.nil_append] at accounts
  have placed : l ∈ s.before.ledger.placed := List.mem_filterMap.mpr ⟨_, member, rfl⟩
  rw [accounts.placed, (Stmt.labelLines_perm accounts.counted).mem_iff, List.mem_append,
    ← accounts.defined] at placed
  exact s.before.labels.notMem_taken_of_loopLabels l made
    (List.mem_append_left _ (List.mem_append_left _ placed))

/-- A cell stays what it is up to the end. -/
theorem cell?_final {name : String} {e : Symbol} (cell : s.after.symbols.cell? name = some e) :
    q.symbols.cell? name = some e := by
  have later : (before ++ s :: after).filterMap (·.stmt.entry?) =
      (before ++ [s]).filterMap (·.stmt.entry?) ++ after.filterMap (·.stmt.entry?) := by
    rw [← List.filterMap_append, List.append_assoc, List.singleton_append]
  rw [chain.cell?_after] at cell
  rw [(cells_lines chain.run_lines).2 name, List.filterMap_map]
  show ((before ++ s :: after).filterMap (·.stmt.entry?)).find? _ = some e
  rw [later, List.find?_append, cell]
  rfl

/-- A cell can be accessed at its address. -/
theorem admits_cell {base : Word} (aligned : base.toNat % 4 = 0) {name : String} {e : Symbol}
    (cell : s.after.symbols.cell? name = some e) : e.type.width.Admits (q.data.address base name) := by
  obtain ⟨b, found, fits⟩ := block?_of_cell? chain.run_lines (chain.cell?_final cell)
  rw [DataSection.address, DataSection.startOf_of_block? found]
  have start := fits.aligned
  unfold Width.Admits
  unfold ValueType.size at start
  cases width : e.type.width with
  | byte => exact Nat.mod_one _
  | word =>
    rw [width] at start
    simp only [Width.bytes] at start ⊢
    rw [BitVec.toNat_add, BitVec.toNat_ofNat]
    omega

/-- A step keeps the cells that it finds. -/
theorem cell?_step {name : String} {e : Symbol} (cell : s.before.symbols.cell? name = some e) :
    s.after.symbols.cell? name = some e := by
  obtain ⟨earlier, -, -⟩ := chain.around
  rw [(cells_lines earlier.run_lines).2 name, List.filterMap_map] at cell
  rw [chain.cell?_after, List.filterMap_append, List.find?_append]
  exact Option.or_eq_some_iff.mpr (.inl cell)

/-- The tables in which a step ends have the usual registers. -/
theorem standard_tablesAt (scratch : config.scratch = defaultScratch) (address : config.address = defaultAddress) :
    (s.after.tablesAt s).Standard := by
  obtain ⟨earlier, ran, -⟩ := chain.around
  obtain ⟨settings, draws, literals⟩ := (earlier.concat ran).settings
  rw [← settings] at scratch address
  exact ⟨draws, literals.trans scratch, scratch, address⟩

/-- An operand that is no float can be fetched. -/
theorem admitsAs {base : Word} (aligned : base.toNat % 4 = 0) {t : Tables} (symbols : t.symbols = s.after.symbols)
    {sort : Operand} (noFloat : ∀ value, sort ≠ .float value) : t.AdmitsAs (q.data.address base) sort := by
  cases sort with
  | float value => exact absurd rfl (noFloat value)
  | name name =>
    intro e cell _
    rw [symbols] at cell
    exact chain.admits_cell aligned cell
  | immediate | text => trivial

theorem admits_operand {base : Word} (aligned : base.toNat % 4 = 0) {operand : String}
    (noFloat : ∀ value, Operand.ofFetched operand ≠ .float value) :
    (s.after.tablesAt s).Admits (q.data.address base) operand :=
  chain.admitsAs aligned rfl noFloat

variable {array start stop : String}

/-- The bounds of a fill have their registers when it is done. -/
theorem lookup?_of_namesIn (fill : s.stmt = .zeroFill array start stop) {name : String}
    (named : name ∈ Stmt.namesIn start ++ Stmt.namesIn stop) : ∃ r, s.after.registers.lookup? name = some r := by
  obtain ⟨-, ran, -⟩ := chain.around
  have meets : Meets s.before s.after
      ((Stmt.zeroFill array start stop).demand s.before.symbols s.before.params) := fill ▸ Lower.meets_line ran
  apply Option.isSome_iff_exists.mp
  rw [RegisterFile.lookup?_isSome, meets.bound, Stmt.demand, Demand.mem_names_append]
  right
  right
  simpa [Demand.names, Demand.fetching, Operand.ofFetched, Stmt.namesIn] using named

/-- The code of a fill in a program, at whatever place it stands. -/
theorem walks_fill (scratch : config.scratch = defaultScratch) (address : config.address = defaultAddress)
    {base : Word} (aligned : base.toNat % 4 = 0) (fill : s.stmt = .zeroFill array start stop)
    {symbol : Symbol} (declared : s.before.symbols.cell? array = some symbol)
    (isArray : symbol.isArray = true) (noFloat : ∀ value, Operand.ofFetched start ≠ .float value)
    (noFloat' : ∀ value, Operand.ofFetched stop ≠ .float value) {m : Image} {rest : List Node}
    (text : m.text = q.text ++ rest) {c : Core} {first last : Word}
    (bounds : (s.after.tablesAt s).bounds (q.data.address base) c start stop = (first, last)) :
    let place := q.data.address base
    let rounds := (last - first).toNat
    let cursor := place array + first * BitVec.ofNat 32 symbol.type.size
    let tail := after.flatMap TraceStep.nodes ++ rest
    m.text = before.flatMap TraceStep.nodes ++ s.nodes ++ tail ∧
    ∃ code exit d, s.nodes = code ++ [.label exit] ∧
      m.Walks place ⟨c, s.nodes ++ tail, []⟩ ⟨d, .label exit :: tail,
        (List.range rounds).map fun k => cursor + BitVec.ofNat 32 (k * symbol.type.size)⟩ ∧
      d.memory = Memory.clear symbol.type.width rounds cursor c.memory ∧
      ∀ r ∈ config.pool, (∀ name ∈ Stmt.namesIn start ++ Stmt.namesIn stop,
        s.after.registers.lookup? name ≠ some r) → d.reg r = c.reg r := by
  intro place rounds cursor tail
  let t := s.after.tablesAt s
  obtain ⟨earlier, ran, -⟩ := chain.around
  have standard : t.Standard := chain.standard_tablesAt scratch address
  have cell := chain.cell?_step declared
  have entry : t.symbols.lookup? array = some symbol := SymbolTable.lookup?_of_cell? cell
  have type : (t.symbols.elementType array).width = symbol.type.width := by
    simp [SymbolTable.elementType, entry, isArray]
  have size : t.symbols.elementSize array = symbol.type.width.bytes := by
    rw [SymbolTable.elementSize, entry]
    rfl
  have laid := (earlier.concat ran).laid s (by simp)
  rw [fill] at laid
  have whole : m.text = before.flatMap TraceStep.nodes ++ s.nodes ++ tail := by
    rw [text, chain.text, List.flatMap_append, List.flatMap_cons]
    simp [tail, Pass.ready, Pass.start]
  have here : before.flatMap TraceStep.nodes = s.before.text := by
    rw [earlier.text]
    rfl
  have absent := fun l made => here ▸ chain.label_notMem_text (l := l) made
  obtain ⟨⟨code, ends⟩, d, walks, memory, others⟩ := Tables.walks_fillCode standard type size laid whole absent
    (chain.admits_operand aligned noFloat) (chain.admits_operand aligned noFloat')
    (chain.admits_cell aligned cell) bounds
  refine ⟨whole, code, _, d, ends, walks, memory, fun r pooled unbound => ?_⟩
  have unusual : r ∉ defaultScratch ++ defaultAddress := by
    rw [← scratch, ← address, List.mem_append]
    rintro (literal | located)
    · exact config.not_mem_pool_of_scratch literal pooled
    · exact config.not_mem_pool_of_address located pooled
  have unfetched : ∀ operand w, w ∈ defaultScratch ++ defaultAddress → w ≠ "" →
      Stmt.namesIn operand ⊆ Stmt.namesIn start ++ Stmt.namesIn stop → r ≠ (t.fetch operand (some w)).1 := by
    intro operand w usual named among same
    rcases Tables.Standard.fetch_fst (t := t) operand named with offered | ⟨name, mentioned, bound⟩
    · rw [same, offered] at unusual
      exact unusual usual
    · obtain ⟨own, found⟩ := chain.lookup?_of_namesIn fill (among mentioned)
      have register : t.register name = own := congrArg (·.getD "") found
      exact unbound name (among mentioned) (by rw [found, same, bound, register])
  exact others r unusual (unfetched start "$a2" (by decide) (by decide) (List.subset_append_left _ _))
    (unfetched stop "$a1" (by decide) (by decide) (List.subset_append_right _ _))

end Chain

/-! ## Bounds -/

/-- No other name has the register of a name. -/
def RegisterFile.IsAlone (f : RegisterFile) (name : String) : Prop :=
  ∀ other ∈ f.names, f.lookup? other = f.lookup? name → other = name

instance (f : RegisterFile) (name : String) : Decidable (f.IsAlone name) :=
  inferInstanceAs (Decidable (∀ other ∈ f.names, _))

/-- An operand that has its value until it is used: a number, a scalar in its cell, or a name without a cell
    that is alone in its register. -/
inductive Pass.IsBound (q : Pass) (operand : String) : Prop where
  | number {value : String} (sort : Operand.ofFetched operand = .immediate value)
  | scalar {name : String} {e : Symbol} (sort : Operand.ofFetched operand = .name name)
      (cell : q.symbols.cell? name = some e) (isScalar : e.isArray = false)
  | temporary {name : String} (sort : Operand.ofFetched operand = .name name)
      (cell : q.symbols.cell? name = none) (alone : q.registers.IsAlone name)

namespace Pass.IsBound

variable {q : Pass} {operand : String}

theorem ne_float (bound : q.IsBound operand) (value : String) : Operand.ofFetched operand ≠ .float value := by
  intro float
  cases bound with
  | number sort | scalar sort | temporary sort => cases sort.symm.trans float

end Pass.IsBound

theorem Stmt.mem_namesIn {operand name : String} :
    name ∈ namesIn operand ↔ Operand.ofFetched operand = .name name := by
  unfold namesIn Operand.ofFetched
  cases Operand.ofString (Text.stripped operand) <;> simp [Operand.names, eq_comm]

theorem Tables.value_of_register {t : Tables} {operand name : String}
    (sort : Operand.ofFetched operand = .name name) (cell : t.symbols.cell? name = none) (place : String → Word)
    (c : Core) : t.value place c operand = c.reg (t.register name) := by
  show t.valueAs place c (Operand.ofFetched operand) = _
  rw [sort, valueAs, cell]

/-- Fetching the first bound of a fill does not change the value of the last. -/
theorem Chain.bounds_eq {config : Config} {program : Program} {before after : List TraceStep} {s : TraceStep}
    {q : Pass} (chain : Chain (Pass.ready config program) (before ++ s :: after) q)
    (scratch : config.scratch = defaultScratch) (address : config.address = defaultAddress)
    {array start stop : String} (fill : s.stmt = .zeroFill array start stop) (last : s.after.IsBound stop)
    (place : String → Word) (c : Core) :
    (s.after.tablesAt s).bounds place c start stop =
      ((s.after.tablesAt s).value place c start, (s.after.tablesAt s).value place c stop) := by
  let t := s.after.tablesAt s
  let holder := (t.fetch start (some t.config.indexRegister)).1
  let loaded := c.setReg holder (t.value place c start)
  have standard : t.Standard := chain.standard_tablesAt scratch address
  have stored : t.Stored stop → t.value place loaded stop = t.value place c stop := fun stored =>
    stored.value_congr (c := c) (d := loaded) rfl
  refine congrArg (Prod.mk (t.value place c start)) ?_
  cases last with
  | number sort => exact stored fun name named => by cases sort.symm.trans named
  | @scalar name e sort cell isScalar =>
    refine stored fun other named => ?_
    cases sort.symm.trans named
    exact Option.isSome_iff_exists.mpr ⟨e, cell⟩
  | @temporary name sort cell alone =>
    have value := Tables.value_of_register (t := t) sort cell place
    refine (value loaded).trans (Eq.trans ?_ (value c).symm)
    by_cases same : t.register name = holder
    · -- Then the first bound is the same name, and has the value already.
      have index : holder = (t.fetch start (some "$a2")).1 := by rw [← standard.indexRegister]
      rcases Tables.Standard.fetch_fst (t := t) start (show "$a2" ≠ "" by decide) with
        offered | ⟨other, mentioned, bound⟩
      · exact absurd (same.trans (index.trans offered)) (standard.register_ne name (by decide))
      · obtain ⟨r, found⟩ := chain.lookup?_of_namesIn fill (List.mem_append_left _ mentioned)
        obtain ⟨r', found'⟩ := chain.lookup?_of_namesIn fill
          (List.mem_append_right _ (Stmt.mem_namesIn.mpr sort))
        have register : t.register other = r := congrArg (·.getD "") found
        have register' : t.register name = r' := congrArg (·.getD "") found'
        have shared : s.after.registers.lookup? other = s.after.registers.lookup? name := by
          rw [found, found', ← register, ← register', same, index, bound]
        have member : other ∈ s.after.registers.names := by
          rw [← RegisterFile.lookup?_isSome, found]
          rfl
        obtain rfl : other = name := alone other member shared
        have notZero : holder ≠ zeroRegister := same ▸ Tables.register_ne_zeroRegister standard.draws other
        rw [same, c.reg_setReg_self _ notZero, ← same]
        exact Tables.value_of_register (Stmt.mem_namesIn.mp mentioned) cell place c
    · exact c.reg_setReg_of_ne _ same

/-! ## Programs -/

section

variable {config : Config} {program : Program} {listing : String} {p : Pass} {base : Word}
  {before after : List TraceStep} {s : TraceStep} {array start stop : String} {symbol : Symbol}

/-- A step of a program that is lowered, and what the listing is made of. -/
theorem chain_of_lowered (lowered : lowerProgram config program = (.ok listing, p))
    (here : (traceProgram config program).1 = before ++ s :: after) :
    ∃ q, Chain (Pass.ready config program) (before ++ s :: after) q ∧ p.data = q.data ∧
      p.image.text = q.text ++ exitNodes q.config := by
  obtain ⟨q, ran, -, rfl⟩ := lowerProgram_iff.mp ⟨listing, lowered⟩
  exact ⟨q, here ▸ (chain_traceFrom ran).1, rfl, rfl⟩

/-- Elements counted from the first index are those with the indices from the first one on. -/
theorem cursor_add (a first : Word) (size k : Nat) :
    a + first * BitVec.ofNat 32 size + BitVec.ofNat 32 (k * size) =
      a + BitVec.ofNat 32 ((first.toNat + k) * size) := by
  rw [BitVec.add_assoc, Nat.add_mul, BitVec.ofNat_add, BitVec.ofNat_mul first.toNat, BitVec.ofNat_toNat,
    BitVec.setWidth_eq]

/-- The code of a fill between bounds that are in order.  It gets to its last line, a label.  On the way it
    stores once for each element from the first index up to the last, in this order; the bytes of these
    elements are zero then, and no other byte is changed.  Of the registers for names it writes only to those
    of its bounds. -/
theorem lowerProgram_zeroFill (lowered : lowerProgram config program = (.ok listing, p))
    (scratch : config.scratch = defaultScratch) (address : config.address = defaultAddress)
    (aligned : base.toNat % 4 = 0) (here : (traceProgram config program).1 = before ++ s :: after)
    (fill : s.stmt = .zeroFill array start stop) (declared : s.before.symbols.cell? array = some symbol)
    (isArray : symbol.isArray = true) (isFirst : s.after.IsBound start) (isLast : s.after.IsBound stop)
    (c : Core) :
    let place := p.data.address base
    let first := (s.after.tablesAt s).value place c start
    let last := (s.after.tablesAt s).value place c stop
    let element (i : Nat) : Word := place array + BitVec.ofNat 32 (i * symbol.type.size)
    0 ≤ first.toInt → first.toInt ≤ last.toInt →
    ∃ code exit tail d,
      s.nodes = code ++ [.label exit] ∧
      p.text = before.flatMap TraceStep.nodes ++ s.nodes ++ tail ∧
      p.image.Walks place ⟨c, s.nodes ++ tail, []⟩ ⟨d, .label exit :: tail,
        (List.range' first.toNat (last.toNat - first.toNat)).map element⟩ ∧
      (∀ i, first.toNat ≤ i → i < last.toNat → ∀ x, (x - element i).toNat < symbol.type.size →
        d.memory x = 0) ∧
      (∀ x, (∀ i, first.toNat ≤ i → i < last.toNat → ¬ (x - element i).toNat < symbol.type.size) →
        d.memory x = c.memory x) ∧
      ∀ r ∈ config.pool, (∀ name ∈ Stmt.namesIn start ++ Stmt.namesIn stop,
        s.after.registers.lookup? name ≠ some r) → d.reg r = c.reg r := by
  intro place first last element positive ordered
  obtain ⟨q, chain, data, text⟩ := chain_of_lowered lowered here
  have bounds : (s.after.tablesAt s).bounds (q.data.address base) c start stop = (first, last) :=
    data ▸ chain.bounds_eq scratch address fill isLast place c
  obtain ⟨whole, code, exit, d, ends, walks, memory, others⟩ := chain.walks_fill scratch address aligned fill
    declared isArray isFirst.ne_float isLast.ne_float text bounds
  have rounds : (last - first).toNat = last.toNat - first.toNat := by
    rw [BitVec.toInt_eq_toNat_cond] at positive ordered
    rw [BitVec.toInt_eq_toNat_cond] at ordered
    bv_omega
  have shift : ∀ k, place array + first * BitVec.ofNat 32 symbol.type.size +
      BitVec.ofNat 32 (k * symbol.type.size) = element (first.toNat + k) := cursor_add _ _ _
  rw [← data, rounds] at walks memory
  have cleared : ∀ x, d.memory x = if ∃ k < last.toNat - first.toNat,
      (x - element (first.toNat + k)).toNat < symbol.type.size then 0 else c.memory x := by
    intro x
    simp only [← shift]
    rw [memory, Memory.clear_apply]
    rfl
  refine ⟨code, exit, _, d, ends, whole, ?_, ?_, ?_, others⟩
  · simpa only [List.range'_eq_map_range, List.map_map, Function.comp_def, ← shift] using walks
  · intro i lower upper x inside
    rw [cleared, if_pos ⟨i - first.toNat, by omega, by rwa [Nat.add_sub_cancel' lower]⟩]
  · intro x outside
    rw [cleared, if_neg]
    rintro ⟨k, below, inside⟩
    exact outside (first.toNat + k) (by omega) (by omega) inside

/-- The code of a fill whose last index is not above the first, as the code gets them.  Between equal bounds
    it gets to its last line without a store.  If the last one is less, it gets there as well, but only when
    the index has gone all the way around: it stores in every round, and first of all it clears the element
    at the first index, which is not between the bounds. -/
theorem lowerProgram_zeroFill_reversed (lowered : lowerProgram config program = (.ok listing, p))
    (scratch : config.scratch = defaultScratch) (address : config.address = defaultAddress)
    (aligned : base.toNat % 4 = 0) (here : (traceProgram config program).1 = before ++ s :: after)
    (fill : s.stmt = .zeroFill array start stop) (declared : s.before.symbols.cell? array = some symbol)
    (isArray : symbol.isArray = true) (noFloat : ∀ value, Operand.ofFetched start ≠ .float value)
    (noFloat' : ∀ value, Operand.ofFetched stop ≠ .float value) {c : Core} {first last : Word}
    (bounds : (s.after.tablesAt s).bounds (p.data.address base) c start stop = (first, last))
    (reversed : last.toInt ≤ first.toInt) :
    let place := p.data.address base
    let cursor := place array + first * BitVec.ofNat 32 symbol.type.size
    ∃ code exit tail d stores,
      s.nodes = code ++ [.label exit] ∧
      p.text = before.flatMap TraceStep.nodes ++ s.nodes ++ tail ∧
      p.image.Walks place ⟨c, s.nodes ++ tail, []⟩ ⟨d, .label exit :: tail, stores⟩ ∧
      (first = last → stores = [] ∧ d.memory = c.memory) ∧
      (first ≠ last → (stores.length : Int) = 4294967296 - (first.toInt - last.toInt) ∧
        stores.head? = some cursor ∧ ∀ x, (x - cursor).toNat < symbol.type.size → d.memory x = 0) := by
  intro place cursor
  obtain ⟨q, chain, data, text⟩ := chain_of_lowered lowered here
  obtain ⟨whole, code, exit, d, ends, walks, memory, -⟩ := chain.walks_fill scratch address aligned fill
    declared isArray noFloat noFloat' text (data ▸ bounds)
  rw [← data] at walks memory
  refine ⟨code, exit, _, d, _, ends, whole, walks, ?_, ?_⟩
  · rintro rfl
    rw [BitVec.sub_self] at memory ⊢
    exact ⟨rfl, memory⟩
  · intro differs
    have rounds : ((last - first).toNat : Int) = 4294967296 - (first.toInt - last.toInt) := by
      rw [BitVec.toInt_eq_toNat_cond, BitVec.toInt_eq_toNat_cond] at reversed ⊢
      bv_omega
    obtain ⟨n, count⟩ : ∃ n, (last - first).toNat = n + 1 := Nat.exists_eq_succ_of_ne_zero (by bv_omega)
    rw [count] at memory rounds ⊢
    refine ⟨by simpa using rounds, by simp [List.range_succ_eq_map, cursor, place], fun x inside => ?_⟩
    have atFirst : (x - (cursor + BitVec.ofNat 32 (0 * symbol.type.size))).toNat < symbol.type.size := by
      rwa [Nat.zero_mul, BitVec.add_zero]
    rw [memory, Memory.clear_apply, if_pos ⟨0, Nat.succ_pos n, atFirst⟩]

end

/-- A fill from an index in a register up to one in a cell, in an array that comes behind three bytes. -/
def clearsMiddle : Program :=
  Program.ofStmts
    [.declareArray "c" 3 (some "char") false,
      .declare "x" (some "int") false,
      .declareArray "a" 4 (some "int") false,
      .assign "t" (some "1") none none,
      .zeroFill "a" "t" "x"]

/-- The register has 1 and the cell has 3.  All bits of other bytes are set. -/
def middleCore : Core where
  registers r := if r = "$s0" then 1 else 0
  memory x := if x = 0x10010004 then 3 else if (x - 0x10010004).toNat < 4 then 0 else 255

/-- A list around one of its elements. -/
theorem eq_take_append_cons_drop {α : Type} {as : List α} {i : Nat} {a : α} (found : as[i]? = some a) :
    as = as.take i ++ a :: as.drop (i + 1) := by
  obtain ⟨bound, rfl⟩ := List.getElem?_eq_some_iff.mp found
  rw [List.cons_getElem_drop_succ, List.take_append_drop]

theorem clearsMiddle_zeroFill :
    ∃ listing p s exit tail d, lowerProgram (Config.standard false) clearsMiddle = (.ok listing, p) ∧
      (traceProgram (Config.standard false) clearsMiddle).1[4]? = some s ∧
      p.image.Walks (p.data.address 0x10010000) ⟨middleCore, s.nodes ++ tail, []⟩
        ⟨d, .label exit :: tail, [0x1001000c, 0x10010010]⟩ ∧
      d.memory 0x10010013 = 0 ∧ d.memory 0x10010014 = 255 := by
  let steps := (traceProgram (Config.standard false) clearsMiddle).1
  let p := (lowerProgram (Config.standard false) clearsMiddle).2
  let place := p.data.address 0x10010000
  let array : Symbol := ⟨"a", .array, .int, 4, true⟩
  have runs : (lowerProgram (Config.standard false) clearsMiddle).1.isOk = true ∧
      place "a" = 0x10010008 ∧ Stmt.namesIn "t" = ["t"] ∧ Stmt.namesIn "x" = ["x"] := by
    decide +kernel
  have step : steps[4]?.map (fun s => (s.stmt, s.before.symbols.cell? "a", s.after.symbols.cell? "x",
      s.after.symbols.cell? "t", decide (s.after.registers.IsAlone "t"))) =
      some (.zeroFill "a" "t" "x", some array, some (intSymbol "x"), none, true) := by
    decide +kernel
  have values : steps[4]?.map (fun s => ((s.after.tablesAt s).value place middleCore "t",
      (s.after.tablesAt s).value place middleCore "x")) = some (1, 3) := by
    decide +kernel
  obtain ⟨succeeds, atArray, names, names'⟩ := runs
  obtain ⟨s, found, step⟩ := Option.map_eq_some_iff.mp step
  simp only [Prod.mk.injEq, decide_eq_true_eq] at step
  obtain ⟨fill, declared, cell, noCell, alone⟩ := step
  rw [found, Option.map_some, Option.some.injEq, Prod.mk.injEq] at values
  obtain ⟨one, three⟩ := values
  obtain ⟨listing, lowered⟩ := exists_of_isOk succeeds
  have sort : Operand.ofFetched "t" = .name "t" := Stmt.mem_namesIn.mp (names ▸ List.mem_singleton_self _)
  have sort' : Operand.ofFetched "x" = .name "x" := Stmt.mem_namesIn.mp (names' ▸ List.mem_singleton_self _)
  obtain ⟨code, exit, tail, d, -, -, walks, cleared, kept, -⟩ :=
    lowerProgram_zeroFill lowered rfl rfl (show (0x10010000 : Word).toNat % 4 = 0 by decide)
      (eq_take_append_cons_drop found) fill declared rfl (.temporary sort noCell alone) (.scalar sort' cell rfl)
      middleCore (one ▸ by decide) (one ▸ three ▸ by decide)
  rw [one, three] at walks cleared kept
  have stores : (List.range' 1 2).map (fun i => place "a" + BitVec.ofNat 32 (i * 4)) =
      [0x1001000c, 0x10010010] := by
    rw [atArray]
    decide
  refine ⟨listing, p, s, exit, tail, d, lowered, found, stores ▸ walks, ?_, ?_⟩
  · refine cleared 2 (by decide) (by decide) _ ?_
    show (0x10010013 - (place "a" + 8)).toNat < 4
    rw [atArray]
    decide
  · refine kept _ fun i lower upper => ?_
    show ¬ (0x10010014 - (place "a" + BitVec.ofNat 32 (i * 4))).toNat < 4
    have between : i = 1 ∨ i = 2 := by
      have : i < 3 := upper
      have : 1 ≤ i := lower
      omega
    rw [atArray]
    rcases between with rfl | rfl <;> decide

/-- A fill from the last element of an array down to the second. -/
def clearsBackward : Program :=
  Program.ofStmts [.declareArray "a" 4 (some "int") false, .zeroFill "a" "3" "1"]

theorem clearsBackward_zeroFill_reversed :
    ∃ listing p s exit tail d stores,
      lowerProgram (Config.standard false) clearsBackward = (.ok listing, p) ∧
      (traceProgram (Config.standard false) clearsBackward).1[1]? = some s ∧
      p.image.Walks (p.data.address 0x10010000) ⟨middleCore, s.nodes ++ tail, []⟩
        ⟨d, .label exit :: tail, stores⟩ ∧
      (stores.length : Int) = 4294967294 ∧ stores.head? = some 0x1001000c := by
  let steps := (traceProgram (Config.standard false) clearsBackward).1
  let p := (lowerProgram (Config.standard false) clearsBackward).2
  let place := p.data.address 0x10010000
  let array : Symbol := ⟨"a", .array, .int, 4, true⟩
  have runs : (lowerProgram (Config.standard false) clearsBackward).1.isOk = true ∧ place "a" = 0x10010000 ∧
      (Operand.ofFetched "3").pooled? = none ∧ (Operand.ofFetched "1").pooled? = none := by
    decide +kernel
  have step : steps[1]?.map (fun s => (s.stmt, s.before.symbols.cell? "a",
      (s.after.tablesAt s).bounds place middleCore "3" "1")) =
      some (.zeroFill "a" "3" "1", some array, (3, 1)) := by
    decide +kernel
  have noFloat : ∀ {operand}, (Operand.ofFetched operand).pooled? = none →
      ∀ value, Operand.ofFetched operand ≠ .float value := by
    intro operand unpooled value float
    rw [float] at unpooled
    cases unpooled
  obtain ⟨succeeds, atArray, unpooled, unpooled'⟩ := runs
  obtain ⟨s, found, step⟩ := Option.map_eq_some_iff.mp step
  simp only [Prod.mk.injEq] at step
  obtain ⟨fill, declared, bounds⟩ := step
  obtain ⟨listing, lowered⟩ := exists_of_isOk succeeds
  obtain ⟨code, exit, tail, d, stores, -, -, walks, -, around⟩ :=
    lowerProgram_zeroFill_reversed lowered rfl rfl (show (0x10010000 : Word).toNat % 4 = 0 by decide)
      (eq_take_append_cons_drop found) fill declared rfl (noFloat unpooled) (noFloat unpooled')
      bounds (by decide)
  obtain ⟨count, head, -⟩ := around (by decide)
  refine ⟨listing, p, s, exit, tail, d, stores, lowered, found, walks, count, head.trans ?_⟩
  show some (place "a" + _) = _
  rw [atArray]
  decide

/-- The ninth step of this program stores something. -/
theorem clearsBackward_stores :
    ((fun w => w.bind ((lowerProgram (Config.standard false) clearsBackward).2.image.walk?
        ((lowerProgram (Config.standard false) clearsBackward).2.data.address 0x10010000)))^[9]
      (some ⟨middleCore, (lowerProgram (Config.standard false) clearsBackward).2.text, []⟩)).map Walker.stores =
      some [0x1001000c] := by
  decide +kernel

end MipsLowering
