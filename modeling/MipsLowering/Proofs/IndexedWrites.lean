import MipsLowering.Proofs.ElementLines
import MipsLowering.Proofs.FetchPaths
import MipsLowering.Proofs.ZeroFills

/-! # Writes to elements that do not reach the array

A line that assigns to an element assigns to a name of its own, which is spelled like the element.  Its code leaves
the value in the register of this name, and in its cell if it has one, and no byte of the array changes.  A line
that reads the element goes to memory, and so finds there what was in the element before
(`lowerProgram_toElement_fromElement`). -/

namespace MipsLowering

-- The class of an operand is only used through the theorems about it.
seal Operand.ofString

/-- What is loaded with some width can be stored with it. -/
theorem Memory.narrow_read (m : Memory) (width : Width) (a : Word) :
    width.narrow (m.read width a) = m.read width a := by
  cases width with
  | word => rfl
  | byte =>
    show ((((m a).signExtend 32).setWidth 8).signExtend 32) = (m a).signExtend 32
    have low : ((m a).signExtend 32).setWidth 8 = m a := by
      ext i inside
      rw [BitVec.getElem_setWidth, BitVec.getLsbD_signExtend, if_pos inside, BitVec.getLsbD_eq_getElem inside]
      simp only [show i < 32 by omega, decide_true, Bool.true_and]
    rw [low]

/-! ## Diagnostics -/

theorem Pass.diagnostics_fetched (p : Pass) (operand : String) : (p.fetched operand).diagnostics = p.diagnostics := by
  unfold fetched
  split
  · rfl
  · rfl
  · rfl
  · split <;> rfl

namespace Lower

open Emit

variable {p q : Pass}

theorem diagnostics_storeBack {name : String} {register : Register}
    (ran : (storeBack name register).run p = .ok () q) :
    q.diagnostics = p.diagnostics ↔ ∀ s, q.symbols.cell? name = some s → s.isArray = false := by
  obtain ⟨_, lays, -⟩ := lays_storeBack ran
  rw [lays.symbols]
  rcases run_storeBack_ok ran with ⟨absent, rfl⟩ | ⟨s, cell, ⟨array, ran⟩ | ⟨scalar, ran⟩⟩
  · simp [absent]
  · cases ran
    simp [cell, array]
  · cases ran
    simp [cell, scalar]

/-- A copy is remarked on if its target is an array. -/
theorem diagnostics_copy {target operand : String} (named : target ≠ "") (stripped : Text.stripped operand = operand)
    (filled : operand ≠ "") (ran : (stmt (.assign target (some operand) none none)).run p = .ok () q) :
    q.diagnostics = p.diagnostics ↔ ∀ s, q.symbols.cell? target = some s → s.isArray = false := by
  obtain ⟨dest, bound, binds, -, diagnostics, -⟩ := exists_bindTarget p operand named
  obtain ⟨nodes, loaded, -⟩ := emits_loadInto stripped filled bound dest
  have stored : (storeBack target dest).run { bound.fetched operand with text := bound.text ++ nodes } = .ok () q := by
    have whole : (do
        let dest ← bindTarget target operand
        loadInto dest operand
        storeBack target dest : Emit Unit).run p = .ok () q := ran
    simpa only [run_bind, binds, loaded] using whole
  rw [← diagnostics_storeBack stored, ← diagnostics, ← bound.diagnostics_fetched operand]

end Lower

/-! ## Addresses -/

theorem exists_start_of_mem_assemble {offset : Nat} {directives : List Directive} {b : Block}
    (member : b ∈ assemble offset directives) : ∃ before, b.start = b.directive.storage.start before := by
  induction directives generalizing offset with
  | nil => cases member
  | cons d rest ih =>
    rcases List.mem_cons.mp member with rfl | later
    · exact ⟨offset, rfl⟩
    · exact ih later

/-- Where labels are different, a label finds its own directive. -/
theorem eq_of_nodup_labels {directives : List Directive} (distinct : (directives.filterMap Directive.label).Nodup)
    {d e : Directive} (first : d ∈ directives) (second : e ∈ directives) {label : String}
    (labelled : d.label = some label) (labelled' : e.label = some label) : d = e := by
  -- Directives without a label are not counted, so two of them may well be the same.
  have apart : directives.Pairwise fun d e => ∀ label, d.label = some label → e.label ≠ some label := by
    refine (List.pairwise_filterMap.mp distinct).imp fun apart label first second => ?_
    exact apart label first label second rfl
  by_contra differs
  have symmetric : Std.Symm fun d e : Directive => ∀ label, d.label = some label → e.label ≠ some label :=
    ⟨fun _ _ apart label first second => apart label second first⟩
  exact apart.forall first second differs label labelled labelled'

/-- A float of the pool can be loaded. -/
theorem DataSection.admits_float {d : DataSection} (distinct : (d.directives.filterMap Directive.label).Nodup)
    {written label : String} (found : d.literalLabel? .float written = some label) {base : Word}
    (aligned : base.toNat % 4 = 0) : Width.word.Admits (d.address base label) := by
  obtain ⟨l, first, rfl⟩ := Option.map_eq_some_iff.mp found
  have member : l ∈ d.literals := List.mem_of_find?_eq_some first
  have isFloat : l.kind = .float := by
    have hit := List.find?_some first
    simp only [Bool.and_eq_true, beq_iff_eq] at hit
    exact hit.1
  have directive : l.directive = ⟨some l.label, .float l.value, none⟩ := by
    unfold Literal.directive
    rw [isFloat]
  have listed : l.directive ∈ d.directives := List.mem_append_right _ (List.mem_map_of_mem member)
  -- Labels are distinct, so the block of the label is that of the float, which is aligned like a word.
  have start : d.startOf l.label % 4 = 0 := by
    rw [startOf]
    cases block : d.block? l.label with
    | none => rfl
    | some b =>
      have placed := List.mem_of_find?_eq_some block
      have label : b.directive.label = some l.label := by simpa using List.find?_some block
      have same : b.directive = l.directive :=
        eq_of_nodup_labels distinct (directive_mem_of_mem_assemble placed) listed label (by rw [directive])
      obtain ⟨before, start⟩ := exists_start_of_mem_assemble placed
      rw [Option.map_some, Option.getD_some, start, same, directive]
      exact alignWord_mod before
  unfold Width.Admits address
  rw [BitVec.toNat_add, BitVec.toNat_ofNat]
  simp only [Width.bytes]
  omega

namespace Chain

variable {config : Config} {program : Program} {before after : List TraceStep} {s : TraceStep} {q : Pass}
  (chain : Chain (Pass.ready config program) (before ++ s :: after) q)

include chain

/-- What a statement fetches can be loaded. -/
theorem admitsAs_asked (distinct : (q.data.directives.filterMap Directive.label).Nodup) {base : Word}
    (aligned : base.toNat % 4 = 0) {operand : Operand} (asked : operand ∈ s.demand.operands) :
    (q.tablesAt s).AdmitsAs (q.data.address base) operand := by
  cases operand with
  | float value =>
    -- A float is loaded from the pool, where this very statement has put it, and entries never move.
    obtain ⟨-, ran, later⟩ := chain.around
    have meets : Meets s.before s.after s.demand := Lower.meets_line ran
    obtain ⟨nodes, -, served⟩ := meets.text
    obtain ⟨i, r, label, -, found, -⟩ :=
      served.loads (.float, value) (List.mem_filterMap.mpr ⟨_, asked, rfl⟩)
    have found := DataSection.literalLabel?_of_prefix later.growth.literals found
    have labelled : (q.tablesAt s).literal .float value = label := congrArg (·.getD "") found
    rw [Tables.AdmitsAs, labelled]
    exact q.data.admits_float distinct found aligned
  | immediate | text | name => exact chain.admitsAs aligned rfl (by simp)

/-- What is copied can be loaded. -/
theorem admits_copied (distinct : (q.data.directives.filterMap Directive.label).Nodup) {base : Word}
    (aligned : base.toNat % 4 = 0) {target operand : String} (stripped : Text.stripped operand = operand)
    (copies : s.stmt = .assign target (some operand) none none) :
    (q.tablesAt s).Admits (q.data.address base) operand := by
  apply chain.admitsAs_asked distinct aligned
  rw [TraceStep.demand, copies, stripped]
  exact List.mem_singleton.mpr rfl

/-- A statement that declares nothing leaves the cells as they are. -/
theorem cell?_eq (silent : s.stmt.entry? = none) (name : String) :
    s.after.symbols.cell? name = s.before.symbols.cell? name := by
  obtain ⟨earlier, -, -⟩ := chain.around
  rw [chain.cell?_after, (cells_lines earlier.run_lines).2 name, List.filterMap_append, List.filterMap_map]
  simp [silent]

theorem name_of_cell? {name : String} {e : Symbol} (cell : s.after.symbols.cell? name = some e) : e.name = name := by
  rw [chain.cell?_after] at cell
  simpa using List.find?_some cell

section

variable {array : String} {symbol : Symbol} (cell : s.after.symbols.cell? array = some symbol)
  (isArray : symbol.isArray = true) (small : q.data.size ≤ 2 ^ 32) {i : Word} (lower : 0 ≤ i.toInt)
  (upper : i.toInt < symbol.length)

include cell isArray small lower upper

/-- An element within bounds is a slot of its array. -/
theorem exists_slot (base : Word) : ∃ slot : Slot, slot.Declared [symbol] ∧ slot.name = array ∧
    q.data.Keeps [symbol] ∧ slot.width [symbol] = symbol.type.width ∧
    slot.address q.data base [symbol] = q.data.address base array + i * BitVec.ofNat 32 symbol.type.size := by
  obtain rfl := chain.name_of_cell? cell
  have type : arrayType [symbol] symbol.name = symbol.type := by simp [arrayType]
  refine ⟨.element symbol.name i.toNat, ⟨symbol, by simp, rfl, isArray, ?_⟩, rfl, ⟨by simp, ?_, small⟩, ?_, ?_⟩
  · rw [BitVec.toInt_eq_toNat_cond] at lower upper
    omega
  · simpa using block?_of_cell? chain.run_lines (chain.cell?_final cell)
  · rw [Slot.width, type]
  · rw [Slot.address, Slot.start, type, DataSection.address, BitVec.ofNat_add, BitVec.ofNat_mul, BitVec.ofNat_toNat,
      BitVec.setWidth_eq, BitVec.add_assoc]

/-- The tables know the type of an array, and an element within bounds can be accessed. -/
theorem element_spec {base : Word} (aligned : base.toNat % 4 = 0) :
    let t := q.tablesAt s
    t.symbols.elementType array = symbol.type ∧ t.symbols.elementSize array = symbol.type.size ∧
      (t.symbols.elementType array).width.Admits
        (q.data.address base array + i * BitVec.ofNat 32 symbol.type.size) := by
  intro t
  have entry : t.symbols.lookup? array = some symbol := SymbolTable.lookup?_of_cell? cell
  obtain ⟨slot, declared, -, keeps, width, address⟩ := chain.exists_slot cell isArray small lower upper base
  have type : t.symbols.elementType array = symbol.type := by simp [SymbolTable.elementType, entry, isArray]
  have element := declared.admits keeps aligned
  rw [width, address] at element
  exact ⟨type, by rw [SymbolTable.elementSize, entry]; rfl, type.symm ▸ element⟩

/-- No byte of an element is in the cell of another name. -/
theorem apart_element {base : Word} {name : String} (other : name ≠ array) {e : Symbol}
    (cell' : q.symbols.cell? name = some e) (scalar : e.isArray = false) :
    Memory.Apart (q.data.address base array + i * BitVec.ofNat 32 symbol.type.size) symbol.type.size
      (q.data.address base name) e.type.size := by
  obtain ⟨slot, declared, rfl, keeps, width, address⟩ := chain.exists_slot cell isArray small lower upper base
  obtain ⟨b, found, start, stop, -⟩ := slot.inside keeps declared
  obtain ⟨b', found', fits⟩ := block?_of_cell? chain.run_lines cell'
  rw [width] at stop
  have apart := DataSection.apart_of_block? small found found' (Ne.symm other) base start stop (Nat.le_refl _)
    (Nat.le_of_eq (fits.stop_of_scalar scalar).symm)
  rwa [← DataSection.startOf_of_block? found', ← Slot.address, address] at apart

/-- A byte of an element is outside the cells that the step finds for other names. -/
theorem outside_element {base x : Word} {name : String} (other : name ≠ array) {e : Symbol}
    (cell' : s.after.symbols.cell? name = some e) (scalar : e.isArray = false)
    (inside : (x - (q.data.address base array + i * BitVec.ofNat 32 symbol.type.size)).toNat < symbol.type.size) :
    ¬ (x - q.data.address base name).toNat < e.type.size :=
  chain.apart_element cell isArray small lower upper other (chain.cell?_final cell') scalar x inside

end

/-! ## Steps -/

/-- The code of a copy, wherever it stands in a program. -/
theorem runs_copy (distinct : (q.data.directives.filterMap Directive.label).Nodup) {base : Word}
    (aligned : base.toNat % 4 = 0) {target operand : String} (stripped : Text.stripped operand = operand)
    (copies : s.stmt = .assign target (some operand) none none) (c : Core) :
    let t := q.tablesAt s
    let place := q.data.address base
    ∃ d, Core.run place s.nodes c = some d ∧ d.reg (t.register target) = t.value place c operand ∧
      d.memory = t.assigned place target (t.value place c operand) c.memory := by
  intro t place
  obtain ⟨settings, draws, -⟩ := chain.settings
  have laid := chain.laid s (by simp)
  rw [copies] at laid
  have code : s.nodes.map Node.bare = t.copyCode target operand := laid
  rw [← Core.run_map_bare, code]
  exact Tables.runs_copyCode draws (chain.admitsAs aligned rfl (by simp)) stripped
    (chain.admits_copied distinct aligned stripped copies) c

/-- The code that loads an element within bounds, wherever it stands in a program. -/
theorem runs_arrayLoad (roles : config.RolesApart) {base : Word} (aligned : base.toNat % 4 = 0)
    (small : q.data.size ≤ 2 ^ 32) {target array index : String} (loads : s.stmt = .arrayLoad target array index)
    {symbol : Symbol} (cell : s.after.symbols.cell? array = some symbol) (isArray : symbol.isArray = true)
    (noFloat : ∀ value, Operand.ofFetched index ≠ .float value) {c : Core} :
    let t := q.tablesAt s
    let place := q.data.address base
    let i := t.value place c index
    let v := c.memory.read symbol.type.width (place array + i * BitVec.ofNat 32 symbol.type.size)
    0 ≤ i.toInt → i.toInt < symbol.length →
    ∃ d, Core.run place s.nodes c = some d ∧ d.reg (t.register target) = v ∧
      d.memory = t.assigned place target v c.memory := by
  intro t place i v lower upper
  obtain ⟨settings, draws, -⟩ := chain.settings
  have laid := chain.laid s (by simp)
  rw [loads] at laid
  have code : s.nodes.map Node.bare = t.arrayLoadCode target array index := laid
  obtain ⟨type, size, element⟩ := chain.element_spec cell isArray small lower upper aligned
  have reached : t.AdmitsAs place (.name target) := chain.admitsAs aligned rfl (by simp)
  rw [← settings] at roles
  have ran := Tables.runs_arrayLoad draws roles reached (chain.admitsAs aligned rfl noFloat) (by rw [size]) element
  rwa [← code, Core.run_map_bare, type] at ran

/-- An element that is loaded goes to the cell of its target. -/
theorem runs_load (roles : config.RolesApart) {base : Word} (aligned : base.toNat % 4 = 0)
    (small : q.data.size ≤ 2 ^ 32) {target array index : String} (loads : s.stmt = .arrayLoad target array index)
    {symbol e : Symbol} (cell : s.after.symbols.cell? array = some symbol) (isArray : symbol.isArray = true)
    (cell' : s.after.symbols.cell? target = some e) (isScalar : e.isArray = false)
    (noFloat : ∀ value, Operand.ofFetched index ≠ .float value) {c : Core} :
    let place := q.data.address base
    let i := (q.tablesAt s).value place c index
    0 ≤ i.toInt → i.toInt < symbol.length →
    ∃ d, Core.run place s.nodes c = some d ∧
      d.memory = c.memory.write e.type.width (place target)
        (c.memory.read symbol.type.width (place array + i * BitVec.ofNat 32 symbol.type.size)) := by
  intro place i lower upper
  obtain ⟨d, ran, -, memory⟩ := chain.runs_arrayLoad roles aligned small loads cell isArray noFloat lower upper
  have entry : (q.tablesAt s).symbols.cell? target = some e := cell'
  rw [Tables.assigned_of_cell entry isScalar] at memory
  exact ⟨d, ran, memory⟩

end Chain

/-! ## Names of elements -/

theorem elementText_ne_array (array index : String) : elementText array index ≠ array := by
  intro same
  have lengths := congrArg (·.toList.length) same
  simp only [toList_elementText, List.length_append, List.length_cons] at lengths
  omega

theorem elementText_ne_empty (array index : String) : elementText array index ≠ "" := by
  intro same
  have chars := congrArg String.toList same
  simp [toList_elementText] at chars

theorem Text.stripped_of_strip {s : String} (whole : Text.strip s.toList = s.toList) : Text.stripped s = s := by
  rw [Text.stripped, whole, String.ofList_toList]

theorem ofFetched_index_ne_float {index : String} (isIndex : Lexeme.isIndex index.toList = true) (value : String) :
    Operand.ofFetched index ≠ .float value := by
  have token := Lexeme.token_of_isValue (Lexeme.isValue_of_isIndex isIndex)
  have stripped := Text.stripped_of_strip token.oneWord.strip_eq
  rw [Operand.ofFetched, stripped]
  rcases Bool.or_eq_true_iff.mp (Lexeme.isValue_of_isIndex isIndex) with name | integer
  · by_cases boolean : Lexeme.isBoolean index.toList = true
    · simp [Operand.ofString, boolean]
    · rw [ofString_of_isVariableName (by simp [isVariableName, name, boolean])]
      simp
  · simp [Operand.ofString, integer]

section

variable {array index : String} (isArray : Lexeme.isArrayName array.toList = true)
  (isIndex : Lexeme.isIndex index.toList = true)

include isArray isIndex

theorem stripped_elementText : Text.stripped (elementText array index) = elementText array index := by
  have arrayToken := Lexeme.token_of_isArrayName isArray
  have indexToken := Lexeme.token_of_isValue (Lexeme.isValue_of_isIndex isIndex)
  apply Text.stripped_of_strip
  rw [toList_elementText]
  exact (Stmt.oneWord_element arrayToken indexToken).strip_eq

/-- The text of an element is no literal. -/
theorem ofString_elementText : Operand.ofString (elementText array index) = .name (elementText array index) := by
  have arrayToken := Lexeme.token_of_isArrayName isArray
  have indexToken := Lexeme.token_of_isValue (Lexeme.isValue_of_isIndex isIndex)
  have word := Stmt.oneWord_element arrayToken indexToken
  apply Operand.ofString_of_not_literal
  rw [toList_elementText]
  generalize cs : array.toList ++ '[' :: (index.toList ++ [']']) = chars at word
  have bracket : '[' ∈ chars := cs ▸ (by simp)
  -- Whatever is a literal has no bracket, not even in other letters.
  have noInteger : Lexeme.isInteger chars = false := by
    by_contra integer
    exact (Lexeme.token_of_isInteger (by simpa using integer)).bracketless bracket
  have noFloat : Lexeme.isFloat chars = false := by
    by_contra float
    have char := Lexeme.char_of_isFloat (by simpa using float) '[' bracket
    rw [Lexeme.isTokenChar_of_mem_marks (by decide)] at char
    exact absurd char (by decide)
  have noBoolean : Lexeme.isBoolean chars = false := by
    have lowered : '[' ∈ chars.map Char.toLower := List.mem_map.mpr ⟨'[', bracket, rfl⟩
    by_contra boolean
    simp only [Lexeme.isBoolean, Lexeme.isTrue, Lexeme.isFalse, Bool.not_eq_false, Bool.or_eq_true, beq_iff_eq]
      at boolean
    rcases boolean with same | same
    · rw [same] at lowered
      exact absurd lowered (by decide)
    · rw [same] at lowered
      exact absurd lowered (by decide)
  have noLiteral := Stmt.not_literal_of_unquoted (cs ▸ Stmt.not_mem_element arrayToken indexToken (by decide))
    (cs ▸ Stmt.not_mem_element arrayToken indexToken (by decide))
  have noBlank : chars.any Text.isBlank = false := by simpa using word.solid
  rw [Bool.or_eq_false_iff] at noLiteral
  simp [Lexeme.isLiteral, Lexeme.isText, noInteger, noFloat, noBoolean, noLiteral, noBlank]

end

/-! ## Programs -/

theorem Chain.before_eq {p q : Pass} {s : TraceStep} {rest : List TraceStep} (chain : Chain p (s :: rest) q) :
    s.before = p := by
  cases chain
  rfl

section

variable {config : Config} {program : Program} {before after : List TraceStep} {s : TraceStep} {q : Pass}
  (chain : Chain (Pass.ready config program) (before ++ s :: after) q) {array index operand : String}
  (isArray : Lexeme.isArrayName array.toList = true) (isIndex : Lexeme.isIndex index.toList = true)
  (isOperand : Lexeme.isOperand operand.toList = true)
  (writes : Stmt.ofLine (elementText array index ++ " = " ++ operand) = .ok s.stmt)

include chain isArray isIndex isOperand writes

/-- A write to an element is remarked on if its value looks like a call, or if its text names an array. -/
theorem Chain.diagnostics_toElement : s.after.diagnostics = s.before.diagnostics ↔
    operand ≠ "call" ∧ ∀ e, s.after.symbols.cell? (elementText array index) = some e → e.isArray = false := by
  obtain ⟨-, ran, -⟩ := chain.around
  obtain ⟨r, own, lowered, same, -⟩ := Lower.run_line_ok ran
  have reading := Stmt.ofLine_toElement isArray isIndex isOperand
  rw [writes] at reading
  have stmt := Except.ok.inj reading
  change s.line.stmt = _ at stmt
  have copied := Stmt.isCopied_of_isOperand isOperand
  rw [same]
  by_cases called : operand = "call"
  · rw [stmt, if_pos called] at lowered
    cases lowered
    simp [called]
  · rw [stmt, if_neg called] at lowered
    have filled : operand ≠ "" := by
      rintro rfl
      exact copied.nonempty rfl
    have remarks := Lower.diagnostics_copy (elementText_ne_empty array index)
      (Text.stripped_of_strip copied.whole) filled lowered
    simpa [called] using remarks

/-- A write to an element assigns its value to the name, and changes nothing in memory outside the cell that this
    name may have. -/
theorem Chain.runs_toElement (distinct : (q.data.directives.filterMap Directive.label).Nodup) {base : Word}
    (aligned : base.toNat % 4 = 0) (c : Core) :
    let t := q.tablesAt s
    let place := q.data.address base
    ∃ d, Core.run place s.nodes c = some d ∧
      (operand ≠ "call" → d.reg (t.register (elementText array index)) = t.value place c operand) ∧
      ∀ x, (∀ e, s.after.symbols.cell? (elementText array index) = some e → e.isArray = false →
        ¬ (x - place (elementText array index)).toNat < e.type.size) → d.memory x = c.memory x := by
  intro t place
  have reading := Stmt.ofLine_toElement isArray isIndex isOperand
  rw [writes] at reading
  have stmt := Except.ok.inj reading
  have copied := Stmt.isCopied_of_isOperand isOperand
  by_cases called : operand = "call"
  · -- A flawed line leaves only a comment.
    rw [if_pos called] at stmt
    have laid := chain.laid s (by simp)
    rw [stmt] at laid
    refine ⟨c, ?_, fun other => absurd called other, fun x _ => rfl⟩
    rw [← Core.run_map_bare, laid]
    rfl
  · rw [if_neg called] at stmt
    obtain ⟨d, ran, value, memory⟩ := chain.runs_copy distinct aligned (Text.stripped_of_strip copied.whole) stmt c
    refine ⟨d, ran, fun _ => value, fun x outside => ?_⟩
    rw [memory]
    exact Tables.assigned_outside _ _ outside

end

/-- A line that assigns to an element, and behind it one that reads the element into a variable of the same type.
    The first one is remarked on only if its value looks like a call or its own text names an array.  Its code runs
    and changes no byte outside the cell that this text may have.  The second line then loads what the element held
    before both of them, if the name of the array is an identifier.  Otherwise it copies the name, which holds the
    value unless it has a cell. -/
theorem lowerProgram_toElement_fromElement {config : Config} {program : Program} {listing : String} {p : Pass}
    {before after : List TraceStep} {write read : TraceStep} {array index operand target : String}
    {symbol e : Symbol} {base : Word} (lowered : lowerProgram config program = (.ok listing, p))
    (here : (traceProgram config program).1 = before ++ write :: read :: after)
    (isArrayName : Lexeme.isArrayName array.toList = true) (isIndex : Lexeme.isIndex index.toList = true)
    (isOperand : Lexeme.isOperand operand.toList = true) (isTarget : Lexeme.isTarget target.toList = true)
    (writes : Stmt.ofLine (elementText array index ++ " = " ++ operand) = .ok write.stmt)
    (reads : Stmt.ofLine (target ++ " = " ++ elementText array index) = .ok read.stmt)
    (declared : write.before.symbols.cell? array = some symbol) (isArray : symbol.isArray = true)
    (declared' : write.before.symbols.cell? target = some e) (isScalar : e.isArray = false)
    (type : e.type = symbol.type) (roles : config.RolesApart) (aligned : base.toNat % 4 = 0)
    (small : p.data.size ≤ 2 ^ 32) (distinct : (p.data.directives.filterMap Directive.label).Nodup) (c : Core) :
    let place := p.data.address base
    let name := elementText array index
    (write.after.diagnostics = write.before.diagnostics ↔
      operand ≠ "call" ∧ ∀ own, write.after.symbols.cell? name = some own → own.isArray = false) ∧
    ∃ d, Core.run place write.nodes c = some d ∧
      (∀ x, (∀ own, write.after.symbols.cell? name = some own → own.isArray = false →
        ¬ (x - place name).toNat < own.type.size) → d.memory x = c.memory x) ∧
      let i := (p.tablesAt read).value place d index
      0 ≤ i.toInt → i.toInt < symbol.length →
      ∃ f, Core.run place read.nodes d = some f ∧
        (Lexeme.isIdentifier array.toList = true → f.memory.read symbol.type.width (place target) =
          c.memory.read symbol.type.width (place array + i * BitVec.ofNat 32 symbol.type.size)) ∧
        (Lexeme.isIdentifier array.toList = false → operand ≠ "call" → write.after.symbols.cell? name = none →
          f.memory.read symbol.type.width (place target) =
            symbol.type.width.narrow ((p.tablesAt write).value place c operand)) := by
  intro place name
  obtain ⟨q, ran, -, rfl⟩ := lowerProgram_iff.mp ⟨listing, lowered⟩
  have chain : Chain (Pass.ready config program) (before ++ write :: read :: after) q :=
    here ▸ (chain_traceFrom ran).1
  have chain' : Chain (Pass.ready config program) ((before ++ [write]) ++ read :: after) q := by simpa using chain
  have meet : read.before = write.after := chain.around.2.2.before_eq
  have cell := chain'.cell?_step (meet ▸ chain.cell?_step declared)
  have cell' := chain'.cell?_step (meet ▸ chain.cell?_step declared')
  have reading := Stmt.ofLine_fromElement isTarget isArrayName isIndex
  rw [reads] at reading
  have stmt := Except.ok.inj reading
  obtain ⟨d, ranWrite, value, outside⟩ :=
    chain.runs_toElement isArrayName isIndex isOperand writes distinct aligned c
  refine ⟨chain.diagnostics_toElement isArrayName isIndex isOperand writes, d, ranWrite, outside, ?_⟩
  intro i lower upper
  by_cases named : Lexeme.isIdentifier array.toList = true
  · rw [if_pos named] at stmt
    obtain ⟨f, ranRead, memory⟩ := chain'.runs_load roles aligned small stmt cell isArray cell' isScalar
      (ofFetched_index_ne_float isIndex) lower upper
    refine ⟨f, ranRead, fun _ => ?_, fun unnamed => by rw [named] at unnamed; cases unnamed⟩
    -- The element is not in the cell of the name that is spelled like it.
    have kept : d.memory.read symbol.type.width (place array + i * BitVec.ofNat 32 symbol.type.size) =
        c.memory.read symbol.type.width (place array + i * BitVec.ofNat 32 symbol.type.size) := by
      apply Memory.read_congr
      intro x inside
      apply outside
      intro own ownCell scalar
      exact chain.outside_element (chain.cell?_step declared) isArray small lower upper
        (elementText_ne_array array index) ownCell scalar inside
    rw [memory, type, Memory.read_write_self]
    exact (Memory.narrow_read _ _ _).trans kept
  · -- Without a cell the name is its register, which nothing has changed between the two lines.
    rw [if_neg named] at stmt
    obtain ⟨f, ranRead, -, memory⟩ := chain'.runs_copy distinct aligned
      (stripped_elementText isArrayName isIndex) stmt d
    refine ⟨f, ranRead, fun wrong => absurd wrong named, fun _ called absent => ?_⟩
    have silent : read.stmt.entry? = none := by rw [stmt]; rfl
    have absent' : read.after.symbols.cell? name = none := by
      rw [chain'.cell?_eq silent, meet, absent]
    have holds : (q.tablesAt read).value place d name = (q.tablesAt write).value place c operand := by
      rw [← value called]
      refine Tables.value_of_register ?_ absent' place d
      rw [Operand.ofFetched, stripped_elementText isArrayName isIndex, ofString_elementText isArrayName isIndex]
    have entry : (q.tablesAt read).symbols.cell? target = some e := cell'
    rw [memory, Tables.assigned, entry]
    simp only [isScalar, Bool.false_eq_true, if_false, type]
    exact Memory.read_write_self.trans (congrArg symbol.type.width.narrow holds)

/-- A program that writes 7 to an element and reads it back. -/
def writesElement : Program :=
  [⟨"declare_arr a[4] int", .declareArray "a" 4 (some "int") false⟩,
    ⟨"declare x:int", .declare "x" (some "int") false⟩,
    ⟨"a[1] = 7", .assign "a[1]" (some "7") none none⟩, ⟨"x = a[1]", .arrayLoad "x" "a" "1"⟩]

/-- A core on which every byte of memory is one. -/
def onesCore : Core :=
  ⟨fun _ => 0, fun _ => 1⟩

theorem writesElement_toElement_fromElement :
    let place := (lowerProgram (.standard false) writesElement).2.data.address 0x10010000
    ∃ write read d f, (traceProgram (.standard false) writesElement).1[2]? = some write ∧
      (traceProgram (.standard false) writesElement).1[3]? = some read ∧
      write.after.diagnostics = write.before.diagnostics ∧
      Core.run place write.nodes onesCore = some d ∧ Core.run place read.nodes d = some f ∧
      f.memory.read .word (place "x") = onesCore.memory.read .word (place "a" + 1 * 4) := by
  intro place
  let steps := (traceProgram (.standard false) writesElement).1
  let p := (lowerProgram (.standard false) writesElement).2
  let array : Symbol := ⟨"a", .array, .int, 4, true⟩
  have runs : (lowerProgram (.standard false) writesElement).1.isOk = true ∧ p.data.size ≤ 2 ^ 32 ∧
      (p.data.directives.filterMap Directive.label).Nodup ∧ (Config.standard false).RolesApart := by
    decide +kernel
  have first : steps[2]?.map (fun s => (s.stmt, s.before.symbols.cell? "a", s.before.symbols.cell? "x",
      s.after.symbols.cell? "a[1]")) =
      some (.assign "a[1]" (some "7") none none, some array, some (intSymbol "x"), none) := by
    decide +kernel
  have second : steps[3]?.map TraceStep.stmt = some (.arrayLoad "x" "a" "1") := by decide +kernel
  obtain ⟨succeeds, small, distinct, roles⟩ := runs
  obtain ⟨write, found, first⟩ := Option.map_eq_some_iff.mp first
  simp only [Prod.mk.injEq] at first
  obtain ⟨copies, declared, declared', absent⟩ := first
  obtain ⟨read, found', loads⟩ := Option.map_eq_some_iff.mp second
  obtain ⟨listing, lowered⟩ := exists_of_isOk succeeds
  have here : steps = steps.take 2 ++ write :: read :: steps.drop 4 := by
    obtain ⟨bound, same⟩ := List.getElem?_eq_some_iff.mp found'
    rw [← same, ← List.drop_eq_getElem_cons bound]
    exact eq_take_append_cons_drop found
  have writes : Stmt.ofLine (elementText "a" "1" ++ " = " ++ "7") = .ok write.stmt := by
    rw [copies]
    decide +kernel
  have reads : Stmt.ofLine ("x" ++ " = " ++ elementText "a" "1") = .ok read.stmt := by
    rw [loads]
    decide +kernel
  obtain ⟨remarks, d, ranWrite, -, ranRead⟩ := lowerProgram_toElement_fromElement lowered here (by decide +kernel)
    (by decide +kernel) (by decide +kernel) (by decide +kernel) writes reads declared rfl declared' rfl rfl roles
    (show (0x10010000 : Word).toNat % 4 = 0 by decide) small distinct onesCore
  have index : (p.tablesAt read).value place d "1" = 1 := by
    rw [Tables.value, Pass.stripped_one, Pass.ofString_one, Tables.valueAs]
    decide
  obtain ⟨f, ranRead, value, -⟩ := ranRead (by rw [index]; decide) (by rw [index]; decide)
  have unremarked := remarks.mpr ⟨by decide, fun own cell => by cases absent.symm.trans cell⟩
  have read := value (by decide +kernel)
  rw [index] at read
  exact ⟨write, _, d, f, found, found', unremarked, ranWrite, ranRead, read⟩

/-- Reading the lines of this program and running its code leaves in the variable what the element held at first, and
    not the number that was written, and no diagnostic says so. -/
theorem writesElement_reads :
    Program.ofLines ["declare_arr a[4] int", "declare x:int", "a[1] = 7", "x = a[1]"] = .ok writesElement ∧
    let result := lowerProgram (.standard false) writesElement
    let place := result.2.data.address 0x10010000
    result.1.isOk = true ∧ result.2.diagnostics = [] ∧
    (Core.run place ((traceProgram (.standard false) writesElement).1.flatMap TraceStep.nodes) onesCore).map
      (fun d => d.memory.read .word (place "x")) = some 0x01010101 := by
  decide +kernel

end MipsLowering
