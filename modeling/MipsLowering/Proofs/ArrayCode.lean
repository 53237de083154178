import MipsLowering.Proofs.ByteMachine
import MipsLowering.Proofs.StatementCode

/-! # Array code on the machine

What the code of an array access does to the bytes of memory.  The address of an element is the address
of the array plus the index times the size of an element, a store writes at that address, and a load
brings what is there to the cell of its target.

Code of this kind uses three registers besides those of names: one for the address, one for the index and
one for the size and for literals.  It is enough that they are different (`Config.RolesApart`), since neither of
them is the register of a name; `Tables.Standard` says that they are the usual ones.  Names may share registers,
since every value is used before the next one is fetched. -/

namespace MipsLowering

-- The class of an operand is only used through the theorems about it.
seal Operand.ofString

theorem RegisterFile.literalRegister_of_named (f : RegisterFile) {r : Register} (named : r ≠ "") :
    f.literalRegister (some r) = r := by
  simp [literalRegister, named]

theorem usual_ne_zeroRegister :
    "$v1" ≠ zeroRegister ∧ "$a3" ≠ zeroRegister ∧ "$a2" ≠ zeroRegister := by
  decide

namespace Config

/-- The registers for addresses, indices and literals are different ones, and each of them can hold a value. -/
def RolesApart (config : Config) : Prop :=
  [config.addressRegister, config.indexRegister, config.scratch0, zeroRegister, ""].Nodup

instance (config : Config) : Decidable config.RolesApart :=
  inferInstanceAs (Decidable (List.Nodup _))

theorem isSpecial_roles (config : Config) :
    config.isSpecial config.addressRegister = true ∧ config.isSpecial config.scratch0 = true := by
  simp [Settings.isSpecial, config.addressRegister_mem, config.scratch0_mem]

end Config

/-- Tables with the usual registers for literals and addresses. -/
structure Tables.Standard (t : Tables) : Prop where
  draws : t.registers.DrawsOn t.config
  literals : t.registers.scratch = defaultScratch
  scratch : t.config.scratch = defaultScratch
  address : t.config.address = defaultAddress

namespace Tables

variable {t : Tables} {place : String → Word}

namespace Standard

variable (standard : t.Standard)

include standard

theorem scratch0 : t.config.scratch0 = "$v1" := by
  rw [Config.scratch0, standard.scratch]
  rfl

theorem addressRegister : t.config.addressRegister = "$a3" := by
  rw [Config.addressRegister, standard.address]
  rfl

theorem indexRegister : t.config.indexRegister = "$a2" := by
  rw [Config.indexRegister, standard.address]
  rfl

theorem scratch1 : t.config.scratch1 = "$a1" := by
  rw [Config.scratch1, standard.scratch]
  rfl

theorem rolesApart : t.config.RolesApart := by
  rw [Config.RolesApart, standard.addressRegister, standard.indexRegister, standard.scratch0]
  decide

/-- The register of a name is none of those that code uses for itself. -/
theorem register_ne (name : String) {r : Register} (usual : r ∈ defaultScratch ++ defaultAddress) :
    t.register name ≠ r := by
  have special : t.config.isSpecial r = true := by
    rw [← standard.scratch, ← standard.address, List.mem_append] at usual
    simp only [Settings.isSpecial, Bool.or_eq_true, List.contains_iff_mem]
    exact .inl usual
  have named : r ≠ "" := by
    rintro rfl
    exact absurd usual (by decide)
  exact Tables.register_ne standard.draws special named name

omit standard in
/-- An operand is fetched into the register that is offered for it or into the register of a name. -/
theorem fetch_fst (operand : String) {r : Register} (named : r ≠ "") :
    (t.fetch operand (some r)).1 = r ∨
      ∃ name ∈ Stmt.namesIn operand, (t.fetch operand (some r)).1 = t.register name := by
  unfold fetch Stmt.namesIn
  rw [t.registers.literalRegister_of_named named]
  cases Operand.ofString (Text.stripped operand) with
  | name name => exact .inr ⟨name, List.mem_singleton_self name, rfl⟩
  | immediate | float | text => exact .inl rfl

theorem fetch_fst_ne (operand : String) {r other : Register} (named : r ≠ "")
    (used : other ∈ defaultScratch ++ defaultAddress) (differs : other ≠ r) :
    (t.fetch operand (some r)).1 ≠ other := by
  rcases fetch_fst operand named with offered | ⟨name, -, bound⟩
  · rw [offered]
    exact differs.symm
  · rw [bound]
    exact standard.register_ne name used

end Standard

/-! ## Values -/

/-- The value of an operand depends on memory and on the registers of names. -/
theorem value_congr {c d : Core} (memory : d.memory = c.memory)
    (registers : ∀ name, d.reg (t.register name) = c.reg (t.register name)) (operand : String) :
    t.value place d operand = t.value place c operand := by
  unfold value valueAs
  rw [memory]
  simp only [registers]

/-- An operand that is no name or has a cell. -/
def Stored (t : Tables) (operand : String) : Prop :=
  ∀ name, Operand.ofString (Text.stripped operand) = .name name → (t.symbols.cell? name).isSome = true

theorem Stored.value_congr {operand : String} (stored : t.Stored operand) {c d : Core}
    (memory : d.memory = c.memory) : t.value place d operand = t.value place c operand := by
  unfold value
  cases sort : Operand.ofString (Text.stripped operand) with
  | immediate | text => rfl
  | float written => simp only [valueAs, memory]
  | name name =>
    obtain ⟨s, cell⟩ := Option.isSome_iff_exists.mp (stored name sort)
    simp only [valueAs, cell, memory]

/-! ## Elements -/

theorem integer?_elementSize (symbols : SymbolTable) (array : String) :
    Text.integer? (toString (symbols.elementSize array)).toList =
      some (symbols.elementSize array : Int) := by
  have size : symbols.elementSize array = 1 ∨ symbols.elementSize array = 4 := by
    unfold SymbolTable.elementSize
    cases symbols.lookup? array with
    | none => exact .inr rfl
    | some s => cases type : s.type <;> simp [Symbol.elementSize, type, ValueType.size, ValueType.width, Width.bytes]
  rcases size with one | four
  · rw [one]
    decide
  · rw [four]
    decide

/-- The address of an element is computed in the address register. -/
theorem runs_elementCode (draws : t.registers.DrawsOn t.config) (apart : t.config.RolesApart)
    {array index : String} (admits : t.Admits place index) (c : Core) :
    ∃ d, Core.run place ((t.elementCode array index).map Op.node) c = some d ∧ d.memory = c.memory ∧
      d.reg t.config.addressRegister =
        place array + t.value place c index * BitVec.ofNat 32 (t.symbols.elementSize array) := by
  simp only [Config.RolesApart, List.nodup_cons, List.mem_cons, List.not_mem_nil, or_false, not_or] at apart
  obtain ⟨⟨addressIndex, addressLiteral, address, addressNamed⟩, ⟨indexLiteral, counter, counterNamed⟩,
    ⟨literal, literalNamed⟩, -⟩ := apart
  obtain ⟨specialAddress, specialLiteral⟩ := t.config.isSpecial_roles
  let holder := (t.fetch index (some t.config.indexRegister)).1
  have holds : holder = t.config.indexRegister ∨ ∃ name ∈ Stmt.namesIn index, holder = t.register name :=
    Standard.fetch_fst index counterNamed
  have notLiteral : holder ≠ t.config.scratch0 := by
    rcases holds with offered | ⟨name, -, bound⟩
    · exact offered ▸ indexLiteral
    · exact bound ▸ register_ne draws specialLiteral literalNamed name
  have notAddress : holder ≠ t.config.addressRegister := by
    rcases holds with offered | ⟨name, -, bound⟩
    · exact offered ▸ Ne.symm addressIndex
    · exact bound ▸ register_ne draws specialAddress addressNamed name
  have notZero : t.registers.literalRegister (some t.config.indexRegister) ≠ zeroRegister := by
    rw [t.registers.literalRegister_of_named counterNamed]
    exact counter
  -- The address of the array survives the fetch of the index, and the index that of the size.
  let based := c.setReg t.config.addressRegister (place array)
  obtain ⟨fetched, ran, gets⟩ := runs_fetch draws notZero admits based
  have value : t.value place based index = t.value place c index :=
    value_congr (c := c) (d := based) rfl
      (fun name => c.reg_setReg_of_ne _ (register_ne draws specialAddress addressNamed name)) index
  rw [value] at gets
  let size := BitVec.ofNat 32 (t.symbols.elementSize array)
  let sized := fetched.setReg t.config.scratch0 size
  let scaled := sized.setReg t.config.indexRegister (sized.reg holder * sized.reg t.config.scratch0)
  let added := scaled.setReg t.config.addressRegister
    (scaled.reg t.config.addressRegister + scaled.reg t.config.indexRegister)
  have sizes : fetched.exec place (.li t.config.scratch0 (toString (t.symbols.elementSize array))) =
      some sized := by
    rw [Core.exec, integer?_elementSize, Option.map_some, BitVec.ofInt_natCast]
  refine ⟨added, ?_, gets.memory, ?_⟩
  · unfold elementCode
    rw [List.append_assoc, List.map_append, List.map_append]
    apply Core.run_append_some (Core.run_op_cons rfl)
    apply Core.run_append_some ran
    rw [Core.run_op_cons sizes, Core.run_op_cons rfl, Core.run_op_cons rfl]
    rfl
  · have holding : fetched.reg holder = t.value place c index := gets.value
    have offset : scaled.reg t.config.indexRegister = t.value place c index * size := by
      simp [scaled, sized, notLiteral, holding, literal, counter]
    have base : scaled.reg t.config.addressRegister = place array := by
      simp [scaled, sized, based, gets.others _ notAddress.symm, addressIndex, addressLiteral, address]
    simp [added, offset, base, address, size]

/-- A store writes the value at the address of the element. -/
theorem runs_arrayStore (draws : t.registers.DrawsOn t.config) (apart : t.config.RolesApart)
    {array index value : String} (admits : t.Admits place index) (admits' : t.Admits place value)
    (stored : t.Stored value) {c : Core} {a : Word}
    (address : place array + t.value place c index * BitVec.ofNat 32 (t.symbols.elementSize array) = a)
    (aligned : (t.symbols.elementType array).width.Admits a) :
    ∃ d, Core.run place ((t.arrayStoreCode array index value).map Op.node) c = some d ∧
      d.memory =
        c.memory.write (t.symbols.elementType array).width a (t.value place c value) := by
  obtain ⟨located, ran, memory, atElement⟩ := runs_elementCode draws apart admits c
  simp only [Config.RolesApart, List.nodup_cons, List.mem_cons, List.not_mem_nil, or_false, not_or] at apart
  obtain ⟨⟨-, addressLiteral, -, addressNamed⟩, -, ⟨literal, literalNamed⟩, -⟩ := apart
  have notZero : t.registers.literalRegister (some t.config.scratch0) ≠ zeroRegister := by
    rw [t.registers.literalRegister_of_named literalNamed]
    exact literal
  obtain ⟨fetched, ran', gets⟩ := runs_fetch draws notZero admits' located
  rw [stored.value_congr memory] at gets
  -- The value is fetched when the address is in place, so it must not go to the same register.
  have notAddress : (t.fetch value (some t.config.scratch0)).1 ≠ t.config.addressRegister := by
    rcases Standard.fetch_fst value literalNamed with offered | ⟨name, -, bound⟩
    · rw [offered]
      exact Ne.symm addressLiteral
    · rw [bound]
      exact register_ne draws t.config.isSpecial_roles.1 addressNamed name
  have base : fetched.reg t.config.addressRegister = a := by
    rw [gets.others _ notAddress.symm, atElement, address]
  let written := c.memory.write (t.symbols.elementType array).width a (t.value place c value)
  have stores : fetched.exec place (.store (t.symbols.elementType array).width
      (t.fetch value (some t.config.scratch0)).1 (.base t.config.addressRegister)) =
        some { fetched with memory := written } := by
    rw [Core.exec, Core.locate, base, if_pos aligned, gets.memory, memory, gets.value]
  refine ⟨{ fetched with memory := written }, ?_, rfl⟩
  simp only [arrayStoreCode, List.map_append]
  exact Core.run_append_some (Core.run_append_some ran ran') (Core.run_op_cons stores)

/-! ## Targets -/

/-- Memory when a value has been assigned to a name. -/
def assigned (t : Tables) (place : String → Word) (name : String) (v : Word) (m : Memory) : Memory :=
  match t.symbols.cell? name with
  | none => m
  | some s => if s.isArray then m else m.write s.type.width (place name) v

theorem assigned_of_cell {name : String} {s : Symbol} (cell : t.symbols.cell? name = some s)
    (scalar : s.isArray = false) (v : Word) (m : Memory) :
    t.assigned place name v m = m.write s.type.width (place name) v := by
  simp [assigned, cell, scalar]

/-- Only the cell of the name changes. -/
theorem assigned_outside {name : String} {x : Word} (v : Word) (m : Memory)
    (outside : ∀ s, t.symbols.cell? name = some s → s.isArray = false → ¬ (x - place name).toNat < s.type.size) :
    t.assigned place name v m x = m x := by
  unfold assigned
  cases cell : t.symbols.cell? name with
  | none => rfl
  | some s =>
    cases scalar : s.isArray with
    | true => simp [scalar]
    | false =>
      simp only [scalar, Bool.false_eq_true, if_false]
      exact Memory.write_outside (outside s cell scalar)

theorem admitsAs_of_cell {name : String} {s : Symbol} (cell : t.symbols.cell? name = some s)
    (aligned : s.type.width.Admits (place name)) : t.AdmitsAs place (.name name) := by
  intro s' cell' _
  obtain rfl := Option.some.inj (cell.symm.trans cell')
  exact aligned

/-- What is in a register is written to the cell of a name, if it has one. -/
theorem run_store {name : String} (aligned : t.AdmitsAs place (.name name)) (r : Register) (c : Core) :
    Core.run place (t.store name r) c = some { c with memory := t.assigned place name (c.reg r) c.memory } := by
  unfold store assigned
  cases cell : t.symbols.cell? name with
  | none => rfl
  | some s =>
    cases scalar : s.isArray with
    | true =>
      simp only [scalar, if_true]
      rfl
    | false =>
      simp only [scalar, Bool.false_eq_true, if_false]
      exact Core.run_op (if_pos (aligned s cell scalar))

/-- A load brings what is at the address of the element to the register of its target, and to its cell. -/
theorem runs_arrayLoad (draws : t.registers.DrawsOn t.config) (apart : t.config.RolesApart)
    {target array index : String} (aligned : t.AdmitsAs place (.name target)) (admits : t.Admits place index)
    {c : Core} {a : Word}
    (address : place array + t.value place c index * BitVec.ofNat 32 (t.symbols.elementSize array) = a)
    (aligned' : (t.symbols.elementType array).width.Admits a) :
    let v := c.memory.read (t.symbols.elementType array).width a
    ∃ d, Core.run place (t.arrayLoadCode target array index) c = some d ∧ d.reg (t.register target) = v ∧
      d.memory = t.assigned place target v c.memory := by
  intro v
  obtain ⟨located, ran, memory, atElement⟩ := runs_elementCode draws apart admits c
  have loads : located.exec place (.load (t.symbols.elementType array).width (t.register target)
      (.base t.config.addressRegister)) = some (located.setReg (t.register target) v) := by
    rw [Core.exec, Core.locate, atElement, address, if_pos aligned', memory]
  have value : (located.setReg (t.register target) v).reg (t.register target) = v :=
    located.reg_setReg_self v (register_ne_zeroRegister draws target)
  refine ⟨{ located.setReg (t.register target) v with memory := t.assigned place target v c.memory }, ?_, value, rfl⟩
  simp only [arrayLoadCode, List.map_append]
  apply Core.run_append_some (Core.run_append_some ran (Core.run_op_cons loads))
  rw [run_store aligned, value]
  simp [memory]

theorem runs_copyInto (draws : t.registers.DrawsOn t.config) {dest : Register} (notZero : dest ≠ zeroRegister)
    {source : String} (stripped : Text.stripped source = source) (admits : t.Admits place source)
    (c : Core) :
    ∃ d, Core.run place ((t.copyInto dest (Operand.ofString source)).map Op.node) c = some d ∧
      d.memory = c.memory ∧ d.reg dest = t.value place c source := by
  unfold Admits at admits
  unfold value
  rw [stripped] at admits ⊢
  cases sort : Operand.ofString source with
  | immediate constant =>
    obtain ⟨n, number⟩ := Text.integer?_of_immediate sort
    refine ⟨c.setReg dest (BitVec.ofInt 32 n), ?_, rfl, ?_⟩
    · exact Core.run_op_cons (by rw [Core.exec, number, Option.map_some])
    · simp [valueAs, number, notZero]
  | float written =>
    rw [sort] at admits
    exact ⟨_, Core.run_op_cons (if_pos admits), rfl, c.reg_setReg_self _ notZero⟩
  | text written => exact ⟨_, Core.run_op_cons rfl, rfl, c.reg_setReg_self _ notZero⟩
  | name name =>
    rw [sort] at admits
    obtain rfl := Operand.eq_of_ofString_name sort
    have named : t.fetch name none = (t.register name, t.load name (t.register name)) := by
      rw [fetch, stripped, sort, fetchAs]
    obtain ⟨fetched, ran, gets⟩ := runs_load draws admits c
    simp only [copyInto, List.map_append, moveCode, named]
    -- A name that has this register is in place as soon as it is loaded.
    by_cases same : t.register name = dest
    · rw [same] at gets ran ⊢
      exact ⟨fetched, by simpa using ran, gets.memory, gets.value⟩
    · refine ⟨fetched.setReg dest (fetched.reg (t.register name)), ?_, gets.memory, ?_⟩
      · rw [if_pos (bne_iff_ne.mpr same)]
        exact Core.run_append_some ran (Core.run_op_cons rfl)
      · rw [Core.reg_setReg_self _ _ notZero, gets.value]

/-- A copy leaves the value of its operand in the register of its target, and in its cell. -/
theorem runs_copyCode (draws : t.registers.DrawsOn t.config) {target source : String}
    (aligned : t.AdmitsAs place (.name target)) (stripped : Text.stripped source = source)
    (admits : t.Admits place source) (c : Core) :
    ∃ d, Core.run place (t.copyCode target source) c = some d ∧
      d.reg (t.register target) = t.value place c source ∧
      d.memory = t.assigned place target (t.value place c source) c.memory := by
  have notZero := register_ne_zeroRegister draws target
  obtain ⟨copied, ran, memory, value⟩ := runs_copyInto draws notZero stripped admits c
  refine ⟨_, Core.run_append_some ran (run_store aligned _ copied), value, ?_⟩
  rw [memory, value]

end Tables

end MipsLowering
