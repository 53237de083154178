import MipsLowering.Proofs.Allocation
import MipsLowering.Proofs.RegisterWrites
import MipsLowering.Proofs.Stack

/-! # Ways to fetch an operand

Operands are brought into registers in several places: a copy brings its source into the register of the
target, a return into the result register, the printing of a value into the argument register, and a call onto
the stack.  Some of these load a value where it is needed, and others fetch it first and then move it.

Whatever the state, the tables behind all of them are the same (`Pass.fetched`), and so is what they bring
(`Tables.Conveys`): the value of the operand, or nothing if it cannot be loaded.  There are two exceptions,
which have to do with the register for literals (`paths_agree_iff`). -/

namespace MipsLowering

-- The class of an operand is only used through the theorems about it.
seal Operand.ofString

/-! ## Values -/

theorem Core.run_load_eq_none {place : String → Word} {width : Width} {label : String}
    (refused : ¬ width.Admits (place label)) (dest : Register) (c : Core) :
    run place [(Op.load width dest (.label label)).node] c = none := by
  show (c.exec place (.load width dest (.label label))).bind _ = none
  rw [exec, locate, if_neg refused]
  rfl

namespace Tables

/-- Operations bring the value of an operand into a register, and get stuck if it cannot be loaded. -/
structure Conveys (t : Tables) (operand : String) (ops : List Op) (dest : Register) : Prop where
  loads : ∀ place c, t.Admits place operand →
    ∃ d, Core.run place (ops.map Op.node) c = some d ∧ d.reg dest = t.value place c operand
  stuck : ∀ place c, ¬ t.Admits place operand → Core.run place (ops.map Op.node) c = none

/-- Where operations bring the same value to does not matter. -/
theorem Conveys.same {t : Tables} {operand : String} {ops ops' : List Op} {dest dest' : Register}
    (conveys : t.Conveys operand ops dest) (conveys' : t.Conveys operand ops' dest') (place : String → Word)
    (c : Core) :
    (Core.run place (ops.map Op.node) c).map (·.reg dest) =
      (Core.run place (ops'.map Op.node) c).map (·.reg dest') := by
  by_cases admits : t.Admits place operand
  · obtain ⟨d, ran, value⟩ := conveys.loads place c admits
    obtain ⟨d', ran', value'⟩ := conveys'.loads place c admits
    rw [ran, ran', Option.map_some, Option.map_some, value, value']
  · rw [conveys.stuck place c admits, conveys'.stuck place c admits]
    rfl

variable {t : Tables} {place : String → Word} {operand : String}

theorem exists_of_not_admits {name : String} (refused : ¬ t.AdmitsAs place (.name name)) :
    ∃ s, t.symbols.cell? name = some s ∧ s.isArray = false ∧ ¬ s.type.width.Admits (place name) := by
  simpa [AdmitsAs] using refused

theorem run_fetchAs_eq_none {sort : Operand} (refused : ¬ t.AdmitsAs place sort) (scratch : Register) (c : Core) :
    Core.run place ((t.fetchAs scratch sort).2.map Op.node) c = none := by
  cases sort with
  | immediate | text => exact absurd trivial refused
  | float value => exact Core.run_load_eq_none refused scratch c
  | name name =>
    obtain ⟨s, cell, scalar, refused⟩ := exists_of_not_admits refused
    simp only [fetchAs, load, cell, scalar, Bool.false_eq_true, if_false]
    exact Core.run_load_eq_none refused _ c

theorem conveys_fetch (draws : t.registers.DrawsOn t.config) {wanted : Option Register}
    (notZero : t.registers.literalRegister wanted ≠ zeroRegister) :
    t.Conveys operand (t.fetch operand wanted).2 (t.fetch operand wanted).1 where
  loads place c admits := by
    obtain ⟨d, ran, gets⟩ := runs_fetch draws notZero admits c
    exact ⟨d, ran, gets.value⟩
  stuck place c refused := run_fetchAs_eq_none refused _ c

theorem conveys_copyInto (draws : t.registers.DrawsOn t.config) (stripped : Text.stripped operand = operand)
    {dest : Register} (notZero : dest ≠ zeroRegister) :
    t.Conveys operand (t.copyInto dest (Operand.ofString operand)) dest where
  loads place c admits := by
    obtain ⟨d, ran, -, value⟩ := runs_copyInto draws notZero stripped admits c
    exact ⟨d, ran, value⟩
  stuck place c refused := by
    rw [Admits, stripped] at refused
    cases sort : Operand.ofString operand with
    | immediate | text =>
      rw [sort] at refused
      exact absurd trivial refused
    | float value =>
      rw [sort] at refused
      exact run_fetchAs_eq_none refused dest c
    | name name =>
      obtain rfl := Operand.eq_of_ofString_name sort
      have none : Core.run place ((t.fetch name none).2.map Op.node) c = none := by
        rw [← stripped] at refused
        exact run_fetchAs_eq_none refused _ c
      rw [copyInto, List.map_append, Core.run_append, none]
      rfl

/-- A scalar in memory is brought straight to where it is needed. -/
theorem conveys_load {s : Symbol} (sort : Operand.ofString (Text.stripped operand) = .name operand)
    (cell : t.symbols.cell? operand = some s) (scalar : s.isArray = false) {dest : Register}
    (notZero : dest ≠ zeroRegister) : t.Conveys operand [.load s.type.width dest (.label operand)] dest where
  loads place c admits := by
    rw [Admits, sort] at admits
    refine ⟨_, Core.run_op_cons (if_pos (admits s cell scalar)), ?_⟩
    simp [value, sort, valueAs, cell, scalar, notZero, Core.locate]
  stuck place c refused := by
    rw [Admits, sort] at refused
    obtain ⟨s', cell', -, refused⟩ := exists_of_not_admits refused
    obtain rfl : s = s' := Option.some.inj (cell.symm.trans cell')
    exact Core.run_load_eq_none refused dest c

end Tables

/-! ## Code -/

/-- The state in which an operand has been fetched: a literal of the pool is in the pool, and a name is bound. -/
def Pass.fetched (p : Pass) (operand : String) : Pass :=
  match Operand.ofString operand with
  | .immediate _ => p
  | .float value => { p with data := (p.data.intern .float value).2 }
  | .text value => { p with data := (p.data.intern .string value).2 }
  | .name name => if (p.registers.lookup? name).isSome then p else p.binding name

@[simp] theorem Pass.text_fetched (p : Pass) (operand : String) : (p.fetched operand).text = p.text := by
  unfold fetched
  split
  · rfl
  · rfl
  · rfl
  · split <;> rfl

theorem Pass.tables_fetched_queue (p : Pass) (operand : String) (params : List String) :
    ({ p with params := params }.fetched operand).tables = (p.fetched operand).tables := by
  unfold fetched
  split
  · rfl
  · rfl
  · rfl
  · dsimp only
    split <;> rfl

/-- From `p` on an action succeeds with `a`.  It lays out `code`, comments behind instructions aside, and the rest
    of the state is that of `q`. -/
def Pass.Emits {α : Type} (p : Pass) (x : Emit α) (a : α) (code : List Node) (q : Pass) : Prop :=
  ∃ nodes, x.run p = .ok a { q with text := p.text ++ nodes } ∧ nodes.map Node.bare = code

/-- What an action returns and what it lays out, comments behind instructions aside. -/
def Emit.emitted {α : Type} (x : Emit α) (p : Pass) : Option (α × List Node) :=
  match x.run p with
  | .ok a q => some (a, (q.text.drop p.text.length).map Node.bare)
  | .error _ _ => none

theorem Pass.Emits.emitted {α : Type} {p q : Pass} {x : Emit α} {a : α} {code : List Node}
    (emits : p.Emits x a code q) : x.emitted p = some (a, code) := by
  obtain ⟨nodes, ran, rfl⟩ := emits
  simp [Emit.emitted, ran]

theorem Pass.Emits.bind {α β : Type} {p q : Pass} {x : Emit α} {a : α} {code : List Node}
    (emits : p.Emits x a code q) {f : α → Emit β} {b : β} {more : α → List Node}
    (next : ∀ a (r : Pass), (f a).run r = .ok b { r with text := r.text ++ more a }) :
    p.Emits (x >>= f) b (code ++ (more a).map Node.bare) q := by
  obtain ⟨nodes, ran, rfl⟩ := emits
  refine ⟨nodes ++ more a, ?_, List.map_append⟩
  rw [Emit.run_bind, ran]
  simp only [next, List.append_assoc]

namespace Lower

open Emit

theorem run_move (dest source : Register) (r : Pass) :
    (if source != dest then op (.move dest source) else pure () : Emit Unit).run r =
      .ok () { r with text := r.text ++ (Tables.moveCode dest source).map Op.node } := by
  unfold Tables.moveCode
  cases source != dest with
  | true => rfl
  | false =>
    show EStateM.Result.ok () r = _
    simp

theorem map_bare_node (ops : List Op) : (ops.map Op.node).map Node.bare = ops.map Op.node := by
  rw [List.map_map]
  rfl

/-- A fetch into a register and a move of what is elsewhere come to the same as a copy into the register. -/
theorem fetch_append_moveCode {operand : String} (stripped : Text.stripped operand = operand) (t : Tables)
    {dest : Register} (named : dest ≠ "") :
    (t.fetch operand (some dest)).2 ++ Tables.moveCode dest (t.fetch operand (some dest)).1 =
      t.copyInto dest (Operand.ofString operand) := by
  rw [Tables.fetch, stripped, t.registers.literalRegister_of_named named]
  cases sort : Operand.ofString operand with
  | immediate | float | text => simp [Tables.fetchAs, Tables.moveCode, Tables.copyInto]
  | name name =>
    obtain rfl := Operand.eq_of_ofString_name sort
    rw [Tables.copyInto, Tables.fetch, stripped, sort]
    rfl

/-- Everything but words that name nothing and floats is printed from the argument register. -/
theorem emits_print {operand : String} {p : Pass}
    (known : (isVariableName operand && !p.symbols.contains operand) = false)
    (type : p.symbols.operandType operand ≠ .float) {code : List Node} {q : Pass}
    (loads : p.Emits (loadArgument operand) () code q) :
    p.Emits (print operand) ()
      (code ++ [(Tables.serviceCode (.forType (p.symbols.operandType operand))).node, Op.syscall.node]) q := by
  have prepares : p.Emits (prepare operand) (.forType (p.symbols.operandType operand)) code q := by
    have prepare_eq : (prepare operand).run p = (do
        loadArgument operand
        return .forType (p.symbols.operandType operand) : Emit Service).run p := by
      simp only [prepare, run_bind, run_get, known, Bool.false_eq_true, if_false]
    obtain ⟨nodes, ran, bare⟩ := loads
    refine ⟨nodes, ?_, bare⟩
    rw [prepare_eq, run_bind, ran]
    rfl
  have next : ∀ (service : Service) (r : Pass), (do
        selectService service
        opNote .syscall ("print " ++ operand) : Emit Unit).run r =
      .ok () { r with
        text := r.text ++ [(Tables.serviceCode service).node, .instr ⟨.syscall, some ("print " ++ operand)⟩] } := by
    intro service r
    show EStateM.Result.ok () { r with text := r.text ++ _ ++ _ } = _
    rw [List.append_assoc]
    rfl
  exact prepares.bind next

/-- Gives the target of a copy its entry and its register. -/
def bindTarget (target operand : String) : Emit Register := do
  note target ((← get).symbols.operandType operand)
  registerFor target

theorem exists_bindTarget (p : Pass) (operand : String) {target : String} (named : target ≠ "") :
    ∃ dest q, (bindTarget target operand).run p = .ok dest q ∧ q.text = p.text ∧ q.diagnostics = p.diagnostics ∧
      q.config = p.config ∧ p.registers.Extends q.registers ∧ q.registers.lookup? target = some dest := by
  let noted : Pass := { p with symbols := p.symbols.note target (p.symbols.operandType operand) }
  obtain ⟨dest, q, ran, diagnostics⟩ : ∃ dest q, (registerFor target).run noted = .ok dest q ∧
      q.diagnostics = p.diagnostics := by
    obtain ⟨known, new⟩ := run_registerFor named noted
    cases bound : noted.registers.lookup? target with
    | some r => exact ⟨_, _, known r bound, rfl⟩
    | none => exact ⟨_, _, new bound, rfl⟩
  obtain ⟨lays, bound⟩ := lays_registerFor ran
  exact ⟨dest, q, ran, lays.text.trans (List.append_nil _), diagnostics, lays.config, lays.registers, bound⟩

theorem exists_storeBack (p : Pass) (name : String) (register : Register) :
    ∃ q, (storeBack name register).run p = .ok () q := by
  simp only [storeBack, run_bind, run_get]
  split
  · exact ⟨_, rfl⟩
  · split
    · exact ⟨_, rfl⟩
    · split <;> exact ⟨_, rfl⟩

end Lower

section

variable {operand : String} (stripped : Text.stripped operand = operand) (filled : operand ≠ "") (p : Pass)

include stripped filled

namespace Emit

theorem exists_run_fetch (wanted : Option Register) :
    ∃ fetched, (fetch operand wanted).run p = .ok fetched (p.fetched operand) := by
  simp only [fetch, run_bind, run_get, stripped, Pass.fetched]
  cases sort : Operand.ofString operand with
  | immediate value => exact ⟨_, rfl⟩
  | float value | text value => exact ⟨_, rfl⟩
  | name name =>
    obtain rfl := Operand.eq_of_ofString_name sort
    obtain ⟨known, new⟩ := run_registerFor filled p
    cases bound : p.registers.lookup? name with
    | some r =>
      simp only [run_bind, run_get, known r bound, bound]
      exact ⟨_, rfl⟩
    | none =>
      simp only [run_bind, run_get, new bound, bound]
      exact ⟨_, rfl⟩

theorem lays_fetched : Lays p (p.fetched operand) [] (Stmt.namesIn operand) := by
  obtain ⟨⟨r, is⟩, ran⟩ := exists_run_fetch stripped filled p none
  exact (lays_fetch ran).1

theorem drawsOn_fetched (draws : p.registers.DrawsOn p.config) :
    (p.fetched operand).tables.registers.DrawsOn (p.fetched operand).tables.config := by
  have lays := lays_fetched stripped filled p
  show (p.fetched operand).registers.DrawsOn (p.fetched operand).config
  rw [lays.config]
  exact lays.registers.drawsOn draws

theorem emits_materialize (wanted : Option Register) :
    p.Emits (materialize operand wanted) ((p.fetched operand).tables.fetch operand wanted).1
      (((p.fetched operand).tables.fetch operand wanted).2.map Op.node) (p.fetched operand) := by
  obtain ⟨⟨r, is⟩, ran⟩ := exists_run_fetch stripped filled p wanted
  rw [(lays_fetch ran).2 _ (Pass.fits_tables _)]
  refine ⟨is.map Node.instr, ?_, by simp [Function.comp_def]⟩
  simp only [materialize, run_bind, ran]
  rw [← p.text_fetched operand]
  rfl

end Emit

namespace Lower

open Emit

theorem emits_loadInto (dest : Register) :
    p.Emits (loadInto dest operand) ()
      (((p.fetched operand).tables.copyInto dest (Operand.ofString operand)).map Op.node) (p.fetched operand) := by
  have found := p.data.literalLabel?_intern
  have fetches := (emits_materialize stripped filled p none).bind (run_move dest)
  unfold loadInto
  cases sort : Operand.ofString operand with
  | immediate value =>
    rw [Pass.fetched, sort]
    exact ⟨[(Op.li dest value).node], rfl, rfl⟩
  | float value =>
    rw [Pass.fetched, sort]
    refine ⟨[.instr ⟨.load .word dest (.label (p.data.intern .float value).1), some ("float " ++ value)⟩], rfl, ?_⟩
    simp [Tables.copyInto, Tables.literal, Pass.tables, found]
  | text value =>
    rw [Pass.fetched, sort]
    refine ⟨[(Op.la dest (p.data.intern .string value).1).node], rfl, ?_⟩
    simp only [Tables.copyInto, Tables.literal, Pass.tables, found]
    rfl
  | name name =>
    obtain rfl := Operand.eq_of_ofString_name sort
    rw [map_bare_node, ← List.map_append] at fetches
    exact fetches

theorem emits_fetchInto {dest : Register} (named : dest ≠ "") :
    p.Emits (do
        let register ← materialize operand (some dest)
        if register != dest then op (.move dest register) else pure ())
      () (((p.fetched operand).tables.copyInto dest (Operand.ofString operand)).map Op.node)
      (p.fetched operand) := by
  have fetches := (emits_materialize stripped filled p (some dest)).bind (run_move dest)
  rw [map_bare_node, ← List.map_append, fetch_append_moveCode stripped _ named] at fetches
  exact fetches

theorem emits_ret :
    p.Emits (ret (some operand)) ()
      (((p.fetched operand).tables.copyInto resultRegister (Operand.ofString operand)).map Op.node ++
        [(Op.jr linkRegister).node])
      (p.fetched operand) := by
  have given : Stmt.given (some operand) = some operand := by simp [Stmt.given, filled]
  have next : ∀ (source : Register) (r : Pass), (if source != resultRegister then do
        op (.move resultRegister source)
        op (.jr linkRegister)
      else op (.jr linkRegister) : Emit Unit).run r =
      .ok () { r with
        text := r.text ++ (Tables.moveCode resultRegister source ++ [Op.jr linkRegister]).map Op.node } := by
    intro source r
    rw [run_ite_bind, run_bind, run_move, List.map_append, ← List.append_assoc]
    rfl
  have fetches := (emits_materialize stripped filled p (some resultRegister)).bind next
  rw [map_bare_node, List.map_append, ← List.append_assoc, ← List.map_append,
    fetch_append_moveCode stripped _ (show resultRegister ≠ "" by decide)] at fetches
  simp only [ret, given]
  cases sort : Operand.ofString operand with
  | immediate value =>
    have same : p.fetched operand = p := by rw [Pass.fetched, sort]
    have loads : p.Emits (op (.li resultRegister value)) () [(Op.li resultRegister value).node] p :=
      ⟨[(Op.li resultRegister value).node], rfl, rfl⟩
    have back : ∀ (_ : Unit) (r : Pass), (op (.jr linkRegister)).run r =
        .ok () { r with text := r.text ++ [(Op.jr linkRegister).node] } := fun _ _ => rfl
    rw [same]
    exact loads.bind back
  | float value | text value | name value =>
    rw [sort] at fetches
    exact fetches

theorem emits_pushAll (written : Text.isWritable p.config.wordSize = true) :
    p.Emits (pushAll [operand]) () (((p.fetched operand).tables.pushCode operand).map Op.node)
      (p.fetched operand) := by
  have config : (p.fetched operand).tables.config = p.config := (lays_fetched stripped filled p).config
  have next : ∀ (source : Register) (r : Pass), (do
        push source p.config.wordSize
        pushAll [] : Emit Unit).run r =
      .ok () { r with text := r.text ++ (pushCode source p.config.wordSize).map Node.instr } := by
    intro source r
    rw [run_bind_of_ok (run_push_ok.mpr ⟨written, rfl⟩)]
    rfl
  have fetches := (emits_materialize stripped filled p (some p.config.scratch0)).bind next
  rw [Tables.pushCode, config, List.map_append]
  exact fetches

/-- Only a scalar in memory is brought to the argument register without the way of a copy. -/
theorem emits_loadArgument (draws : p.registers.DrawsOn p.config) :
    ∃ ops q, p.Emits (loadArgument operand) () (ops.map Op.node) q ∧
      (p.fetched operand).tables.Conveys operand ops argumentRegister := by
  have lays := lays_fetched stripped filled p
  have draws' := drawsOn_fetched stripped filled p draws
  have notZero : argumentRegister ≠ zeroRegister := by decide
  have copies := Tables.conveys_copyInto draws' stripped notZero
  have fetches := emits_fetchInto stripped filled p (show argumentRegister ≠ "" by decide)
  unfold loadArgument
  cases sort : Operand.ofString operand with
  | immediate value =>
    rw [sort] at copies
    exact ⟨_, p, ⟨[(Op.li argumentRegister value).node], rfl, rfl⟩, copies⟩
  | float value | text value =>
    rw [sort] at copies fetches
    exact ⟨_, _, fetches, copies⟩
  | name name =>
    obtain rfl := Operand.eq_of_ofString_name sort
    unfold Pass.Emits
    simp only [run_bind, run_get]
    cases scalar : (p.symbols.lookup? name).filter fun s => s.inMemory && !s.isArray with
    | some s =>
      obtain ⟨entry, kept⟩ := Option.filter_eq_some_iff.mp scalar
      simp only [Bool.and_eq_true, Bool.not_eq_true'] at kept
      have cell : (p.fetched name).tables.symbols.cell? name = some s := by
        show (p.fetched name).symbols.cell? name = some s
        rw [lays.symbols, SymbolTable.cell?_of_lookup? entry, if_pos kept.1]
      have loads := Tables.conveys_load (stripped.symm ▸ sort) cell kept.2 notZero
      exact ⟨[.load s.type.width argumentRegister (.label name)], _, ⟨_, rfl, rfl⟩, loads⟩
    | none =>
      have next : ∀ (source : Register) (r : Pass), (op (.move argumentRegister source)).run r =
          .ok () { r with text := r.text ++ [(Op.move argumentRegister source).node] } := fun _ _ => rfl
      have fetches := (emits_materialize stripped filled p none).bind next
      -- Whatever register a name has, it is not the argument register, so that the move is never left out.
      have elsewhere : ((p.fetched name).tables.fetch name none).1 ≠ argumentRegister := by
        rw [Tables.fetch, stripped, sort]
        exact Tables.register_ne draws' (by simp [Settings.isSpecial, reservedRegisters, argumentRegister])
          (by decide) name
      rw [sort, Tables.copyInto, Tables.moveCode, if_pos (bne_iff_ne.mpr elsewhere)] at copies
      refine ⟨_, p.fetched name, ?_, copies⟩
      rw [List.map_append]
      exact fetches

/-- A call for one argument pushes the one that was queued last. -/
theorem emits_call {front : List String} (queue : p.params = front ++ [operand]) (function : String)
    (written : Text.isWritable p.config.wordSize = true) :
    ∃ q, p.Emits (call function (some 1) none none) ()
      (((p.fetched operand).tables.pushCode operand).map Op.node ++
        [(Op.jal function).node, (Op.aluImm .addiu stackPointer stackPointer p.config.wordSize).node]) q := by
  obtain ⟨nodes, pushes, bare⟩ := emits_pushAll stripped filled p written
  have config : (p.fetched operand).config = p.config := (lays_fetched stripped filled p).config
  have counts : (argumentCount function (some 1) none none).run p = .ok 1 p := by
    have enough : ¬ (1 : Int) > p.params.length := by
      rw [queue, List.length_append, List.length_singleton]
      omega
    simp only [argumentCount, run_bind, run_get, if_neg enough]
    rfl
  -- A count of one takes the argument that was queued last, whatever is queued before it.
  have passed : p.params.drop (p.params.length - (1 : Int).toNat) = [operand] := by
    simp [queue]
  have pops : popCode 1 p.config.wordSize =
      .ok [⟨.aluImm .addiu stackPointer stackPointer p.config.wordSize, some "pop 1 argument"⟩] := by
    have size : (1 : Int) * p.config.wordSize = p.config.wordSize := Int.one_mul _
    rw [popCode, size, written]
    rfl
  refine ⟨{ p.fetched operand with
      labels := (p.fetched operand).labels.reference function, params := [] },
    nodes ++ [.instr ⟨.jal function, some ("call " ++ function)⟩,
      .instr ⟨.aluImm .addiu stackPointer stackPointer p.config.wordSize, some "pop 1 argument"⟩], ?_, ?_⟩
  · simp only [call, run_bind, run_modify, run_get, reference, opNote, code, counts, passed, pushes, config, pops]
    rw [List.append_cons, ← List.append_assoc, ← List.append_assoc]
    rfl
  · rw [List.map_append, bare]
    rfl

theorem emits_copy {target : String} {dest : Register} {bound : Pass}
    (binds : (bindTarget target operand).run p = .ok dest bound) (text : bound.text = p.text) :
    ∃ t : Tables, ∃ q, p.Emits (stmt (.assign target (some operand) none none)) ()
      (((bound.fetched operand).tables.copyInto dest (Operand.ofString operand)).map Op.node ++
        t.store target dest) q := by
  obtain ⟨nodes, loaded, bare⟩ := emits_loadInto stripped filled bound dest
  obtain ⟨q, stored⟩ := exists_storeBack { bound.fetched operand with text := bound.text ++ nodes } target dest
  obtain ⟨storing, lays, settled⟩ := lays_storeBack stored
  refine ⟨q.tables, q, nodes ++ storing, ?_, by rw [List.map_append, bare, settled _ q.fits_tables]⟩
  have final : q.text = p.text ++ (nodes ++ storing) := by
    rw [lays.text, text, List.append_assoc]
  rw [← final]
  show (do
    let dest ← bindTarget target operand
    loadInto dest operand
    storeBack target dest : Emit Unit).run p = .ok () q
  simp only [run_bind, binds, loaded, stored]

end Lower

end

/-! ## Paths -/

namespace Pass

/-- Lines leave in a register what fetching an operand brings into a register of its own, and what moving it from
    there would leave. -/
def Delivers (p : Pass) (operand : String) (nodes : List Node) (dest : Register) : Prop :=
  ∃ r fetching, (Emit.materialize operand none).emitted p = some (r, fetching) ∧ ∀ place c,
    (Core.run place nodes c).map (·.reg dest) = (Core.run place fetching c).map (·.reg r) ∧
    (Core.run place nodes c).map (·.reg dest) =
      (Core.run place (fetching ++ [(Op.move dest r).node]) c).map (·.reg dest)

/-- Lines lower the stack pointer by a word, and leave what fetching an operand brings in the word above it. -/
def Pushes (p : Pass) (operand : String) (nodes : List Node) : Prop :=
  ∃ r fetching, (Emit.materialize operand none).emitted p = some (r, fetching) ∧ ∀ place c,
    let slot := c.reg stackPointer + BitVec.ofInt 32 (-p.config.wordSize)
    (Core.run place nodes c).map (fun d => (d.reg stackPointer, d.memory.read .word slot)) =
      if Width.word.Admits slot then (Core.run place fetching c).map fun d => (slot, d.reg r) else none

/-- All ways to bring an operand somewhere bring what fetching it brings. -/
structure PathsAgree (p : Pass) (operand : String) : Prop where
  copy : ∀ target ≠ "", ∃ dest bound copying storing,
    (Lower.bindTarget target operand).run p = .ok dest bound ∧
    (Lower.stmt (.assign target (some operand) none none)).emitted p = some ((), copying ++ storing) ∧
    bound.Delivers operand copying dest ∧
    ∀ place c d r, Core.run place storing c = some d → d.reg r = c.reg r
  returns : ∃ returning,
    (Lower.stmt (.ret (some operand))).emitted p = some ((), returning ++ [(Op.jr linkRegister).node]) ∧
    p.Delivers operand returning resultRegister
  argument : ∃ loading, (Lower.loadArgument operand).emitted p = some ((), loading) ∧
    p.Delivers operand loading argumentRegister ∧
    -- A word that names nothing is printed as it is, and a float goes to another register.
    ((isVariableName operand && !p.symbols.contains operand) = false → p.symbols.operandType operand ≠ .float →
      (Lower.stmt (.print operand)).emitted p = some ((), loading ++
        [(Tables.serviceCode (.forType (p.symbols.operandType operand))).node, Op.syscall.node]))
  push : Text.isWritable p.config.wordSize = true →
    ∃ pushing, (Lower.pushAll [operand]).emitted p = some ((), pushing) ∧ p.Pushes operand pushing ∧
    ∀ function,
      (do Lower.stmt (.param operand); Lower.stmt (.call function (some 1) none none)).emitted p =
        some ((), pushing ++
          [(Op.jal function).node, (Op.aluImm .addiu stackPointer stackPointer p.config.wordSize).node])
  -- Otherwise the push itself cannot be written.
  unpushed : Text.isWritable p.config.wordSize = false → (Lower.pushAll [operand]).emitted p = none

end Pass

namespace Tables

variable {t : Tables} {operand : String}

theorem run_store_of_some {place : String → Word} {name : String} {register : Register} {c d : Core}
    (ran : Core.run place (t.store name register) c = some d) (r : Register) : d.reg r = c.reg r := by
  unfold store at ran
  split at ran
  · cases ran
    rfl
  · split at ran
    · cases ran
      rfl
    · obtain ⟨e, stored, done⟩ := Option.bind_eq_some_iff.mp ran
      cases done
      exact Core.exec_of_writes stored rfl

/-- A push leaves on the stack what fetching its operand brings, unless the register for literals is the stack
    pointer. -/
theorem run_pushCode (draws : t.registers.DrawsOn t.config) (scratch : t.registers.scratch = t.config.scratch)
    (notZero : t.config.scratch0 ≠ zeroRegister) (notStack : t.config.scratch0 ≠ stackPointer)
    (place : String → Word) (c : Core) :
    let slot := c.reg stackPointer + BitVec.ofInt 32 (-t.config.wordSize)
    (Core.run place ((t.pushCode operand).map Op.node) c).map
        (fun d => (d.reg stackPointer, d.memory.read .word slot)) =
      if Width.word.Admits slot then
        (Core.run place ((t.fetch operand none).2.map Op.node) c).map fun d => (slot, d.reg (t.fetch operand none).1)
      else none := by
  intro slot
  have literals : ∀ wanted ∈ [none, some t.config.scratch0],
      t.registers.literalRegister wanted = t.config.scratch0 := by
    simp [RegisterFile.literalRegister, scratch, Config.scratch0]
  have same : t.fetch operand (some t.config.scratch0) = t.fetch operand none := by
    rw [fetch, fetch, literals _ (by simp), literals _ (by simp)]
  -- The stack pointer moves after the fetch, so what was fetched must not be in it.
  have elsewhere : (t.fetch operand none).1 ≠ stackPointer := by
    rw [fetch, literals _ (by simp)]
    cases Operand.ofString (Text.stripped operand) with
    | immediate | float | text => exact notStack
    | name name =>
      exact register_ne draws (by simp [Settings.isSpecial, reservedRegisters, stackPointer]) (by decide) name
  rw [pushCode, same, List.map_append, Core.run_append]
  -- Both sides get stuck at the same place: in the fetch, or in the store if the stack is not aligned.
  by_cases admits : t.Admits place operand
  · have notZero' : t.registers.literalRegister none ≠ zeroRegister := by
      rw [literals _ (by simp)]
      exact notZero
    obtain ⟨e, ran, gets⟩ := runs_fetch draws notZero' admits c
    let lowered := e.setReg stackPointer slot
    have lowers : e.exec place (.aluImm .addiu stackPointer stackPointer (-t.config.wordSize)) = some lowered := by
      rw [Core.exec, gets.others _ elsewhere.symm]
      rfl
    have top : lowered.reg stackPointer = slot := e.reg_setReg_self _ (by decide)
    have kept : lowered.reg (t.fetch operand none).1 = e.reg (t.fetch operand none).1 :=
      e.reg_setReg_of_ne _ elsewhere
    rw [ran, Option.bind_some, Core.run_op_cons lowers]
    by_cases aligned : Width.word.Admits slot
    · let pushed : Core := { lowered with memory := e.memory.write .word slot (e.reg (t.fetch operand none).1) }
      have stores : lowered.exec place (.store .word (t.fetch operand none).1 (.base stackPointer)) = some pushed := by
        rw [Core.exec, Core.locate, top, if_pos aligned, kept]
        rfl
      have onTop : pushed.reg stackPointer = slot := top
      have value : pushed.memory.read .word slot = e.reg (t.fetch operand none).1 := Memory.read_write_self
      rw [if_pos aligned, List.map_singleton, Core.run_op stores, Option.map_some, onTop, value]
      rfl
    · have stuck : lowered.exec place (.store .word (t.fetch operand none).1 (.base stackPointer)) = none := by
        rw [Core.exec, Core.locate, top, if_neg aligned]
      rw [if_neg aligned, Option.map_eq_none_iff, List.map_singleton]
      show (lowered.exec place _).bind _ = none
      rw [stuck]
      rfl
  · have stuck : Core.run place ((t.fetch operand none).2.map Op.node) c = none := run_fetchAs_eq_none admits _ c
    simp [stuck]

end Tables

section

variable {operand : String} (stripped : Text.stripped operand = operand) (filled : operand ≠ "") {p : Pass}

include stripped filled

namespace Pass

theorem delivers_of_conveys (draws : p.registers.DrawsOn p.config)
    (scratch : p.registers.scratch = p.config.scratch) (notZero : p.config.scratch0 ≠ zeroRegister)
    {ops : List Op} {dest : Register} (fixed : dest ≠ zeroRegister)
    (conveys : (p.fetched operand).tables.Conveys operand ops dest) :
    p.Delivers operand (ops.map Op.node) dest := by
  have lays := Emit.lays_fetched stripped filled p
  let t := (p.fetched operand).tables
  have draws' : t.registers.DrawsOn t.config := Emit.drawsOn_fetched stripped filled p draws
  have literal : t.registers.literalRegister none ≠ zeroRegister := by
    show (p.fetched operand).registers.scratch.getD 0 "" ≠ zeroRegister
    rw [lays.registers.scratch, scratch]
    exact notZero
  have same := conveys.same (Tables.conveys_fetch draws' literal)
  refine ⟨_, _, (Emit.emits_materialize stripped filled p none).emitted, fun place c => ⟨same place c, ?_⟩⟩
  rw [same place c, Core.run_append]
  cases Core.run place ((t.fetch operand none).2.map Op.node) c with
  | none => rfl
  | some d => exact congrArg some (d.reg_setReg_self _ fixed).symm

theorem pathsAgree (draws : p.registers.DrawsOn p.config) (scratch : p.registers.scratch = p.config.scratch)
    (notZero : p.config.scratch0 ≠ zeroRegister)
    (notStack : Text.isWritable p.config.wordSize = true → p.config.scratch0 ≠ stackPointer) :
    p.PathsAgree operand where
  copy target named := by
    obtain ⟨dest, bound, binds, text, -, config, kept, entry⟩ := Lower.exists_bindTarget p operand named
    obtain ⟨t, q, emits⟩ := Lower.emits_copy stripped filled p binds text
    have draws' : bound.registers.DrawsOn bound.config := config ▸ kept.drawsOn draws
    have scratch' : bound.registers.scratch = bound.config.scratch := by rw [kept.scratch, config, scratch]
    have fixed : dest ≠ zeroRegister := by
      have register := bound.fits_tables.register entry
      rw [← register]
      exact Tables.register_ne_zeroRegister draws' target
    have conveys := Tables.conveys_copyInto (Emit.drawsOn_fetched stripped filled bound draws') stripped fixed
    refine ⟨dest, bound, _, _, binds, emits.emitted, ?_, fun place c d r ran => Tables.run_store_of_some ran r⟩
    exact delivers_of_conveys stripped filled draws' scratch' (config.symm ▸ notZero) fixed conveys
  returns := by
    have fixed : resultRegister ≠ zeroRegister := by decide
    have conveys := Tables.conveys_copyInto (Emit.drawsOn_fetched stripped filled p draws) stripped fixed
    refine ⟨_, (Lower.emits_ret stripped filled p).emitted, ?_⟩
    exact delivers_of_conveys stripped filled draws scratch notZero fixed conveys
  argument := by
    obtain ⟨ops, q, emits, conveys⟩ := Lower.emits_loadArgument stripped filled p draws
    refine ⟨_, emits.emitted, ?_, fun known type => (Lower.emits_print known type emits).emitted⟩
    exact delivers_of_conveys stripped filled draws scratch notZero (by decide) conveys
  push written := by
    have lays := Emit.lays_fetched stripped filled p
    have notStack := notStack written
    refine ⟨_, (Lower.emits_pushAll stripped filled p written).emitted, ?_, fun function => ?_⟩
    · refine ⟨_, _, (Emit.emits_materialize stripped filled p none).emitted, fun place c => ?_⟩
      have config : (p.fetched operand).tables.config = p.config := lays.config
      have scratch' : (p.fetched operand).tables.registers.scratch = (p.fetched operand).tables.config.scratch := by
        rw [config, ← scratch]
        exact lays.registers.scratch
      rw [← config] at notZero notStack ⊢
      exact Tables.run_pushCode (Emit.drawsOn_fetched stripped filled p draws) scratch' notZero notStack place c
    · obtain ⟨q, nodes, ran, bare⟩ := Lower.emits_call stripped filled
        { p with params := p.params ++ [operand] } rfl function written
      rw [tables_fetched_queue] at bare
      exact Emits.emitted ⟨nodes, ran, bare⟩
  unpushed unwritable := by
    have given : Text.Filled operand := by
      rw [Text.Filled, stripped]
      exact filled
    obtain ⟨q, failed⟩ := Lower.pushAll_fails (List.forall_mem_singleton.mpr given) (List.cons_ne_nil _ _) unwritable
    rw [Emit.emitted, failed]

end Pass

end

/-- The states of the translation of a program, also those within a call that has pushed some of its arguments. -/
def Pass.Reached (config : Config) (p : Pass) : Prop :=
  ∃ program, ∃ s ∈ (traceProgram config program).1, ∃ arguments, (Lower.pushAll arguments).run s.before = .ok () p

theorem extends_before_of_mem_traceFrom {program : Program} {p : Pass}
    (scratch : p.registers.scratch = p.config.scratch) :
    ∀ s ∈ traceFrom p program, s.before.config = p.config ∧ p.registers.Extends s.before.registers := by
  induction program generalizing p with
  | nil => simp [traceFrom]
  | cons l rest ih =>
    obtain ⟨config, registers, scratchThen, -⟩ := Lower.confines_line l scratch
    obtain ⟨fault, first⟩ := exists_traceFrom_cons p l rest
    rw [first]
    intro s member
    rcases List.mem_cons.mp member with rfl | later
    · exact ⟨rfl, .refl _⟩
    · obtain ⟨config', registers'⟩ := ih scratchThen s later
      exact ⟨config'.trans config, registers.trans registers'⟩

theorem Pass.Reached.settings {config : Config} {p : Pass} (reached : p.Reached config) :
    p.config = config ∧ p.registers.DrawsOn config ∧ p.registers.scratch = config.scratch := by
  obtain ⟨program, s, member, arguments, pushed⟩ := reached
  obtain ⟨before, kept⟩ := extends_before_of_mem_traceFrom (p := Pass.ready config program) rfl s member
  obtain ⟨is, lays, -⟩ := Lower.lays_pushAll pushed
  have later := kept.trans lays.registers
  exact ⟨lays.config.trans before, later.drawsOn (RegisterFile.drawsOn_ofRegisters config), later.scratch⟩

/-- At the start the translation of every program is in such a state. -/
theorem Pass.reached_ready (config : Config) (l : Line) : (Pass.ready config [l]).Reached config := by
  obtain ⟨fault, steps⟩ := exists_traceFrom_cons (Pass.ready config [l]) l []
  have first : ⟨l, fault, Pass.ready config [l], Emit.final ((Lower.line l).run (Pass.ready config [l]))⟩ ∈
      (traceProgram config [l]).1 := by
    show _ ∈ traceFrom (Pass.ready config [l]) [l]
    rw [steps]
    exact List.mem_cons_self
  exact ⟨[l], _, first, [], rfl⟩

/-! The operand `1` is fetched into the register for literals, whatever the state. -/

namespace Pass

theorem ofString_one : Operand.ofString "1" = .immediate "1" := by decide +kernel

theorem stripped_one : Text.stripped "1" = "1" := by decide +kernel

variable {p : Pass} (scratch : p.registers.scratch = p.config.scratch)

theorem fetched_one : p.fetched "1" = p := by
  rw [fetched, ofString_one]

include scratch

theorem emitted_one :
    (Emit.materialize "1" none).emitted p = some (p.config.scratch0, [(Op.li p.config.scratch0 "1").node]) := by
  rw [(Emit.emits_materialize stripped_one (by decide) p none).emitted, fetched_one, Tables.fetch, stripped_one,
    ofString_one]
  have literal : p.tables.registers.literalRegister none = p.config.scratch0 := by
    show p.registers.scratch.getD 0 "" = p.config.scratch0
    rw [scratch]
    rfl
  rw [literal]
  rfl

theorem PathsAgree.scratch0_ne_zeroRegister (agree : p.PathsAgree "1") : p.config.scratch0 ≠ zeroRegister := by
  intro zero
  obtain ⟨returning, returns, r, fetching, fetched, same⟩ := agree.returns
  have code : returning = [(Op.li resultRegister "1").node] := by
    have emits := (Lower.emits_ret stripped_one (by decide) p).emitted
    rw [fetched_one, ofString_one] at emits
    have codes := Prod.mk.inj (Option.some.inj (returns.symm.trans emits))
    exact List.append_cancel_right codes.2
  rw [emitted_one scratch, zero] at fetched
  cases fetched
  have values := (same (fun _ => 0) ⟨fun _ => 0, fun _ => 0⟩).1
  rw [code] at values
  exact absurd values (by decide +kernel)

/-- If a literal is fetched into the stack pointer, then not the literal is pushed, but an address. -/
theorem PathsAgree.scratch0_ne_stackPointer (agree : p.PathsAgree "1")
    (written : Text.isWritable p.config.wordSize = true) : p.config.scratch0 ≠ stackPointer := by
  intro stack
  obtain ⟨pushing, pushes, ⟨r, fetching, fetched, same⟩, -⟩ := agree.push written
  let lower : Op := .aluImm .addiu stackPointer stackPointer (-p.config.wordSize)
  let write : Op := .store .word stackPointer (.base stackPointer)
  have code : pushing = [.li stackPointer "1", lower, write].map Op.node := by
    have emits := (Lower.emits_pushAll stripped_one (by decide) p written).emitted
    have wanted : p.tables.config.scratch0 = stackPointer := stack
    rw [fetched_one, Tables.pushCode, wanted, Tables.fetch, stripped_one, ofString_one,
      RegisterFile.literalRegister_of_named _ (show stackPointer ≠ "" by decide)] at emits
    exact (Prod.mk.inj (Option.some.inj (pushes.symm.trans emits))).2
  rw [emitted_one scratch, stack] at fetched
  cases fetched
  -- The word below the stack pointer is the one at address 0.
  let c : Core := ⟨fun _ => BitVec.ofInt 32 p.config.wordSize, fun _ => 0⟩
  have slot : c.reg stackPointer + BitVec.ofInt 32 (-p.config.wordSize) = 0 := by
    show BitVec.ofInt 32 p.config.wordSize + BitVec.ofInt 32 (-p.config.wordSize) = 0
    rw [BitVec.ofInt_neg, BitVec.add_right_neg]
    rfl
  let a : Word := 1 + BitVec.ofInt 32 (-p.config.wordSize)
  let lowered := (c.setReg stackPointer 1).setReg stackPointer a
  have top : lowered.reg stackPointer = a := Core.reg_setReg_self _ _ (by decide)
  have runs : Core.run (fun _ => 0) pushing c = lowered.exec (fun _ => 0) write := by
    rw [code, Core.run_op_cons (d := c.setReg stackPointer 1) rfl, Core.run_op_cons (d := lowered) rfl]
    exact Option.bind_fun_some _
  have aligned : Width.word.Admits (0 : Word) := by decide
  have values := same (fun _ => 0) c
  rw [slot, runs, Core.exec, Core.locate, top] at values
  simp only [if_pos aligned] at values
  by_cases admits : Width.word.Admits a
  · rw [if_pos admits] at values
    obtain ⟨pointer, value⟩ := Prod.mk.inj (Option.some.inj values)
    have pointer : a = 0 := top.symm.trans pointer
    rw [pointer, Memory.read_write_self] at value
    cases value
  · rw [if_neg admits] at values
    cases values

end Pass

/-- All ways to bring an operand somewhere agree in all states of all translations, unless the first register for
    literals cannot hold a literal, or is the stack pointer and the size of a word is such that anything is pushed. -/
theorem paths_agree_iff (config : Config) :
    (∀ p : Pass, p.Reached config → ∀ operand, operand ≠ "" → Text.stripped operand = operand →
      p.PathsAgree operand) ↔
      config.scratch0 ≠ zeroRegister ∧
        (Text.isWritable config.wordSize = true → config.scratch0 ≠ stackPointer) := by
  constructor
  · intro agree
    have reached := Pass.reached_ready config ⟨"", .comment ""⟩
    obtain ⟨settings, -, scratch⟩ := reached.settings
    have one := agree _ reached "1" (by decide) Pass.stripped_one
    rw [← settings] at scratch ⊢
    exact ⟨one.scratch0_ne_zeroRegister scratch, one.scratch0_ne_stackPointer scratch⟩
  · rintro ⟨notZero, notStack⟩ p reached operand filled stripped
    obtain ⟨rfl, draws, scratch⟩ := reached.settings
    exact Pass.pathsAgree stripped filled draws scratch notZero notStack

/-- In the default settings they agree, for example, on a float. -/
theorem standard_paths_agree :
    (Pass.ready (.standard false) [⟨"x = 3.5", .assign "x" (some "3.5") none none⟩]).PathsAgree "3.5" :=
  (paths_agree_iff (.standard false)).mpr (by decide) _ (Pass.reached_ready _ _) "3.5" (by decide)
    (by decide +kernel)

/-- Settings that are accepted though they let literals pass through the stack pointer. -/
def literalsInPointer : Config where
  scratch := [stackPointer, "$a1"]
  accepted := by decide

/-- A call for the argument 8 pushes the number 4 there, which is the address of the word that it pushes it to. -/
theorem literalsInPointer_push :
    (do Lower.stmt (.param "8"); Lower.stmt (.call "f" (some 1) none none)).emitted (Pass.start literalsInPointer) =
      some ((), [.li stackPointer "8", .aluImm .addiu stackPointer stackPointer (-4),
        .store .word stackPointer (.base stackPointer), .jal "f",
        .aluImm .addiu stackPointer stackPointer 4].map Op.node) ∧
    (Core.run (fun _ => 0) ([.li stackPointer "8", .aluImm .addiu stackPointer stackPointer (-4),
        .store .word stackPointer (.base stackPointer)].map Op.node) ⟨fun _ => 64, fun _ => 0⟩).map
      (fun d => (d.reg stackPointer, d.memory.read .word (d.reg stackPointer))) = some (4, 4) := by
  decide +kernel

end MipsLowering
