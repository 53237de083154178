import MipsLowering.Proofs.Layout
import MipsLowering.Proofs.Registers

/-! # The code of every statement

`Tables.code` reads the code of a statement on scalars off the tables in which a pass ends.  The other
statements need a little more: a call pushes the arguments that are queued at its place, which are fetched
before its target gets a cell, and a fill with zeros takes the next free label.  `Tables.codeFrom` is the
code of any statement, from the final tables and the state in which the statement is lowered, and
`Chain.laid` says that this is what the steps of a pass have laid out, comments aside. -/

namespace MipsLowering

namespace Tables

variable (t : Tables)

/-! ## Arrays -/

/-- The operations that leave the address of an element in the address register. -/
def elementCode (array index : String) : List Op :=
  let fetched := t.fetch index (some t.config.indexRegister)
  [.la t.config.addressRegister array] ++ fetched.2 ++
    [.li t.config.scratch0 (toString (t.symbols.elementSize array)),
      .alu .mul t.config.indexRegister fetched.1 t.config.scratch0,
      .alu .addu t.config.addressRegister t.config.addressRegister t.config.indexRegister]

def arrayStoreCode (array index value : String) : List Op :=
  let fetched := t.fetch value (some t.config.scratch0)
  t.elementCode array index ++ fetched.2 ++
    [.store (t.symbols.elementType array).width fetched.1 (.base t.config.addressRegister)]

def arrayLoadCode (target array index : String) : List Node :=
  let loaded : Op :=
    .load (t.symbols.elementType array).width (t.register target) (.base t.config.addressRegister)
  (t.elementCode array index ++ [loaded]).map Op.node ++ t.store target (t.register target)

/-- The loop that clears elements from the cursor on, up to the index in a register. -/
def fillLoop (array loop : String) (last : Register) : List Node :=
  let cursor := t.config.addressRegister
  let index := t.config.indexRegister
  [.label loop,
    (Op.beq index last (loop ++ "_end")).node,
    (Op.store (t.symbols.elementType array).width zeroRegister (.base cursor)).node,
    (Op.aluImm .addiu cursor cursor (t.symbols.elementSize array)).node,
    (Op.aluImm .addiu index index 1).node,
    (Op.j loop).node,
    .label (loop ++ "_end")]

/-- The operations that move the cursor on to the element whose index is in the index register. -/
def cursorCode (array : String) : List Op :=
  [.li t.config.scratch0 (toString (t.symbols.elementSize array)),
    .alu .mul t.config.scratch0 t.config.indexRegister t.config.scratch0,
    .alu .addu t.config.addressRegister t.config.addressRegister t.config.scratch0]

def fillCode (array start stop loop : String) : List Node :=
  let first := t.fetch start (some t.config.indexRegister)
  let last := t.fetch stop (some t.config.scratch1)
  (Op.la t.config.addressRegister array :: first.2 ++ moveCode t.config.indexRegister first.1 ++
      t.cursorCode array ++ last.2).map Op.node ++
    t.fillLoop array loop last.1

/-! ## Calls -/

/-- The operations that push an operand as one word. -/
def pushCode (operand : String) : List Op :=
  let fetched := t.fetch operand (some t.config.scratch0)
  fetched.2 ++ [.aluImm .addiu stackPointer stackPointer (-t.config.wordSize),
    .store .word fetched.1 (.base stackPointer)]

/-- The arguments that a call pushes: as many of the queued ones as it takes, from the last. -/
def pushed (queue : List String) (count : Option Int) : List String :=
  queue.drop (queue.length - (count.getD queue.length).toNat)

/-- The code of a call.  The arguments are pushed before the target is declared. -/
def passCode (symbols : SymbolTable) (queue : List String) (function : String) (count : Option Int)
    (target rawCount : Option String) : List Node :=
  queueRemark function count target rawCount queue.length ++
    ((pushed queue count).flatMap ({ t with symbols := symbols } : Tables).pushCode).map Op.node ++
    [(Op.jal function).node] ++ t.releaseCode (some (count.getD queue.length)) ++ t.resultCode target

def returnCode (value : Option String) : List Op :=
  match Stmt.given value with
  | none => [.jr linkRegister]
  | some operand =>
    match Operand.ofString operand with
    | .immediate constant => [.li resultRegister constant, .jr linkRegister]
    | _ =>
      let fetched := t.fetch operand (some resultRegister)
      fetched.2 ++ moveCode resultRegister fetched.1 ++ [.jr linkRegister]

/-- The code of a statement that is lowered from a state. -/
def codeFrom (p : Pass) : Stmt → List Node
  | .comment text => [.comment text]
  | .arrayLoad target array index => t.arrayLoadCode target array index
  | .arrayStore array index value => (t.arrayStoreCode array index value).map Op.node
  | .zeroFill array start stop =>
    t.fillCode array start stop (p.labels.generate "arr_pad" ["", "_end"]).1
  | .call function count target rawCount => t.passCode p.symbols p.params function count target rawCount
  | .ret value => (t.returnCode value).map Op.node
  | .malformed text reason => [.comment (Diagnostic.malformed text reason).message]
  | .unsupported text | .foreign text => [.comment (Diagnostic.unsupported text).message]
  | s => t.code s

end Tables

/-! ## Stretches of a pass -/

/-- From `p` to `q` the lines `nodes` are laid out, names keep their registers, and literals their
    labels. -/
structure Pass.Grows (p q : Pass) (nodes : List Node) : Prop where
  text : q.text = p.text ++ nodes
  config : q.config = p.config
  registers : p.registers.Extends q.registers
  literals : p.data.literals <+: q.data.literals

theorem Lays.grows {p q : Pass} {nodes : List Node} {names : List String} (lays : Lays p q nodes names) :
    p.Grows q nodes :=
  ⟨lays.text, lays.config, lays.registers, lays.literals⟩

theorem Pass.Grows.trans {p q r : Pass} {first second : List Node} (before : p.Grows q first)
    (after : q.Grows r second) : p.Grows r (first ++ second) where
  text := by rw [after.text, before.text, List.append_assoc]
  config := after.config.trans before.config
  registers := before.registers.trans after.registers
  literals := before.literals.trans after.literals

/-- Tables that fit the end of a stretch fit its beginning, but for the symbols. -/
theorem Pass.Grows.fits {p q : Pass} {nodes : List Node} {t : Tables} (grows : p.Grows q nodes)
    (fits : t.Fits q) : ({ t with symbols := p.symbols } : Tables).Fits p where
  config := fits.config.trans grows.config
  symbols := rfl
  registers := grows.registers.trans fits.registers
  literals := grows.literals.trans fits.literals

theorem Pass.literals_declaring (p : Pass) (name : String) (type : ValueType) :
    (p.declaring name type).data.literals = p.data.literals := by
  unfold Pass.declaring
  cases (p.symbols.declare name type).2 <;> rfl

theorem SymbolTable.elementType_note_self (symbols : SymbolTable) (target array : String) :
    (symbols.note target (symbols.elementType array)).elementType array = symbols.elementType array := by
  unfold note
  cases absent : symbols.lookup? target with
  | some old => rfl
  | none =>
    by_cases same : target = array
    · subst same
      simp [elementType, lookup?_add, absent, Symbol.isArray]
    · simp [elementType, lookup?_add, same]

namespace Lower

open Emit
open Stmt (namesIn)

variable {p q : Pass}

/-! ### Arrays -/

theorem lays_elementAddress {array index : String} {r : Register}
    (ran : (elementAddress array index).run p = .ok r q) :
    r = p.config.addressRegister ∧
    ∃ is : List Instr, Lays p q (is.map Node.instr) (namesIn index) ∧
      ∀ t : Tables, t.Fits q → t.elementCode array index = is.map Instr.op := by
  simp only [elementAddress, run_get_bind] at ran
  obtain ⟨_, p₁, based, ran⟩ := run_bind_ok.mp ran
  obtain ⟨register, p₂, fetched, ran⟩ := run_bind_ok.mp ran
  obtain ⟨_, p₃, sized, ran⟩ := run_bind_ok.mp ran
  obtain ⟨_, p₄, scaled, ran⟩ := run_bind_ok.mp ran
  obtain ⟨_, p₅, added, done⟩ := run_bind_ok.mp ran
  cases done
  obtain ⟨is, laysFetch, settled⟩ := lays_materialize fetched
  have laysBase := lays_code based
  have laysSum := ((lays_code sized).andCode (lays_code scaled)).andCode (lays_code added)
  refine ⟨rfl, ⟨.la p.config.addressRegister array, some ("&" ++ array)⟩ :: is ++
    [⟨.li p.config.scratch0 (toString (p.symbols.elementSize array)), none⟩,
      ⟨.alu .mul p.config.indexRegister register p.config.scratch0,
        some ("offset = " ++ index ++ " * " ++ toString (p.symbols.elementSize array))⟩,
      ⟨.alu .addu p.config.addressRegister p.config.addressRegister p.config.indexRegister, none⟩],
    ?_, ?_⟩
  · simpa using (laysBase.trans laysFetch).andCode laysSum
  · intro t fits
    have fits₂ := fits.before laysSum
    have fits₀ := (fits₂.before laysFetch).before laysBase
    simp [Tables.elementCode, fits₀.config, fits₀.symbols, settled t fits₂]

theorem lays_arrayStore {array index value : String}
    (ran : (arrayStore array index value).run p = .ok () q) :
    ∃ nodes, Lays p q nodes (namesIn index ++ namesIn value) ∧
      ∀ t : Tables, t.Fits q → nodes.map Node.bare = (t.arrayStoreCode array index value).map Op.node := by
  obtain ⟨address, p₁, located, ran⟩ := run_bind_ok.mp ran
  rw [run_get_bind] at ran
  obtain ⟨register, p₂, fetched, stored⟩ := run_bind_ok.mp ran
  rw [run_get_bind] at stored
  obtain ⟨rfl, is, laysAddress, settledAddress⟩ := lays_elementAddress located
  obtain ⟨is', laysFetch, settledFetch⟩ := lays_materialize fetched
  have laysStore := lays_code stored
  refine ⟨_, (laysAddress.trans laysFetch).andCode laysStore, fun t fits => ?_⟩
  have fits₂ := fits.before laysStore
  have fits₁ := fits₂.before laysFetch
  have fits₀ := fits₁.before laysAddress
  have config : t.config = p₁.config := fits₁.config
  have symbols : t.symbols = p₂.symbols := fits₂.symbols
  have address : p.config.addressRegister = t.config.addressRegister := by rw [fits₀.config]
  simp [Tables.arrayStoreCode, settledAddress t fits₁, config, settledFetch t fits₂, symbols,
    Function.comp_def]
  rw [← config, address]

theorem lays_arrayLoad {target array index : String}
    (ran : (arrayLoad target array index).run p = .ok () q) :
    ∃ nodes, Lays { p with symbols := p.symbols.note target (p.symbols.elementType array) } q nodes
        (target :: namesIn index) ∧
      ∀ t : Tables, t.Fits q → nodes.map Node.bare = t.arrayLoadCode target array index := by
  simp only [arrayLoad, run_get_bind] at ran
  obtain ⟨_, p₁, noted, ran⟩ := run_bind_ok.mp ran
  cases noted
  obtain ⟨dest, p₂, got, ran⟩ := run_bind_ok.mp ran
  obtain ⟨address, p₃, located, ran⟩ := run_bind_ok.mp ran
  obtain ⟨_, p₄, loaded, stored⟩ := run_bind_ok.mp ran
  obtain ⟨laysDest, bound⟩ := lays_registerFor got
  obtain ⟨rfl, is, laysAddress, settledAddress⟩ := lays_elementAddress located
  have laysLoad := lays_code loaded
  obtain ⟨nodes, laysStore, settledStore⟩ := lays_storeBack stored
  have laysAll := (((laysDest.trans laysAddress).andCode laysLoad).andCode laysStore).congr
    (List.singleton_append (x := target)).symm
  refine ⟨_, laysAll, fun t fits => ?_⟩
  have fits₃ := (fits.before laysStore).before laysLoad
  have fits₂ := fits₃.before laysAddress
  have fits₁ := fits₂.before laysDest
  -- Recording the target does not change what the array holds.
  have type : t.symbols.elementType array = p.symbols.elementType array := by
    rw [fits₁.symbols]
    exact p.symbols.elementType_note_self target array
  have address : t.config.addressRegister = p₂.config.addressRegister := by rw [fits₂.config]
  simp [Tables.arrayLoadCode, settledAddress t fits₃, type, fits₂.register bound, address,
    settledStore t fits, Function.comp_def]

theorem lays_label {name : String} (ran : (label name).run p = .ok () q) :
    Lays { p with labels := p.labels.define name } q [.label name] [] := by
  simp only [label, run_get_bind] at ran
  split at ran
  all_goals
    cases ran
    exact .of_text rfl rfl rfl rfl rfl rfl rfl

/-- The loop of a fill, from its labels on. -/
theorem lays_fillLoop {array : String} {last : Register} {size : Nat} {cursor index : Register}
    (ran : (do
      let loop ← freshLabel "arr_pad" ["", "_end"]
      let exit := loop ++ "_end"
      reference loop
      reference exit
      label loop
      op (.beq index last exit)
      op (.store ((← get).symbols.elementType array).width zeroRegister (.base cursor))
      op (.aluImm .addiu cursor cursor size)
      op (.aluImm .addiu index index 1)
      op (.j loop)
      label exit : Emit Unit).run p = .ok () q) :
    ∃ labels nodes, Lays { p with labels := labels } q nodes [] ∧
      ∀ t : Tables, t.Fits q → t.config.addressRegister = cursor → t.config.indexRegister = index →
        t.symbols.elementSize array = size →
        nodes.map Node.bare =
          t.fillLoop array (p.labels.generate "arr_pad" ["", "_end"]).1 last := by
  obtain ⟨loop, p₁, generated, ran⟩ := run_bind_ok.mp ran
  cases generated
  obtain ⟨_, p₂, first, ran⟩ := run_bind_ok.mp ran
  cases first
  obtain ⟨_, p₃, second, ran⟩ := run_bind_ok.mp ran
  cases second
  obtain ⟨_, p₄, placed, ran⟩ := run_bind_ok.mp ran
  obtain ⟨_, p₅, tested, ran⟩ := run_bind_ok.mp ran
  rw [run_get_bind] at ran
  obtain ⟨_, p₆, cleared, ran⟩ := run_bind_ok.mp ran
  obtain ⟨_, p₇, advanced, ran⟩ := run_bind_ok.mp ran
  obtain ⟨_, p₈, counted, ran⟩ := run_bind_ok.mp ran
  obtain ⟨_, p₉, jumped, ended⟩ := run_bind_ok.mp ran
  have laysBody := (((((lays_label placed).andCode (lays_code tested)).andCode
    (lays_code cleared)).andCode (lays_code advanced)).andCode (lays_code counted)).andCode
    (lays_code jumped)
  have laysEnd := lays_label ended
  have laysAll := (laysBody.relabel
    (·.define ((p.labels.generate "arr_pad" ["", "_end"]).1 ++ "_end"))).andCode laysEnd
  refine ⟨_, _, laysAll, fun t fits cursorIs indexIs sizeIs => ?_⟩
  have symbols : t.symbols = p₅.symbols := by
    rw [(fits.before laysAll).symbols, (lays_code tested).symbols, (lays_label placed).symbols]
  rw [symbols] at sizeIs
  simp [Tables.fillLoop, cursorIs, indexIs, sizeIs, symbols, LabelTable.generate]

/-- A fill from the place on where the first index is in its register. -/
theorem lays_fillBody {array start stop : String} (config : Config)
    (ran : (do
      op (.li config.scratch0 (toString (p.symbols.elementSize array)))
      op (.alu .mul config.scratch0 config.indexRegister config.scratch0)
      opNote (.alu .addu config.addressRegister config.addressRegister config.scratch0)
        ("&" ++ array ++ "[" ++ start ++ "]")
      let last ← materialize stop (some config.scratch1)
      let loop ← freshLabel "arr_pad" ["", "_end"]
      let exit := loop ++ "_end"
      reference loop
      reference exit
      label loop
      op (.beq config.indexRegister last exit)
      op (.store ((← get).symbols.elementType array).width zeroRegister (.base config.addressRegister))
      op (.aluImm .addiu config.addressRegister config.addressRegister (p.symbols.elementSize array))
      op (.aluImm .addiu config.indexRegister config.indexRegister 1)
      op (.j loop)
      label exit : Emit Unit).run p = .ok () q) (same : p.config = config) :
    ∃ labels nodes, Lays { p with labels := labels } q nodes (namesIn stop) ∧
      ∀ t : Tables, t.Fits q → nodes.map Node.bare =
        (t.cursorCode array ++ (t.fetch stop (some t.config.scratch1)).2).map Op.node ++
        t.fillLoop array (p.labels.generate "arr_pad" ["", "_end"]).1
          (t.fetch stop (some t.config.scratch1)).1 := by
  obtain ⟨_, p₁, sized, ran⟩ := run_bind_ok.mp ran
  obtain ⟨_, p₂, scaled, ran⟩ := run_bind_ok.mp ran
  obtain ⟨_, p₃, added, ran⟩ := run_bind_ok.mp ran
  obtain ⟨last, p₄, fetched, ran⟩ := run_bind_ok.mp ran
  have laysSum := ((lays_code sized).andCode (lays_code scaled)).andCode (lays_code added)
  obtain ⟨is, laysLast, settledLast⟩ := lays_materialize fetched
  have laysFront := laysSum.trans laysLast
  obtain ⟨labels, nodes, laysLoop, settledLoop⟩ := lays_fillLoop ran
  have laysAll := (laysFront.relabel fun _ => labels).trans laysLoop
  refine ⟨labels, _, laysAll.congr (by simp), fun t fits => ?_⟩
  have fits₄ : t.Fits p₄ := { fits.before laysLoop with }
  have fits₀ := fits₄.before laysFront
  have configIs : t.config = config := fits₀.config.trans same
  have loop := settledLoop t fits (by rw [configIs]) (by rw [configIs]) (by rw [fits₀.symbols])
  rw [List.map_append, loop, laysFront.labels, configIs, settledLast t fits₄]
  simp [Tables.cursorCode, configIs, fits₀.symbols, Function.comp_def]

theorem lays_zeroFill {array start stop : String}
    (ran : (zeroFill array start stop).run p = .ok () q) :
    ∃ labels nodes, Lays { p with labels := labels } q nodes (namesIn start ++ namesIn stop) ∧
      ∀ t : Tables, t.Fits q → nodes.map Node.bare =
        t.fillCode array start stop (p.labels.generate "arr_pad" ["", "_end"]).1 := by
  simp only [zeroFill, run_get_bind] at ran
  obtain ⟨_, p₁, based, ran⟩ := run_bind_ok.mp ran
  obtain ⟨first, p₂, fetched, ran⟩ := run_bind_ok.mp ran
  rw [run_ite_bind] at ran
  obtain ⟨_, p₃, moved, ran⟩ := run_bind_ok.mp ran
  obtain ⟨is, laysFirst, settledFirst⟩ := lays_fetchInto fetched moved
  have laysFront := (lays_code based).trans laysFirst
  rw [← laysFront.symbols] at ran
  obtain ⟨labels, nodes, laysBody, settledBody⟩ := lays_fillBody p.config ran laysFront.config
  have laysAll := (laysFront.relabel fun _ => labels).trans laysBody
  refine ⟨labels, _, laysAll.congr (by simp), fun t fits => ?_⟩
  have fits₃ : t.Fits p₃ := { fits.before laysBody with }
  have config : t.config = p.config := (fits₃.before laysFront).config
  have front : (t.fetch start (some t.config.indexRegister)).2 ++
      Tables.moveCode t.config.indexRegister (t.fetch start (some t.config.indexRegister)).1 = is.map Instr.op := by
    rw [config]
    exact settledFirst t fits₃
  rw [List.map_append, settledBody t fits, laysFront.labels]
  simp only [Tables.fillCode, List.cons_append, front]
  simp [config, Function.comp_def]

/-! ### Calls -/

theorem lays_pushAll {arguments : List String} (ran : (pushAll arguments).run p = .ok () q) :
    ∃ is : List Instr, Lays p q (is.map Node.instr) (arguments.flatMap namesIn) ∧
      ∀ t : Tables, t.Fits q → arguments.flatMap t.pushCode = is.map Instr.op := by
  induction arguments generalizing p with
  | nil =>
    cases ran
    exact ⟨[], .refl _, fun _ _ => rfl⟩
  | cons argument rest ih =>
    simp only [pushAll, run_get_bind] at ran
    obtain ⟨register, p₁, fetched, ran⟩ := run_bind_ok.mp ran
    obtain ⟨_, p₂, coded, ran⟩ := run_bind_ok.mp ran
    obtain ⟨is, laysFetch, settledFetch⟩ := lays_materialize fetched
    have laysPush := lays_code (run_push_ok.mp coded).2
    obtain ⟨is', laysRest, settledRest⟩ := ih ran
    refine ⟨is ++ pushCode register p.config.wordSize ++ is', ?_, fun t fits => ?_⟩
    · simpa using (laysFetch.andCode laysPush).trans laysRest
    · have fits₁ := (fits.before laysRest).before laysPush
      have config : t.config = p.config := (fits₁.before laysFetch).config
      simp [Tables.pushCode, config, settledFetch t fits₁, settledRest t fits, pushCode]

theorem grows_call {function : String} {count : Option Int} {target rawCount : Option String}
    (ran : (call function count target rawCount).run p = .ok () q) :
    ∃ nodes, p.Grows q nodes ∧
      (∀ t : Tables, t.Fits q →
        nodes.map Node.bare = t.passCode p.symbols p.params function count target rawCount) ∧
      (∃ is, popCode (count.getD p.params.length) p.config.wordSize = .ok is) ∧
      ∀ operand ∈ Tables.pushed p.params count, ∀ name ∈ namesIn operand, name ∈ q.registers.names := by
  obtain ⟨p₁, p₂, p₃, p₄, is, counted, pushed, jumped, size, coded, result⟩ := run_call_ok ran
  obtain ⟨-, remarks, laysCount, bareCount⟩ := lays_argumentCount counted
  obtain ⟨pushes, laysPush, settledPush⟩ := lays_pushAll pushed
  have growsFront : p.Grows p₂ (remarks ++ pushes.map Node.instr) := (laysCount.trans laysPush).grows
  have growsCall := ((lays_code jumped).andCode (lays_code coded)).grows
  have sized : popCode (count.getD p.params.length) p.config.wordSize = .ok is := by
    rw [← size, ← growsFront.config]
    exact congrArg _ (congrArg (·.wordSize) (lays_code jumped).config.symm)
  have boundEarly : ∀ operand ∈ Tables.pushed p.params count, ∀ name ∈ namesIn operand,
      name ∈ p₂.registers.names := by
    intro operand member name named
    exact (laysPush.bound name).mpr (.inr (List.mem_flatMap.mpr ⟨operand, member, named⟩))
  -- Whether there is a target or not, the result is taken behind the call.
  obtain ⟨nodes, growsResult, settledResult⟩ : ∃ nodes, ({ p₄ with params := [] } : Pass).Grows q nodes ∧
      ∀ t : Tables, t.Fits q → nodes.map Node.bare = t.resultCode target := by
    rcases result with ⟨given, rfl⟩ | ⟨name, given, taken⟩
    · exact ⟨[], (Lays.refl _).grows, fun t _ => by simp [Tables.resultCode, given]⟩
    · obtain ⟨_, p₅, declared, stored⟩ := run_bind_ok.mp taken
      obtain rfl := run_declare_ok declared
      obtain ⟨nodes, lays, settled⟩ := lays_storeBack stored
      have literals := lays.grows.literals
      rw [Pass.literals_declaring] at literals
      exact ⟨nodes, { lays.grows with literals := literals }, fun t fits => by
        simp [Tables.resultCode, given, settled t fits]⟩
  have growsClear : p₄.Grows q nodes := { growsResult with }
  have growsRest : p₂.Grows q _ := { growsCall.trans growsClear with }
  refine ⟨_, growsFront.trans growsRest, fun t fits => ?_, ⟨is, sized⟩, fun operand member name named =>
    growsRest.registers.names.subset (boundEarly operand member name named)⟩
  have early : ({ t with symbols := p.symbols } : Tables).Fits p₂ := by
    rw [← laysCount.symbols, ← laysPush.symbols]
    exact growsRest.fits fits
  have config : t.config = p.config := early.config.trans growsFront.config
  have sizedIs : popCode (count.getD p.params.length) t.config.wordSize = .ok is := config ▸ sized
  simp [Tables.passCode, Tables.pushed, bareCount, settledPush _ early, Tables.releaseCode, sizedIs,
    settledResult t fits, Function.comp_def]

theorem lays_ret {value : Option String} (ran : (ret value).run p = .ok () q) :
    ∃ nodes names, Lays p q nodes names ∧
      ∀ t : Tables, t.Fits q → nodes.map Node.bare = (t.returnCode value).map Op.node := by
  unfold ret at ran
  cases given : Stmt.given value with
  | none =>
    simp only [given] at ran
    exact ⟨_, _, lays_code ran, fun t _ => by simp [Tables.returnCode, given]⟩
  | some operand =>
    cases sort : Operand.ofString operand with
    | immediate constant =>
      simp only [given, sort] at ran
      obtain ⟨_, p₁, loaded, ran⟩ := run_bind_ok.mp ran
      exact ⟨_, _, (lays_code loaded).andCode (lays_code ran), fun t _ => by
        simp [Tables.returnCode, given, sort]⟩
    | float | text | name =>
      simp only [given, sort] at ran
      obtain ⟨r, p₁, fetched, ran⟩ := run_bind_ok.mp ran
      rw [run_ite_bind] at ran
      obtain ⟨_, p₂, moved, ran⟩ := run_bind_ok.mp ran
      obtain ⟨is, lays, settled⟩ := lays_fetchInto fetched moved
      have laysBack := lays_code ran
      refine ⟨_, _, lays.andCode laysBack, fun t fits => ?_⟩
      have code : t.returnCode value = is.map Instr.op ++ [.jr linkRegister] := by
        simp only [Tables.returnCode, given, sort, settled t (fits.before laysBack)]
      simp [code, Function.comp_def]

/-! ### Statements -/

theorem grows_stmt {s : Stmt} (ran : (stmt s).run p = .ok () q) :
    ∃ nodes, p.Grows q nodes ∧ ∀ t : Tables, t.Fits q → nodes.map Node.bare = t.codeFrom p s := by
  cases s with
  | declare name typeName isGlobal =>
    obtain rfl := run_declare_ok ran
    refine ⟨[], ⟨by simp [Pass.declaring], rfl, .refl _, ?_⟩, fun t _ => rfl⟩
    exact p.literals_declaring name _ ▸ List.prefix_rfl
  | declareArray name length typeName isGlobal =>
    let outcome (symbols : SymbolTable) := symbols.declareArray name (.ofGivenName typeName) length
    obtain rfl := @run_declared_ok outcome p q ran
    refine ⟨[], ⟨by simp, rfl, .refl _, ?_⟩, fun t _ => rfl⟩
    cases (outcome p.symbols).2 <;> exact List.prefix_rfl
  | label name => exact ⟨_, { (lays_label ran).grows with }, fun t _ => rfl⟩
  | comment text =>
    cases ran
    exact ⟨_, ⟨rfl, rfl, .refl _, List.prefix_rfl⟩, fun t _ => rfl⟩
  | goto target =>
    obtain ⟨nodes, lays, bare⟩ := lays_goto ran
    exact ⟨nodes, { lays.grows with }, fun t _ => bare⟩
  | branch condition target operand2 operator =>
    obtain ⟨nodes, lays, settled⟩ := lays_branch ran
    exact ⟨nodes, { lays.grows with }, settled⟩
  | assign target operand1 operator operand2 =>
    obtain ⟨symbols, nodes, _, lays, settled⟩ := lays_assign ran
    exact ⟨nodes, { lays.grows with }, settled⟩
  | arrayLoad target array index =>
    obtain ⟨nodes, lays, settled⟩ := lays_arrayLoad ran
    exact ⟨nodes, { lays.grows with }, settled⟩
  | arrayStore array index value =>
    obtain ⟨nodes, lays, settled⟩ := lays_arrayStore ran
    exact ⟨nodes, lays.grows, settled⟩
  | zeroFill array start stop =>
    obtain ⟨labels, nodes, lays, settled⟩ := lays_zeroFill ran
    exact ⟨nodes, { lays.grows with }, settled⟩
  | param operand =>
    cases ran
    exact ⟨[], ⟨by simp, rfl, .refl _, List.prefix_rfl⟩, fun t _ => rfl⟩
  | call function count target rawCount =>
    obtain ⟨nodes, grows, settled, _⟩ := grows_call ran
    exact ⟨nodes, grows, settled⟩
  | ret value =>
    obtain ⟨nodes, names, lays, settled⟩ := lays_ret ran
    exact ⟨nodes, lays.grows, settled⟩
  | print value =>
    obtain ⟨nodes, lays, settled⟩ := lays_print ran
    exact ⟨nodes, lays.grows, settled⟩
  | read target =>
    obtain ⟨nodes, lays, settled⟩ := lays_read ran
    have literals := lays.grows.literals
    rw [Pass.literals_declaring] at literals
    exact ⟨nodes, { lays.grows with literals := literals }, settled⟩
  | malformed text reason | unsupported text | foreign text =>
    exact ⟨_, (lays_diagnose ran).grows, fun t _ => rfl⟩

theorem grows_line {l : Line} (ran : (line l).run p = .ok () q) :
    ∃ nodes, p.Grows q nodes ∧ ∀ t : Tables, t.Fits q → nodes.map Node.bare = t.codeFrom p l.stmt := by
  obtain ⟨r, own, lowered, rfl, bare⟩ := run_line_ok ran
  obtain ⟨nodes, grows, settled⟩ := grows_stmt lowered
  refine ⟨own, { grows with text := rfl }, fun t fits => ?_⟩
  -- The statement starts a text of its own, at which its code does not look.
  have code : t.codeFrom { p with text := [] } l.stmt = t.codeFrom p l.stmt := by
    cases l.stmt <;> rfl
  rw [bare, grows.text, ← code]
  exact settled t { fits with }

end Lower

/-! ## Passes -/

namespace Chain

variable {p q : Pass} {steps : List TraceStep}

theorem growth (chain : Chain p steps q) : p.Grows q (steps.flatMap TraceStep.nodes) := by
  induction chain with
  | nil p => exact (Lays.refl p).grows
  | @cons s rest q ran later ih =>
    obtain ⟨nodes, grows, _⟩ := Lower.grows_line ran
    obtain rfl : s.nodes = nodes := List.append_cancel_left ((after_text ran).symm.trans grows.text)
    exact grows.trans ih

/-- The registers of a pass are those of its settings. -/
theorem settings {config : Config} {program : Program}
    (chain : Chain (Pass.ready config program) steps q) :
    q.config = config ∧ q.registers.DrawsOn q.config ∧ q.registers.scratch = q.config.scratch := by
  have same : q.config = config := chain.growth.config
  rw [same]
  exact ⟨rfl, chain.growth.registers.drawsOn (RegisterFile.drawsOn_ofRegisters config), chain.growth.registers.scratch⟩

/-- The lines of a step are the code of its statement under the final tables. -/
theorem laid (chain : Chain p steps q) :
    ∀ s ∈ steps, s.nodes.map Node.bare = (q.tablesAt s).codeFrom s.before s.stmt := by
  induction chain with
  | nil p => simp
  | @cons s rest q ran later ih =>
    intro s' member
    rcases List.mem_cons.mp member with rfl | member
    · obtain ⟨nodes, grows, settled⟩ := Lower.grows_line ran
      obtain rfl : s'.nodes = nodes := List.append_cancel_left ((after_text ran).symm.trans grows.text)
      have growth := later.growth
      exact settled _ ⟨growth.config, rfl, growth.registers, growth.literals⟩
    · exact ih s' member

end Chain

end MipsLowering
