import MipsLowering.Proofs.Allocation
import MipsLowering.Proofs.FrontEnds
import MipsLowering.Proofs.SingleLines
import MipsLowering.Proofs.StatementCode

/-! # Every node has a line of its own

No text that a program holds can end a line of the listing, so that the listing has one line for each directive and
each node, and whatever a node shows stands on its line. -/

namespace MipsLowering

open Text (OneLine)

-- The class of an operand is only used through the theorems about it.
seal Operand.ofString

/-! ## Texts made from others -/

/-- The text that an operand stands for. -/
def Operand.written : Operand → String
  | .immediate value => value
  | .float value => value
  | .text value => value
  | .name value => value

unseal Operand.ofString in
theorem Operand.oneLine_written {s : String} {operand : Operand} (plain : OneLine s)
    (sort : ofString s = operand) : OneLine operand.written := by
  subst sort
  have immediate : OneLine (Lexeme.immediate s.toList) := by
    unfold Lexeme.immediate
    split
    · decide
    · split
      · decide
      · split
        · exact Text.oneLine_nat _
        · simpa using plain
  simp only [ofString]
  split
  · exact immediate
  · split
    · exact plain
    · split <;> exact plain

theorem Text.oneLine_stripped {s : String} (plain : OneLine s) : OneLine (stripped s) :=
  oneLine_ofList.mpr fun inside => plain ((Stmt.strip_isInfix _).subset inside)

theorem LiteralKind.oneLine_stored (kind : LiteralKind) {written : String} (plain : OneLine written) :
    OneLine (kind.stored written) := by
  cases kind with
  | float => exact plain
  | string =>
    refine Text.oneLine_ofList.mpr fun inside => plain ?_
    unfold Lexeme.unquote at inside
    split at inside
    · exact List.mem_of_mem_tail ((List.dropLast_prefix _).subset inside)
    · exact inside

theorem LiteralKind.oneLine_label (kind : LiteralKind) (number : Nat) : OneLine (kind.label number) := by
  cases kind <;> simp [label]

theorem ValueType.oneLine_name (type : ValueType) : OneLine type.name := by
  cases type <;> decide

theorem oneLine_escapeText {cs : List Char} (plain : '\n' ∉ cs) : '\n' ∉ escapeText cs := by
  induction cs with
  | nil => exact List.not_mem_nil
  | cons c cs ih =>
    simp only [List.mem_cons, not_or] at plain
    rw [escapeText]
    split <;> simp [plain.1, ih plain.2]

/-- The directive of a literal shows the literal. -/
theorem Literal.oneLine_directive {l : Literal} (plain : OneLine l.value) :
    Text.AllOneLine l.directive.pieces := by
  have named : OneLine l.label := l.kind.oneLine_label _
  unfold directive
  split
  · have escaped : '\n' ∉ escapeText l.value.toList := oneLine_escapeText plain
    simp [Directive.pieces, Storage.name, Storage.operands, named, escaped]
  · simp [Directive.pieces, Storage.name, Storage.operands, named, plain]

theorem Symbol.oneLine_directive {s : Symbol} (plain : OneLine s.name) : Text.AllOneLine s.directive.pieces := by
  have typed := s.type.oneLine_name
  unfold directive
  split
  · cases s.type <;> simp [Directive.pieces, Storage.name, Storage.operands, scalarStorage, plain]
  · simp [Directive.pieces, Storage.name, Storage.operands, plain, typed]

theorem oneLine_paddingDirective : Text.AllOneLine paddingDirective.pieces := by
  simp [paddingDirective, Directive.pieces, Storage.name, Storage.operands]

@[simp] theorem AluOp.oneLine_mnemonic (op : AluOp) : OneLine op.mnemonic := by
  cases op <;> decide

@[simp] theorem ImmOp.oneLine_mnemonic (op : ImmOp) : OneLine op.mnemonic := by
  cases op <;> decide

@[simp] theorem Width.oneLine_loadMnemonic (width : Width) : OneLine width.loadMnemonic := by
  cases width <;> decide

@[simp] theorem Width.oneLine_storeMnemonic (width : Width) : OneLine width.storeMnemonic := by
  cases width <;> decide

@[simp] theorem oneLine_zeroRegister : OneLine zeroRegister := by decide

@[simp] theorem oneLine_resultRegister : OneLine resultRegister := by decide

@[simp] theorem oneLine_argumentRegister : OneLine argumentRegister := by decide

@[simp] theorem oneLine_floatArgumentRegister : OneLine floatArgumentRegister := by decide

@[simp] theorem oneLine_stackPointer : OneLine stackPointer := by decide

@[simp] theorem oneLine_linkRegister : OneLine linkRegister := by decide

@[simp] theorem oneLine_resultNote {dest left op right : String} :
    OneLine (resultNote dest left op right) ↔
      (((OneLine dest ∧ OneLine left) ∧ OneLine op) ∧ OneLine right) := by
  have blank : OneLine " " ∧ OneLine " = " := by decide
  simp only [resultNote, Text.oneLine_append, blank, and_true]

@[simp] theorem oneLine_truthNote {dest left op right : String} :
    OneLine (truthNote dest left op right) ↔
      (((OneLine dest ∧ OneLine left) ∧ OneLine op) ∧ OneLine right) := by
  have blank : OneLine " " ∧ OneLine " = (" ∧ OneLine ")" := by decide
  simp only [truthNote, Text.oneLine_append, blank, and_true]

@[simp] theorem oneLine_aluCode {op : AluOp} {dest left right : Register} {comment : String} :
    Text.AllOneLine (aluCode op dest left right comment).pieces ↔
      OneLine dest ∧ OneLine left ∧ OneLine right ∧ OneLine comment := by
  simp [aluCode, Instr.pieces, Op.mnemonic, Op.operands]

@[simp] theorem oneLine_flipCode {op : ImmOp} {dest : Register} {comment : String} :
    Text.AllOneLine (flipCode op dest comment).pieces ↔ OneLine dest ∧ OneLine comment := by
  simp [flipCode, Instr.pieces, Op.mnemonic, Op.operands]

section

variable {dest left right : Register} (target : OneLine dest) (first : OneLine left) (second : OneLine right)
include target first

/-- The code of an operator shows its registers and nothing else of the program. -/
theorem UnaryOp.oneLine_code (o : UnaryOp) : ∀ i ∈ o.code dest left, Text.AllOneLine i.pieces := by
  cases o with
  | neg => simp [code, target, first]
  | not => simp [code, Instr.pieces, Op.mnemonic, Op.operands, target, first]

include second

theorem BinaryOp.oneLine_code (o : BinaryOp) : ∀ i ∈ o.code dest left right, Text.AllOneLine i.pieces := by
  cases o with
  | div => simp [code, Instr.pieces, Op.mnemonic, Op.operands, target, first, second]
  | add | sub | mul | and | or | eq | ne | lt | le | gt | ge => simp [code, target, first, second]

end

/-- The texts that a diagnostic quotes. -/
def Diagnostic.pieces : Diagnostic → List String
  | .binaryOperator target left operator right => [target, left, operator, right]
  | .unaryOperator target operator operand => [target, operator, operand]
  | .conditionOperator operator line => [operator, line]
  | .malformed text reason => [text, reason]
  | .unsupported text => [text]
  | .argumentCount written line _ => [written, line]
  | .wholeArray name register => [name, register]
  | .remark text => [text]

theorem Diagnostic.oneLine_message {d : Diagnostic} (each : Text.AllOneLine d.pieces) : OneLine d.message := by
  cases d with
  | remark text => exact (Text.allOneLine_cons.mp each).1
  | binaryOperator | unaryOperator | conditionOperator | malformed | unsupported | argumentCount | wholeArray =>
    simp only [pieces, Text.allOneLine_cons] at each
    -- The message is a text with a given end, so it need not be unfolded.
    show OneLine (_ ++ _)
    simp [each]

/-! ## States -/

/-- No text that a state holds ends a line, and the diagnostics stand in the text section as remarks, apart from those
    that were `told` before. -/
structure Pass.OneLine (told : List Diagnostic) (p : Pass) : Prop where
  entry : Text.OneLine p.config.entryLabel
  scratch : Text.AllOneLine p.config.scratch
  address : Text.AllOneLine p.config.address
  pool : Text.AllOneLine p.registers.pool
  bound : ∀ b ∈ p.registers.bindings, Text.OneLine b.2
  takers : Text.AllOneLine p.registers.scratch
  cells : ∀ d ∈ p.data.cells, Text.AllOneLine d.pieces
  literals : ∀ l ∈ p.data.literals, Text.OneLine l.value
  params : Text.AllOneLine p.params
  text : ∀ n ∈ p.text, Text.AllOneLine n.pieces
  diagnosed : ∀ d ∈ p.diagnostics, d ∈ told ∨ .comment d.message ∈ p.text

/-- What is laid out behind a text leaves the diagnostics where they are. -/
theorem Pass.OneLine.lay {told : List Diagnostic} {p : Pass} (before : p.OneLine told) {nodes : List Node}
    (plain : ∀ n ∈ nodes, Text.AllOneLine n.pieces) :
    { p with text := p.text ++ nodes : Pass }.OneLine told := by
  refine { before with text := fun n member => ?_, diagnosed := fun d member => ?_ }
  · rcases List.mem_append.mp member with member | member
    · exact before.text n member
    · exact plain n member
  · exact (before.diagnosed d member).imp_right (List.mem_append_left _)

theorem oneLine_getD {rs : List Register} (each : Text.AllOneLine rs) (i : Nat) : OneLine (rs.getD i "") := by
  rw [List.getD_eq_getElem?_getD]
  cases found : rs[i]? with
  | none => decide
  | some r => exact each r (List.mem_of_getElem? found)

theorem RegisterFile.oneLine_nextRegister {f : RegisterFile} (each : Text.AllOneLine f.pool) :
    OneLine f.nextRegister := by
  unfold nextRegister
  split
  · rw [List.getLastD_eq_getLast?, List.getLast?_eq_getElem?, ← List.getD_eq_getElem?_getD]
    exact oneLine_getD each _
  · exact oneLine_getD each _

section

variable {told : List Diagnostic} {p : Pass} (before : p.OneLine told)
include before

theorem Pass.OneLine.scratch0 : Text.OneLine p.config.scratch0 :=
  oneLine_getD before.scratch 0

theorem Pass.OneLine.scratch1 : Text.OneLine p.config.scratch1 :=
  oneLine_getD before.scratch 1

theorem Pass.OneLine.addressRegister : Text.OneLine p.config.addressRegister :=
  oneLine_getD before.address 0

theorem Pass.OneLine.indexRegister : Text.OneLine p.config.indexRegister :=
  oneLine_getD before.address 1

end

namespace Emit

variable {α β : Type} {told : List Diagnostic}

/-- An action that adds no text with a line feed, and returns values with a property. -/
def KeepsLines (told : List Diagnostic) (x : Emit α) (post : α → Prop) : Prop :=
  ∀ ⦃p a q⦄, p.OneLine told → x.run p = .ok a q → q.OneLine told ∧ post a

theorem keepsLines_pure {a : α} {post : α → Prop} (holds : post a) : KeepsLines told (pure a) post := by
  rintro p _ _ plain ⟨⟩
  exact ⟨plain, holds⟩

theorem keepsLines_throw (fault : Fault) (post : α → Prop) : KeepsLines told (throw fault : Emit α) post := by
  rintro p _ _ _ ⟨⟩

theorem keepsLines_get : KeepsLines told get (Pass.OneLine told) := by
  rintro p _ _ plain ⟨⟩
  exact ⟨plain, plain⟩

theorem KeepsLines.bind {x : Emit α} {f : α → Emit β} {middle : α → Prop} {post : β → Prop}
    (first : KeepsLines told x middle) (second : ∀ a, middle a → KeepsLines told (f a) post) :
    KeepsLines told (x >>= f) post := by
  intro p b r plain ran
  obtain ⟨a, q, ranFirst, ranSecond⟩ := run_bind_ok.mp ran
  obtain ⟨plainMiddle, holds⟩ := first plain ranFirst
  exact second a holds plainMiddle ranSecond

theorem keepsLines_modify {f : Pass → Pass} (keeps : ∀ p, p.OneLine told → (f p).OneLine told) :
    KeepsLines told (modify f) fun _ => True := by
  rintro p _ _ plain ⟨⟩
  exact ⟨keeps p plain, trivial⟩

theorem KeepsLines.ite {condition : Prop} [Decidable condition] {x y : Emit α} {post : α → Prop}
    (yes : KeepsLines told x post) (no : KeepsLines told y post) :
    KeepsLines told (if condition then x else y) post := by
  split
  · exact yes
  · exact no

/-! ## Text, labels and symbols -/

theorem keepsLines_node {n : Node} (plain : Text.AllOneLine n.pieces) : KeepsLines told (node n) fun _ => True :=
  keepsLines_modify fun _ before => before.lay (by simpa using plain)

theorem keepsLines_code {is : List Instr} (plain : ∀ i ∈ is, Text.AllOneLine i.pieces) :
    KeepsLines told (code is) fun _ => True := by
  refine keepsLines_modify fun _ before => before.lay fun n member => ?_
  obtain ⟨i, inCode, rfl⟩ := List.mem_map.mp member
  exact plain i inCode

theorem keepsLines_op {o : Op} (plain : Text.AllOneLine (o.mnemonic :: o.operands)) :
    KeepsLines told (op o) fun _ => True :=
  keepsLines_code (by simpa [Instr.pieces] using plain)

theorem keepsLines_opNote {o : Op} {comment : String} (plain : Text.AllOneLine (o.mnemonic :: o.operands))
    (noted : OneLine comment) : KeepsLines told (opNote o comment) fun _ => True := by
  refine keepsLines_code ?_
  simp only [Text.allOneLine_cons] at plain
  simp [Instr.pieces, plain, noted]

theorem keepsLines_warn (w : Warning) : KeepsLines told (warn w) fun _ => True :=
  keepsLines_modify fun _ before => { before with }

theorem keepsLines_diagnose {d : Diagnostic} (plain : Text.AllOneLine d.pieces) :
    KeepsLines told (diagnose d) fun _ => True := by
  rintro p _ _ before ⟨⟩
  have message : ∀ n ∈ [Node.comment d.message], Text.AllOneLine n.pieces := by
    simpa [Node.pieces] using Diagnostic.oneLine_message plain
  have laid := before.lay message
  refine ⟨{ laid with diagnosed := fun other member => ?_ }, trivial⟩
  rcases List.mem_append.mp member with member | member
  · exact laid.diagnosed other member
  · obtain rfl := List.mem_singleton.mp member
    exact .inr (List.mem_append_right _ List.mem_cons_self)

theorem keepsLines_label {name : String} (plain : OneLine name) : KeepsLines told (label name) fun _ => True := by
  have place : KeepsLines told (do
      modify fun p : Pass => { p with labels := p.labels.define name }
      node (.label name)) fun _ => True :=
    KeepsLines.bind (keepsLines_modify fun _ before => { before with }) fun _ _ =>
      keepsLines_node (by simpa [Node.pieces] using plain)
  exact keepsLines_get.bind fun _ _ => .ite ((keepsLines_warn _).bind fun _ _ => place) place

theorem keepsLines_reference (name : String) : KeepsLines told (reference name) fun _ => True :=
  keepsLines_modify fun _ before => { before with }

theorem keepsLines_freshLabel {stem : String} (plain : OneLine stem) (suffixes : List String) :
    KeepsLines told (freshLabel stem suffixes) OneLine := by
  rintro p _ _ before ⟨⟩
  refine ⟨{ before with }, ?_⟩
  simp [LabelTable.numbered, plain]

theorem keepsLines_ofNumeral (reading : Except Text.NumeralFault α) :
    KeepsLines told (ofNumeral reading) fun a => reading = .ok a := by
  cases reading with
  | error fault => exact keepsLines_throw _ _
  | ok a => exact keepsLines_pure rfl

theorem keepsLines_giveCell {name : String} {make : Option Symbol → Symbol} (plain : OneLine name)
    (named : ∀ symbols : SymbolTable, (make (symbols.lookup? name)).name = name) :
    KeepsLines told (declared (·.giveCell name make)) fun _ => True := by
  intro p _ q before ran
  obtain rfl := run_declared_ok ran
  cases cell : (p.symbols.giveCell name make).2 with
  | none => exact ⟨{ before with }, trivial⟩
  | some s =>
    have same : OneLine s.name := by
      rw [SymbolTable.giveCell_snd] at cell
      split at cell
      · cases cell
      · cases cell
        rw [named]
        exact plain
    refine ⟨{ before with cells := fun d member => ?_ }, trivial⟩
    simp only [Option.map_some, Option.getD_some, DataSection.append, DataSection.align, List.mem_append,
      List.mem_ite_nil_right, List.mem_singleton] at member
    rcases member with (member | ⟨-, rfl⟩) | rfl
    · exact before.cells d member
    · exact oneLine_paddingDirective
    · exact Symbol.oneLine_directive same

theorem keepsLines_declare {name : String} (plain : OneLine name) (type : ValueType) :
    KeepsLines told (declare name type) fun _ => True :=
  keepsLines_giveCell plain fun _ => SymbolTable.name_declaredEntry name type

theorem keepsLines_declareArray {name : String} (plain : OneLine name) (type : ValueType) (length : Int) :
    KeepsLines told (declareArray name type length) fun _ => True :=
  keepsLines_giveCell plain fun _ => rfl

theorem keepsLines_note (name : String) (type : ValueType) : KeepsLines told (note name type) fun _ => True :=
  keepsLines_modify fun _ before => { before with }

theorem keepsLines_intern (kind : LiteralKind) {written : String} (plain : OneLine written) :
    KeepsLines told (intern kind written) OneLine := by
  rintro p _ _ before ⟨⟩
  cases p.data.find? kind (kind.stored written) with
  | some l => exact ⟨{ before with }, l.kind.oneLine_label _⟩
  | none =>
    refine ⟨{ before with literals := fun l member => ?_ }, kind.oneLine_label _⟩
    rcases List.mem_append.mp member with member | member
    · exact before.literals l member
    · obtain rfl := List.mem_singleton.mp member
      exact kind.oneLine_stored plain

/-! ## Operands -/

theorem keepsLines_registerFor (name : String) : KeepsLines told (registerFor name) OneLine := by
  intro p r q before ran
  by_cases named : name = ""
  · subst named
    cases ran
  · obtain ⟨known, new⟩ := run_registerFor named p
    cases bound : p.registers.lookup? name with
    | some register =>
      rw [known register bound] at ran
      cases ran
      obtain ⟨earlier, later, parts, -⟩ := List.lookup_eq_some_iff.mp bound
      exact ⟨before, before.bound (name, r) (parts ▸ List.mem_append_right _ List.mem_cons_self)⟩
    | none =>
      rw [new bound] at ran
      cases ran
      have next := RegisterFile.oneLine_nextRegister before.pool
      refine ⟨{ before with
        pool := p.registers.pool_bind name ▸ before.pool
        takers := p.registers.scratch_bind name ▸ before.takers
        bound := fun b member => ?_ }, next⟩
      rw [Pass.binding, RegisterFile.bindings_bind] at member
      rcases List.mem_append.mp member with member | member
      · exact before.bound b member
      · obtain rfl := List.mem_singleton.mp member
        exact next

theorem oneLine_literalRegister {p : Pass} (before : p.OneLine told) {wanted : Option Register}
    (plain : ∀ r ∈ wanted, OneLine r) : OneLine (p.registers.literalRegister wanted) := by
  unfold RegisterFile.literalRegister
  split
  next r =>
    split
    · exact oneLine_getD before.takers 0
    · exact plain r rfl
  next => exact oneLine_getD before.takers 0

theorem oneLine_loadCode (symbol : Option Symbol) {name : String} {register : Register} (plain : OneLine name)
    (target : OneLine register) : ∀ i ∈ loadCode symbol name register, Text.AllOneLine i.pieces := by
  unfold loadCode
  split
  · simp
  next s =>
    split
    · simp
    · split
      · simp [Instr.pieces, Op.mnemonic, Op.operands, plain, target]
      · simp [Instr.pieces, Op.mnemonic, Op.operands, Address.text, plain, target]

theorem keepsLines_fetch {operand : String} {wanted : Option Register} (plain : OneLine operand)
    (target : ∀ r ∈ wanted, OneLine r) :
    KeepsLines told (fetch operand wanted) fun fetched =>
      OneLine fetched.1 ∧ ∀ i ∈ fetched.2, Text.AllOneLine i.pieces := by
  have shown := Text.oneLine_stripped plain
  refine keepsLines_get.bind fun p before => ?_
  have taker := oneLine_literalRegister before target
  dsimp only
  split
  next value sort =>
    -- Which operand it is has to come from `sort`: it cannot be told from the text of the value.
    have held : OneLine value := (Operand.oneLine_written shown sort :)
    exact keepsLines_pure ⟨taker, by simp [Instr.pieces, Op.mnemonic, Op.operands, taker, held]⟩
  next value sort =>
    have held : OneLine value := (Operand.oneLine_written shown sort :)
    refine (keepsLines_intern _ held).bind fun label named => keepsLines_pure ⟨taker, ?_⟩
    simp [Instr.pieces, Op.mnemonic, Op.operands, Address.text, taker, named, held]
  next value sort =>
    have held : OneLine value := (Operand.oneLine_written shown sort :)
    refine (keepsLines_intern _ held).bind fun label named => keepsLines_pure ⟨taker, ?_⟩
    simp [Instr.pieces, Op.mnemonic, Op.operands, taker, named]
  next name sort =>
    have named : OneLine name := (Operand.oneLine_written shown sort :)
    refine (keepsLines_registerFor _).bind fun register bound => keepsLines_get.bind fun _ _ => ?_
    exact keepsLines_pure ⟨bound, oneLine_loadCode _ named bound⟩

theorem keepsLines_materialize {operand : String} {wanted : Option Register} (plain : OneLine operand)
    (target : ∀ r ∈ wanted, OneLine r) : KeepsLines told (materialize operand wanted) OneLine :=
  (keepsLines_fetch plain target).bind fun _ fetched =>
    (keepsLines_code fetched.2).bind fun _ _ => keepsLines_pure fetched.1

theorem keepsLines_storeBack {name : String} {register : Register} (plain : OneLine name) (source : OneLine register) :
    KeepsLines told (storeBack name register) fun _ => True := by
  refine keepsLines_get.bind fun p _ => ?_
  split
  · exact keepsLines_pure trivial
  next s _ =>
    refine .ite (keepsLines_pure trivial) (.ite (keepsLines_diagnose ?_) (keepsLines_opNote ?_ ?_))
    · simp [Diagnostic.pieces, plain, source]
    · simp [Op.mnemonic, Op.operands, Address.text, plain, source]
    · simp [plain]

end Emit

namespace Lower

open Emit

variable {told : List Diagnostic}

/-! ## Arrays -/

theorem keepsLines_elementAddress {array index : String} (named : OneLine array) (plain : OneLine index) :
    KeepsLines told (elementAddress array index) OneLine := by
  refine keepsLines_get.bind fun p before => keepsLines_get.bind fun q _ => ?_
  have cursor : OneLine p.config.addressRegister := before.addressRegister
  have place : OneLine p.config.indexRegister := before.indexRegister
  have scratch : OneLine p.config.scratch0 := before.scratch0
  refine (keepsLines_opNote (by simp [Op.mnemonic, Op.operands, cursor, named]) (by simp [named])).bind fun _ _ => ?_
  refine (keepsLines_materialize plain (by simp [place])).bind fun register held => ?_
  refine (keepsLines_op (by simp [Op.mnemonic, Op.operands, scratch])).bind fun _ _ => ?_
  refine (keepsLines_opNote (by simp [Op.mnemonic, Op.operands, place, held, scratch]) (by simp [plain])).bind
    fun _ _ => ?_
  refine (keepsLines_op (by simp [Op.mnemonic, Op.operands, cursor, place])).bind fun _ _ => ?_
  exact keepsLines_pure cursor

theorem keepsLines_arrayStore {array index value : String} (named : OneLine array) (indexed : OneLine index)
    (plain : OneLine value) : KeepsLines told (arrayStore array index value) fun _ => True := by
  refine (keepsLines_elementAddress named indexed).bind fun address found => keepsLines_get.bind fun p before => ?_
  refine (keepsLines_materialize plain (by simp [before.scratch0])).bind fun register held => ?_
  refine keepsLines_get.bind fun _ _ => keepsLines_opNote ?_ (by simp [named, indexed, plain])
  simp [Op.mnemonic, Op.operands, Address.text, found, held]

theorem keepsLines_arrayLoad {target array index : String} (plain : OneLine target) (named : OneLine array)
    (indexed : OneLine index) : KeepsLines told (arrayLoad target array index) fun _ => True := by
  refine keepsLines_get.bind fun _ _ => (keepsLines_note _ _).bind fun _ _ => ?_
  refine (keepsLines_registerFor target).bind fun dest bound => ?_
  refine (keepsLines_elementAddress named indexed).bind fun address found => ?_
  refine (keepsLines_opNote ?_ (by simp [plain, named, indexed])).bind fun _ _ => keepsLines_storeBack plain bound
  simp [Op.mnemonic, Op.operands, Address.text, found, bound]

theorem keepsLines_zeroFill {array start stop : String} (named : OneLine array) (begins : OneLine start)
    (ends : OneLine stop) : KeepsLines told (zeroFill array start stop) fun _ => True := by
  refine keepsLines_get.bind fun p before => keepsLines_get.bind fun q _ => ?_
  have cursor : OneLine p.config.addressRegister := before.addressRegister
  have index : OneLine p.config.indexRegister := before.indexRegister
  have scratch : OneLine p.config.scratch0 := before.scratch0
  have second : OneLine p.config.scratch1 := before.scratch1
  refine (keepsLines_opNote (by simp [Op.mnemonic, Op.operands, cursor, named]) (by simp [named])).bind fun _ _ => ?_
  refine (keepsLines_materialize begins (by simp [index])).bind fun first held => ?_
  -- The index is moved to its register unless it is there already; both ways go on alike.
  refine .ite ((keepsLines_op (by simp [Op.mnemonic, Op.operands, index, held])).bind fun _ _ => ?_) ?_
  all_goals
    refine (keepsLines_op (by simp [Op.mnemonic, Op.operands, scratch])).bind fun _ _ => ?_
    refine (keepsLines_op (by simp [Op.mnemonic, Op.operands, scratch, index])).bind fun _ _ => ?_
    refine (keepsLines_opNote (by simp [Op.mnemonic, Op.operands, cursor, scratch])
      (by simp [named, begins])).bind fun _ _ => ?_
    refine (keepsLines_materialize ends (by simp [second])).bind fun last held' => ?_
    refine (keepsLines_freshLabel (by decide) _).bind fun loop fresh => ?_
    refine (keepsLines_reference _).bind fun _ _ => (keepsLines_reference _).bind fun _ _ => ?_
    refine (keepsLines_label fresh).bind fun _ _ => ?_
    refine (keepsLines_op (by simp [Op.mnemonic, Op.operands, index, held', fresh])).bind fun _ _ => ?_
    refine keepsLines_get.bind fun _ _ => ?_
    refine (keepsLines_op (by simp [Op.mnemonic, Op.operands, Address.text, cursor])).bind fun _ _ => ?_
    refine (keepsLines_op (by simp [Op.mnemonic, Op.operands, cursor])).bind fun _ _ => ?_
    refine (keepsLines_op (by simp [Op.mnemonic, Op.operands, index])).bind fun _ _ => ?_
    refine (keepsLines_op (by simp [Op.mnemonic, Op.operands, fresh])).bind fun _ _ => ?_
    exact keepsLines_label (by simp [fresh])

/-! ## Assignments -/

theorem keepsLines_operand {given : Option String} (plain : ∀ text ∈ given, OneLine text) :
    KeepsLines told (operand given) OneLine := by
  cases given with
  | none => exact keepsLines_throw _ _
  | some text => exact keepsLines_pure (plain text rfl)

theorem oneLine_operandText {operand : Option String} (plain : ∀ text ∈ operand, OneLine text) :
    OneLine (Stmt.operandText operand) := by
  cases operand with
  | none => decide
  | some text => exact plain text rfl

theorem keepsLines_binary {target symbol right : String} {left : Option String} (plain : OneLine target)
    (first : ∀ text ∈ left, OneLine text) (operator : OneLine symbol) (second : OneLine right) :
    KeepsLines told (binary target left symbol right) fun _ => True := by
  unfold binary
  split
  · exact keepsLines_diagnose (by simp [Diagnostic.pieces, plain, oneLine_operandText first, operator, second])
  next o _ =>
    refine (keepsLines_note _ _).bind fun _ _ => (keepsLines_registerFor target).bind fun dest bound => ?_
    refine (keepsLines_operand first).bind fun text written => keepsLines_get.bind fun p before => ?_
    refine (keepsLines_materialize written (by simp [before.scratch0])).bind fun r₁ held => ?_
    refine keepsLines_get.bind fun q after => ?_
    refine (keepsLines_materialize second (by simp [after.scratch1])).bind fun r₂ held' => ?_
    exact (keepsLines_code (o.oneLine_code bound held held')).bind fun _ _ => keepsLines_storeBack plain bound

theorem keepsLines_unary {target symbol : String} {source : Option String} (plain : OneLine target)
    (operator : OneLine symbol) (operand : ∀ text ∈ source, OneLine text) :
    KeepsLines told (unary target symbol source) fun _ => True := by
  unfold unary
  split
  · exact keepsLines_diagnose (by simp [Diagnostic.pieces, plain, oneLine_operandText operand, operator])
  next o _ =>
    refine (keepsLines_note _ _).bind fun _ _ => (keepsLines_registerFor target).bind fun dest bound => ?_
    refine (keepsLines_operand operand).bind fun text written => ?_
    refine (keepsLines_materialize written (by simp)).bind fun register held => ?_
    exact (keepsLines_code (o.oneLine_code bound held)).bind fun _ _ => keepsLines_storeBack plain bound

theorem keepsLines_loadInto {dest : Register} {source : String} (target : OneLine dest) (plain : OneLine source) :
    KeepsLines told (loadInto dest source) fun _ => True := by
  unfold loadInto
  split
  next value sort =>
    have held : OneLine value := (Operand.oneLine_written plain sort :)
    exact keepsLines_op (by simp [Op.mnemonic, Op.operands, target, held])
  next value sort =>
    have held : OneLine value := (Operand.oneLine_written plain sort :)
    refine (keepsLines_intern _ held).bind fun name named => keepsLines_opNote ?_ (by simp [held])
    simp [Op.mnemonic, Op.operands, Address.text, target, named]
  next value sort =>
    have held : OneLine value := (Operand.oneLine_written plain sort :)
    refine (keepsLines_intern _ held).bind fun name named => keepsLines_op ?_
    simp [Op.mnemonic, Op.operands, target, named]
  next name sort =>
    have shown : OneLine name := (Operand.oneLine_written plain sort :)
    refine (keepsLines_materialize shown (by simp)).bind fun register held => ?_
    exact .ite (keepsLines_op (by simp [Op.mnemonic, Op.operands, target, held])) (keepsLines_pure trivial)

theorem keepsLines_copy {target : String} {source : Option String} (plain : OneLine target)
    (operand : ∀ text ∈ source, OneLine text) : KeepsLines told (copy target source) fun _ => True := by
  refine keepsLines_get.bind fun _ _ => (keepsLines_note _ _).bind fun _ _ => ?_
  refine (keepsLines_registerFor target).bind fun dest bound => (keepsLines_operand operand).bind fun text written => ?_
  exact (keepsLines_loadInto bound written).bind fun _ _ => keepsLines_storeBack plain bound

theorem keepsLines_assign {target : String} {operand1 operator operand2 : Option String} (plain : OneLine target)
    (first : ∀ text ∈ operand1, OneLine text) (symbol : ∀ text ∈ operator, OneLine text)
    (second : ∀ text ∈ operand2, OneLine text) :
    KeepsLines told (assign target operand1 operator operand2) fun _ => True := by
  unfold assign
  split
  · exact keepsLines_binary plain first (symbol _ rfl) (second _ rfl)
  · exact keepsLines_unary plain (symbol _ rfl) first
  · exact keepsLines_copy plain first

/-! ## Jumps and calls -/

theorem keepsLines_branchOn {register : Register} {target : String} (held : OneLine register) (plain : OneLine target) :
    KeepsLines told (branchOn register target) fun _ => True :=
  keepsLines_opNote (by simp [Op.mnemonic, Op.operands, held, plain]) (by simp [plain])

theorem keepsLines_relation {left symbol right line : String} (first : OneLine left) (operator : OneLine symbol)
    (second : OneLine right) (spelled : OneLine line) :
    KeepsLines told (relation left symbol right line) fun found => ∀ r ∈ found, OneLine r := by
  unfold relation
  split
  · exact (keepsLines_diagnose (by simp [Diagnostic.pieces, operator, spelled])).bind fun _ _ =>
      keepsLines_pure (by simp)
  next o _ =>
    refine keepsLines_get.bind fun p before => ?_
    refine (keepsLines_materialize first (by simp [before.scratch0])).bind fun r₁ held => ?_
    refine (keepsLines_materialize second (by simp [before.scratch1])).bind fun r₂ held' => ?_
    exact (keepsLines_code (o.oneLine_code before.scratch0 held held')).bind fun _ _ =>
      keepsLines_pure (by simp [before.scratch0])

theorem oneLine_given {operand : Option String} {text : String} (plain : ∀ t ∈ operand, OneLine t)
    (given : Stmt.given operand = some text) : OneLine text :=
  plain text (Stmt.eq_of_given given)

theorem oneLine_branchText {condition target : String} {operand2 operator : Option String} (plain : OneLine condition)
    (place : OneLine target) (second : ∀ text ∈ operand2, OneLine text) (symbol : ∀ text ∈ operator, OneLine text) :
    OneLine (Stmt.branch condition target operand2 operator).text := by
  have spelled : OneLine (Stmt.conditionText condition operand2 operator) := by
    unfold Stmt.conditionText
    split
    next op right given given' =>
      simp [plain, oneLine_given symbol given, oneLine_given second given']
    next => exact plain
  show OneLine (_ ++ _)
  simp [spelled, place]

theorem keepsLines_branch {condition target : String} {operand2 operator : Option String} (plain : OneLine condition)
    (place : OneLine target) (second : ∀ text ∈ operand2, OneLine text) (symbol : ∀ text ∈ operator, OneLine text) :
    KeepsLines told (branch condition target operand2 operator) fun _ => True := by
  have spelled := oneLine_branchText plain place second symbol
  refine (keepsLines_reference _).bind fun _ _ => ?_
  split
  next op right given given' =>
    refine (keepsLines_relation plain (oneLine_given symbol given) (oneLine_given second given') spelled).bind
      fun found held => ?_
    split
    · exact keepsLines_branchOn (held _ rfl) place
    · exact keepsLines_pure trivial
  next =>
    refine keepsLines_get.bind fun p before => ?_
    exact (keepsLines_materialize plain (by simp [before.scratch0])).bind fun register held =>
      keepsLines_branchOn held place

theorem keepsLines_push {register : Register} (held : OneLine register) (wordSize : Int) :
    KeepsLines told (push register wordSize) fun _ => True := by
  refine .ite (keepsLines_code ?_) (keepsLines_throw _ _)
  simp [pushCode, Instr.pieces, Op.mnemonic, Op.operands, Address.text, held]

theorem keepsLines_pushAll {arguments : List String} (plain : Text.AllOneLine arguments) :
    KeepsLines told (pushAll arguments) fun _ => True := by
  induction arguments with
  | nil => exact keepsLines_pure trivial
  | cons argument rest ih =>
    obtain ⟨first, others⟩ := Text.allOneLine_cons.mp plain
    refine keepsLines_get.bind fun p before => ?_
    refine (keepsLines_materialize first (by simp [before.scratch0])).bind fun register held => ?_
    exact (keepsLines_push held _).bind fun _ _ => ih others

theorem oneLine_popCode {count wordSize : Int} {is : List Instr} (popped : popCode count wordSize = .ok is) :
    ∀ i ∈ is, Text.AllOneLine i.pieces := by
  rcases popCode_cases popped with ⟨-, rfl⟩ | ⟨-, rfl⟩
  · simp
  · have ending : OneLine (if count = 1 then " argument" else " arguments") := by split <;> decide
    simp [Instr.pieces, Op.mnemonic, Op.operands, ending]

theorem oneLine_callText {function : String} {target rawCount : Option String} (count : Option Int)
    (plain : OneLine function) (result : ∀ text ∈ target, OneLine text) (raw : ∀ text ∈ rawCount, OneLine text) :
    OneLine (Stmt.call function count target rawCount).text := by
  have spelled : OneLine (Stmt.callText function count rawCount) := by
    unfold Stmt.callText
    split
    · simp [plain]
    next written => simp [plain, raw written rfl]
    · simp [plain]
  unfold Stmt.text
  dsimp only
  split
  next name given => simp [oneLine_given result given, spelled]
  next => exact spelled

theorem keepsLines_argumentCount {function : String} {count : Option Int} {target rawCount : Option String}
    (plain : OneLine function) (result : ∀ text ∈ target, OneLine text) (raw : ∀ text ∈ rawCount, OneLine text) :
    KeepsLines told (argumentCount function count target rawCount) fun _ => True := by
  have spelled := oneLine_callText count plain result raw
  refine keepsLines_get.bind fun _ _ => ?_
  split
  · exact .ite ((keepsLines_warn _).bind fun _ _ => keepsLines_pure trivial) (keepsLines_pure trivial)
  next written =>
    exact (keepsLines_diagnose (by simp [Diagnostic.pieces, raw written rfl, spelled])).bind fun _ _ =>
      keepsLines_pure trivial
  · exact keepsLines_pure trivial

theorem keepsLines_call {function : String} {count : Option Int} {target rawCount : Option String}
    (plain : OneLine function) (result : ∀ text ∈ target, OneLine text) (raw : ∀ text ∈ rawCount, OneLine text) :
    KeepsLines told (call function count target rawCount) fun _ => True := by
  refine (keepsLines_argumentCount plain result raw).bind fun n _ => keepsLines_get.bind fun p before => ?_
  have pushed : Text.AllOneLine (p.params.drop (p.params.length - n.toNat)) :=
    fun text member => before.params text (List.mem_of_mem_drop member)
  refine (keepsLines_pushAll pushed).bind fun _ _ => (keepsLines_reference _).bind fun _ _ => ?_
  refine (keepsLines_opNote (by simp [Op.mnemonic, Op.operands, plain]) (by simp [plain])).bind fun _ _ => ?_
  refine keepsLines_get.bind fun _ _ => (keepsLines_ofNumeral _).bind fun is popped => ?_
  refine (keepsLines_code (oneLine_popCode popped)).bind fun _ _ => ?_
  refine KeepsLines.bind (keepsLines_modify fun _ before => { before with params := Text.allOneLine_nil })
    fun _ _ => ?_
  split
  · exact keepsLines_pure trivial
  next name given =>
    have named := oneLine_given result given
    exact (keepsLines_declare named _).bind fun _ _ => keepsLines_storeBack named oneLine_resultRegister

theorem keepsLines_param {operand : String} (plain : OneLine operand) :
    KeepsLines told (param operand) fun _ => True :=
  keepsLines_modify fun _ before => { before with params := by simpa [plain] using before.params }

theorem keepsLines_ret {value : Option String} (plain : ∀ text ∈ value, OneLine text) :
    KeepsLines told (ret value) fun _ => True := by
  have back : KeepsLines told (op (.jr linkRegister)) fun _ => True :=
    keepsLines_op (by simp [Op.mnemonic, Op.operands])
  unfold ret
  split
  · exact back
  next operand given =>
    have shown := oneLine_given plain given
    dsimp only
    split
    next constant sort =>
      have held : OneLine constant := (Operand.oneLine_written shown sort :)
      exact (keepsLines_op (by simp [Op.mnemonic, Op.operands, held])).bind fun _ _ => back
    next =>
      refine (keepsLines_materialize shown (by simp)).bind fun register held => ?_
      exact .ite ((keepsLines_op (by simp [Op.mnemonic, Op.operands, held])).bind fun _ _ => back) back

/-! ## Console -/

theorem keepsLines_selectService (service : Service) : KeepsLines told (selectService service) fun _ => True :=
  keepsLines_op (by simp [Op.mnemonic, Op.operands])

theorem keepsLines_loadArgument {operand : String} (plain : OneLine operand) :
    KeepsLines told (loadArgument operand) fun _ => True := by
  have pooled : KeepsLines told (do
      let register ← materialize operand (some argumentRegister)
      if register != argumentRegister then op (.move argumentRegister register)) fun _ => True :=
    (keepsLines_materialize plain (by simp)).bind fun register held =>
      .ite (keepsLines_op (by simp [Op.mnemonic, Op.operands, held])) (keepsLines_pure trivial)
  unfold loadArgument
  split
  next value sort =>
    have held : OneLine value := (Operand.oneLine_written plain sort :)
    exact keepsLines_op (by simp [Op.mnemonic, Op.operands, held])
  · exact pooled
  · exact pooled
  next name sort =>
    have named : OneLine name := (Operand.oneLine_written plain sort :)
    refine keepsLines_get.bind fun _ _ => ?_
    split
    · exact keepsLines_opNote (by simp [Op.mnemonic, Op.operands, Address.text, named]) (by simp [named])
    · exact (keepsLines_materialize named (by simp)).bind fun register held =>
        keepsLines_op (by simp [Op.mnemonic, Op.operands, held])

theorem keepsLines_prepare {operand : String} (plain : OneLine operand) :
    KeepsLines told (prepare operand) fun _ => True := by
  refine keepsLines_get.bind fun p _ => ?_
  dsimp only
  refine .ite ((keepsLines_intern _ plain).bind fun name named => ?_) ?_
  · exact (keepsLines_opNote (by simp [Op.mnemonic, Op.operands, named]) (by simp [plain])).bind fun _ _ =>
      keepsLines_pure trivial
  · split
    · refine keepsLines_get.bind fun q before => ?_
      refine (keepsLines_materialize plain (by simp [before.scratch0])).bind fun register held => ?_
      exact (keepsLines_op (by simp [Op.mnemonic, Op.operands, held])).bind fun _ _ => keepsLines_pure trivial
    · exact (keepsLines_loadArgument plain).bind fun _ _ => keepsLines_pure trivial

theorem keepsLines_print {value : String} (plain : OneLine value) : KeepsLines told (print value) fun _ => True := by
  refine (keepsLines_prepare plain).bind fun service _ => (keepsLines_selectService service).bind fun _ _ => ?_
  exact keepsLines_opNote (by simp [Op.mnemonic, Op.operands]) (by simp [plain])

theorem keepsLines_read {target : String} (plain : OneLine target) : KeepsLines told (read target) fun _ => True := by
  have typed : KeepsLines told (do
      selectService .readInt
      opNote .syscall ("read " ++ target)
      storeBack target resultRegister) fun _ => True :=
    (keepsLines_selectService _).bind fun _ _ =>
      (keepsLines_opNote (by simp [Op.mnemonic, Op.operands]) (by simp [plain])).bind fun _ _ =>
        keepsLines_storeBack plain oneLine_resultRegister
  exact keepsLines_get.bind fun _ _ => .ite ((keepsLines_declare plain _).bind fun _ _ => typed) typed

/-! ## Statements and programs -/

/-- A statement whose texts stay on one line adds no text that does not. -/
theorem keepsLines_stmt {s : Stmt} (plain : s.OneLine) : KeepsLines told (stmt s) fun _ => True := by
  cases s
  all_goals
    simp only [Stmt.OneLine, Stmt.pieces, Text.allOneLine_cons, Text.allOneLine_append, Text.allOneLine_toList,
      Text.allOneLine_nil, and_true] at plain
  case declare name typeName isGlobal => exact keepsLines_declare plain.1 _
  case declareArray name length typeName isGlobal => exact keepsLines_declareArray plain.1 _ _
  case label name => exact keepsLines_label plain
  case comment text => exact keepsLines_node (by simpa [Node.pieces] using plain)
  case goto target =>
    exact (keepsLines_reference _).bind fun _ _ => keepsLines_op (by simp [Op.mnemonic, Op.operands, plain])
  case branch condition target operand2 operator =>
    exact keepsLines_branch plain.1 plain.2.1 plain.2.2.1 plain.2.2.2
  case assign target operand1 operator operand2 =>
    exact keepsLines_assign plain.1 plain.2.1.1 plain.2.1.2 plain.2.2
  case arrayLoad target array index => exact keepsLines_arrayLoad plain.1 plain.2.1 plain.2.2
  case arrayStore array index value => exact keepsLines_arrayStore plain.1 plain.2.1 plain.2.2
  case zeroFill array start stop => exact keepsLines_zeroFill plain.1 plain.2.1 plain.2.2
  case param operand => exact keepsLines_param plain
  case call function count target rawCount => exact keepsLines_call plain.1 plain.2.1 plain.2.2
  case ret value => exact keepsLines_ret plain
  case print value => exact keepsLines_print plain
  case read target => exact keepsLines_read plain
  case malformed text reason => exact keepsLines_diagnose (by simpa [Diagnostic.pieces] using plain)
  case unsupported text => exact keepsLines_diagnose (by simpa [Diagnostic.pieces] using plain)
  case foreign text => exact keepsLines_diagnose (by simpa [Diagnostic.pieces] using plain)

theorem oneLine_annotate {source : String} {nodes : List Node} (plain : OneLine source)
    (each : ∀ n ∈ nodes, Text.AllOneLine n.pieces) :
    ∀ n ∈ Node.annotate source nodes, Text.AllOneLine n.pieces := by
  induction nodes with
  | nil => exact each
  | cons node rest ih =>
    simp only [List.forall_mem_cons] at each
    cases node with
    | instr i =>
      simp only [Node.annotate, List.forall_mem_cons]
      refine ⟨?_, each.2⟩
      have shown := each.1
      simp only [Node.pieces, Instr.pieces, Text.allOneLine_cons, Text.allOneLine_append] at shown
      simp [Node.pieces, Instr.pieces, Instr.commented, shown.1, shown.2.1, plain]
    | label | comment | directive =>
      simp only [Node.annotate, List.forall_mem_cons]
      exact ⟨each.1, ih each.2⟩

theorem comment_mem_annotate {source text : String} {nodes : List Node} (member : .comment text ∈ nodes) :
    .comment text ∈ Node.annotate source nodes := by
  induction nodes with
  | nil => cases member
  | cons node rest ih =>
    cases node with
    | instr i => simpa [Node.annotate] using member
    | label | comment | directive =>
      rw [Node.annotate]
      · rcases List.mem_cons.mp member with same | later
        · exact same ▸ List.mem_cons_self
        · exact List.mem_cons_of_mem _ (ih later)
      · intro i same
        cases same

/-- What a line lays out apart is put behind the text, and its diagnostics are found there. -/
theorem keepsLines_line {l : Line} (noted : OneLine l.source) (plain : l.stmt.OneLine) :
    KeepsLines [] (line l) fun _ => True := by
  intro p _ q before ran
  -- The statement is lowered with an empty text, so the diagnostics before it are not found there.
  have apart : { p with text := [] : Pass }.OneLine p.diagnostics :=
    { before with text := List.forall_mem_nil _, diagnosed := fun _ member => .inl member }
  simp only [line, EStateM.run] at ran
  split at ran
  next r lowered =>
    obtain ⟨after, -⟩ := keepsLines_stmt plain apart lowered
    cases ran
    generalize same : (if p.config.annotate then Node.annotate l.source r.text else r.text) = own
    have shown : ∀ n ∈ own, Text.AllOneLine n.pieces := by
      rw [← same]
      split
      · exact oneLine_annotate noted after.text
      · exact after.text
    have remarked : ∀ message, .comment message ∈ r.text → .comment message ∈ own := by
      rw [← same]
      split
      · exact fun _ => comment_mem_annotate
      · exact fun _ => id
    refine ⟨{ after with text := fun n member => ?_, diagnosed := fun d member => .inr ?_ }, trivial⟩
    · exact (List.mem_append.mp member).elim (before.text n) (shown n)
    · rcases after.diagnosed d member with earlier | own
      · rcases before.diagnosed d earlier with none | found
        · cases none
        · exact List.mem_append_left _ found
      · exact List.mem_append_right _ (remarked _ own)
  next => cases ran

theorem keepsLines_lines {program : Program} (plain : program.OneLine) :
    KeepsLines [] (lines program) fun _ => True := by
  induction program with
  | nil => exact keepsLines_pure trivial
  | cons l rest ih =>
    obtain ⟨first, others⟩ := List.forall_mem_cons.mp plain
    exact (keepsLines_line first.1 first.2).bind fun _ _ => ih others

end Lower

/-! ## Listings -/

/-- The texts of the settings. -/
def Config.pieces (config : Config) : List String :=
  config.entryLabel :: (config.pool ++ config.scratch ++ config.address)

theorem Pass.oneLine_ready {config : Config} (plain : Text.AllOneLine config.pieces) (program : Program) :
    (Pass.ready config program).OneLine [] := by
  simp only [Config.pieces, Text.allOneLine_cons, Text.allOneLine_append] at plain
  obtain ⟨entry, ⟨pool, scratch⟩, address⟩ := plain
  exact {
    entry, scratch, address, pool
    bound := List.forall_mem_nil _
    takers := scratch
    cells := List.forall_mem_nil _
    literals := List.forall_mem_nil _
    params := Text.allOneLine_nil
    text := List.forall_mem_nil _
    diagnosed := List.forall_mem_nil _ }

theorem oneLine_exitNodes (config : Config) : ∀ n ∈ exitNodes config, Text.AllOneLine n.pieces := by
  unfold exitNodes
  split
  · simp [Node.pieces, Op.node, Instr.pieces, Op.mnemonic, Op.operands]
  · exact List.forall_mem_nil _

/-- A program whose texts stay on one line is lowered into texts that do. -/
theorem lowerProgram_oneLine {config : Config} {program : Program} {listing : String} {p : Pass}
    (settings : Text.AllOneLine config.pieces) (plain : program.OneLine)
    (lowered : lowerProgram config program = (.ok listing, p)) : p.OneLine [] := by
  obtain ⟨q, ran, -, rfl⟩ := lowerProgram_iff.mp ⟨listing, lowered⟩
  obtain ⟨after, -⟩ := Lower.keepsLines_lines plain (Pass.oneLine_ready settings program) ran
  exact { after.lay (oneLine_exitNodes q.config) with }

namespace Pass.OneLine

variable {p : Pass} {told : List Diagnostic} (plain : p.OneLine told)
include plain

theorem directives : ∀ d ∈ p.data.directives, Text.AllOneLine d.pieces := by
  intro d member
  rcases List.mem_append.mp member with cell | literal
  · exact plain.cells d cell
  · obtain ⟨l, inLiterals, rfl⟩ := List.mem_map.mp literal
    exact Literal.oneLine_directive (plain.literals l inLiterals)

theorem listingLines : ∀ line ∈ p.listingLines, Text.OneLine line := by
  have entry := plain.entry
  have data : ∀ line ∈ p.data.render, Text.OneLine line := by
    intro line member
    obtain ⟨d, inSection, rfl⟩ := List.mem_map.mp member
    exact Directive.oneLine_render (plain.directives d inSection)
  have text : ∀ line ∈ p.text.map Node.render, Text.OneLine line := by
    intro line member
    obtain ⟨n, inText, rfl⟩ := List.mem_map.mp member
    exact Node.oneLine_render (plain.text n inText)
  simp only [Pass.listingLines, List.forall_mem_append, List.forall_mem_cons]
  refine ⟨⟨⟨⟨by decide, List.forall_mem_nil _⟩, data⟩, by decide, by decide, ?_, ?_, List.forall_mem_nil _⟩, text⟩
  · simp [entry]
  · simp [entry]

end Pass.OneLine

/-- The lines of a listing are those of the directives and nodes that it was made from, and each of these shows all
    of its texts on its own line. -/
structure Pass.LinesApart (config : Config) (listing : String) (p : Pass) : Prop where
  ends : listing.toList.getLast? = some '\n'
  lines : (listing.toList.splitOn '\n').map String.ofList =
    [".data"] ++ p.data.directives.map Directive.render ++
      ["", ".text", ".globl " ++ config.entryLabel, config.entryLabel ++ ":"] ++
      p.text.map Node.render ++ [""]
  directives : ∀ d ∈ p.data.directives, ∀ s ∈ d.pieces, Text.OneLine s ∧ Text.Stands s d.render
  nodes : ∀ n ∈ p.text, ∀ s ∈ n.pieces, Text.OneLine s ∧ Text.Stands s n.render
  diagnosed : ∀ d ∈ p.diagnostics, .comment d.message ∈ p.text

/-- Lines that are cut off at line feeds have none. -/
theorem Text.oneLine_of_mem_splitLines {isBoundary : Char → Bool} (breaks : isBoundary '\n' = true) {cs : List Char}
    {line : String} (member : line ∈ (splitLines isBoundary cs).map String.ofList) : OneLine line := by
  obtain ⟨own, inLines, rfl⟩ := List.mem_map.mp member
  refine oneLine_ofList.mpr fun inside => ?_
  have inLine := not_boundary_of_mem inLines _ inside
  rw [breaks] at inLine
  cases inLine

theorem lowerProgram_linesApart {config : Config} {program : Program} {listing : String} {p : Pass}
    (settings : Text.AllOneLine config.pieces) (plain : program.OneLine)
    (lowered : lowerProgram config program = (.ok listing, p)) : p.LinesApart config listing := by
  have after := lowerProgram_oneLine settings plain lowered
  obtain ⟨q, ran, -, final⟩ := lowerProgram_iff.mp ⟨listing, lowered⟩
  have same : p.config = config := by
    rw [final]
    exact (chain_traceFrom ran).1.growth.config
  obtain ⟨-, rfl⟩ := lowerProgram_eq_ok_iff.mp lowered
  constructor
  case ends => simp [Pass.listing]
  case lines =>
    have back : String.ofList ∘ String.toList = id := funext fun _ => String.ofList_toList
    rw [Pass.splitOn_listing after.listingLines, List.map_append, List.map_map, back, List.map_id,
      Pass.listingLines, same]
    rfl
  case directives =>
    exact fun d inSection s member => ⟨after.directives d inSection s member, Directive.stands_render member⟩
  case nodes => exact fun n inText s member => ⟨after.text n inText s member, Node.stands_render member⟩
  case diagnosed => exact fun d member => (after.diagnosed d member).resolve_left List.not_mem_nil

/-- No line can add another to the listing, whatever it says: the listing is cut at its line feeds into the lines of
    its directives and nodes.  The lines of a file and those of a text are such lines. -/
theorem lowerLines_linesApart :
    (∀ text, ∀ line ∈ Text.fileLines text ++ Text.textLines text, OneLine (Text.stripped line)) ∧
      ∀ (config : Config) (lines : List String) (listing : String) (p : Pass),
        Text.AllOneLine config.pieces → (∀ line ∈ lines, OneLine (Text.stripped line)) →
        lowerLines config lines = (.ok listing, p) → p.LinesApart config listing := by
  constructor
  · intro text line member
    refine Text.oneLine_stripped ?_
    rcases List.mem_append.mp member with ofFile | ofText
    · exact Text.oneLine_of_mem_splitLines (by decide) ofFile
    · exact Text.oneLine_of_mem_splitLines (by decide) ofText
  · intro config lines listing p settings whole lowered
    cases read : Program.ofLines lines with
    | ok program =>
      rw [lowerLines, read] at lowered
      exact lowerProgram_linesApart settings (Program.oneLine_of_ofLines whole read) lowered
    | error fault =>
      rw [lowerLines, read] at lowered
      cases lowered

/-- Lines that hold quotes, a text with an escape and something that is no statement. -/
def hostileLines : List String :=
  ["\tprint \"a\\n.data # b\"\r\n", "x = 1 \u0085 y\n", "L: .text\n", "arr[ = 3", "call f,,\n"]

theorem hostileLines_linesApart :
    ∃ listing p, lowerLines (.standard false) hostileLines = (.ok listing, p) ∧
      p.diagnostics ≠ [] ∧ p.LinesApart (.standard false) listing := by
  have settings : Text.AllOneLine (Config.standard false).pieces := by decide
  have whole : ∀ line ∈ hostileLines, OneLine (Text.stripped line) := by decide
  have runs : (lowerLines (.standard false) hostileLines).1.isOk = true := by decide +kernel
  have diagnosed : (lowerLines (.standard false) hostileLines).2.diagnostics ≠ [] := by decide +kernel
  cases lowered : lowerLines (.standard false) hostileLines with
  | mk result p =>
    rw [lowered] at runs diagnosed
    cases result with
    | error fault => cases runs
    | ok listing =>
      exact ⟨listing, p, rfl, diagnosed, lowerLines_linesApart.2 _ _ listing p settings whole lowered⟩

end MipsLowering
