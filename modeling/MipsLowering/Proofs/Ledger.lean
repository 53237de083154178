import Mathlib.Logic.Relation
import MipsLowering.Proofs.Layout

/-! # The ledger of a pass

Most of what a pass does is of no consequence for what it declares and where it can jump: it lays out
instructions and remarks, leaves records, binds registers, pools literals, and notes the types of names
that are only assigned to.  These are its *minor steps*, and every action of a pass is made of them
(`Emit.IsMinor`), but for a few.

What minor steps leave alone is the `Ledger`: the cells, the labels, the queue of arguments, and the
label lines in the text.  On it a statement is a function (`Ledger.after`), so that a pass over a program
is a fold (`Lower.ledger_lines`), whatever happens to registers and code meanwhile. -/

namespace MipsLowering

/-! ## Minor steps -/

inductive Pass.MinorStep : Pass → Pass → Prop where
  | code (p : Pass) (is : List Instr) : MinorStep p { p with text := p.text ++ is.map Node.instr }
  | remark (p : Pass) (text : String) : MinorStep p { p with text := p.text ++ [.comment text] }
  | warn (p : Pass) (w : Warning) : MinorStep p { p with warnings := p.warnings ++ [w] }
  | report (p : Pass) (d : Diagnostic) : MinorStep p { p with diagnostics := p.diagnostics ++ [d] }
  | note (p : Pass) (name : String) (type : ValueType) :
      MinorStep p { p with symbols := p.symbols.note name type }
  | pool (p : Pass) (kind : LiteralKind) (written : String) :
      MinorStep p { p with data := (p.data.intern kind written).2 }
  | bind (p : Pass) (name : String) : MinorStep p { p with registers := p.registers.bind name }

/-- A stretch of a pass that is made of minor steps. -/
def Pass.Minor : Pass → Pass → Prop :=
  Relation.ReflTransGen MinorStep

namespace Emit

variable {α β : Type}

/-- An action whose successful runs are made of minor steps. -/
def IsMinor (x : Emit α) : Prop :=
  ∀ ⦃p a q⦄, x.run p = .ok a q → p.Minor q

theorem minor_pure (a : α) : IsMinor (pure a) := by
  rintro p _ _ ⟨⟩
  exact .refl

theorem minor_throw (fault : Fault) : IsMinor (throw fault : Emit α) := by
  rintro p _ _ ⟨⟩

theorem IsMinor.bind {x : Emit α} {f : α → Emit β} (first : IsMinor x) (second : ∀ a, IsMinor (f a)) :
    IsMinor (x >>= f) := by
  intro p b r ran
  obtain ⟨a, q, ranFirst, ranSecond⟩ := run_bind_ok.mp ran
  exact (first ranFirst).trans (second a ranSecond)

theorem minor_get_bind {f : Pass → Emit β} (next : ∀ p, IsMinor (f p)) : IsMinor (get >>= f) :=
  fun p _ _ ran => next p (run_get_bind.mp ran)

theorem minor_modify {f : Pass → Pass} (step : ∀ p : Pass, p.MinorStep (f p)) : IsMinor (modify f) := by
  rintro p _ _ ⟨⟩
  exact .single (step p)

theorem IsMinor.ite {condition : Prop} [Decidable condition] {x y : Emit α} (yes : IsMinor x)
    (no : IsMinor y) : IsMinor (if condition then x else y) := by
  split
  · exact yes
  · exact no

/-! ### Text and operands -/

theorem minor_code (is : List Instr) : IsMinor (code is) :=
  minor_modify fun p => .code p is

theorem minor_op (o : Op) : IsMinor (op o) :=
  minor_code _

theorem minor_opNote (o : Op) (comment : String) : IsMinor (opNote o comment) :=
  minor_code _

theorem minor_comment (text : String) : IsMinor (comment text) :=
  minor_modify fun p => .remark p text

theorem minor_warn (w : Warning) : IsMinor (warn w) :=
  minor_modify fun p => .warn p w

theorem minor_diagnose (d : Diagnostic) : IsMinor (diagnose d) :=
  (minor_warn _).bind fun _ => (minor_modify fun p => .report p d).bind fun _ => minor_comment _

theorem minor_note (name : String) (type : ValueType) : IsMinor (note name type) :=
  minor_modify fun p => .note p name type

theorem minor_intern (kind : LiteralKind) (written : String) : IsMinor (intern kind written) := by
  rintro p _ _ ⟨⟩
  exact .single (.pool p kind written)

theorem minor_registerFor (name : String) : IsMinor (registerFor name) := by
  have bind : IsMinor (modify fun p => { p with registers := p.registers.bind name }) :=
    minor_modify fun p => .bind p name
  unfold registerFor
  refine .ite ((minor_throw _).bind fun _ => minor_get_bind fun p => ?_) (minor_get_bind fun p => ?_)
  all_goals
    dsimp only
    split
    · exact minor_pure _
    · exact .ite ((minor_warn _).bind fun _ => bind.bind fun _ => minor_pure _)
        (bind.bind fun _ => minor_pure _)

theorem minor_fetch (operand : String) (wanted : Option Register) : IsMinor (fetch operand wanted) := by
  refine minor_get_bind fun p => ?_
  dsimp only
  split
  · exact minor_pure _
  · exact (minor_intern _ _).bind fun _ => minor_pure _
  · exact (minor_intern _ _).bind fun _ => minor_pure _
  · exact (minor_registerFor _).bind fun _ => minor_get_bind fun _ => minor_pure _

theorem minor_materialize (operand : String) (wanted : Option Register) :
    IsMinor (materialize operand wanted) :=
  (minor_fetch operand wanted).bind fun _ => (minor_code _).bind fun _ => minor_pure _

theorem minor_storeBack (name : String) (register : Register) : IsMinor (storeBack name register) := by
  refine minor_get_bind fun p => ?_
  split
  · exact minor_pure _
  · exact .ite (minor_pure _) (.ite (minor_diagnose _) (minor_opNote _ _))

end Emit

namespace Lower

open Emit

/-! ### Statements -/

theorem minor_operand (given : Option String) : IsMinor (operand given) := by
  cases given with
  | none => exact minor_throw _
  | some text => exact minor_pure _

theorem minor_binary (target : String) (left : Option String) (symbol right : String) :
    IsMinor (binary target left symbol right) := by
  unfold binary
  split
  · exact minor_diagnose _
  · refine (minor_note _ _).bind fun _ => (minor_registerFor _).bind fun _ => ?_
    refine (minor_operand _).bind fun _ => minor_get_bind fun _ => (minor_materialize _ _).bind fun _ => ?_
    refine minor_get_bind fun _ => (minor_materialize _ _).bind fun _ => ?_
    exact (minor_code _).bind fun _ => minor_storeBack _ _

theorem minor_unary (target symbol : String) (source : Option String) :
    IsMinor (unary target symbol source) := by
  unfold unary
  split
  · exact minor_diagnose _
  · refine (minor_note _ _).bind fun _ => (minor_registerFor _).bind fun _ => ?_
    refine (minor_operand _).bind fun _ => (minor_materialize _ _).bind fun _ => ?_
    exact (minor_code _).bind fun _ => minor_storeBack _ _

theorem minor_loadInto (dest : Register) (source : String) : IsMinor (loadInto dest source) := by
  unfold loadInto
  split
  · exact minor_op _
  · exact (minor_intern _ _).bind fun _ => minor_opNote _ _
  · exact (minor_intern _ _).bind fun _ => minor_op _
  · exact (minor_materialize _ _).bind fun _ => .ite (minor_op _) (minor_pure _)

theorem minor_copy (target : String) (source : Option String) : IsMinor (copy target source) := by
  refine minor_get_bind fun _ => (minor_note _ _).bind fun _ => (minor_registerFor _).bind fun _ => ?_
  exact (minor_operand _).bind fun _ => (minor_loadInto _ _).bind fun _ => minor_storeBack _ _

theorem minor_assign (target : String) (operand1 operator operand2 : Option String) :
    IsMinor (assign target operand1 operator operand2) := by
  unfold assign
  split
  · exact minor_binary _ _ _ _
  · exact minor_unary _ _ _
  · exact minor_copy _ _

theorem minor_relation (left symbol right line : String) : IsMinor (relation left symbol right line) := by
  unfold relation
  split
  · exact (minor_diagnose _).bind fun _ => minor_pure _
  · refine minor_get_bind fun _ => (minor_materialize _ _).bind fun _ => ?_
    refine (minor_materialize _ _).bind fun _ => ?_
    exact (minor_code _).bind fun _ => minor_pure _

theorem minor_loadArgument (operand : String) : IsMinor (loadArgument operand) := by
  have pooled : IsMinor (do
      let register ← materialize operand (some argumentRegister)
      if register != argumentRegister then op (.move argumentRegister register)) :=
    (minor_materialize _ _).bind fun _ => .ite (minor_op _) (minor_pure _)
  unfold loadArgument
  split
  · exact minor_op _
  · exact pooled
  · exact pooled
  · refine minor_get_bind fun _ => ?_
    split
    · exact minor_opNote _ _
    · exact (minor_materialize _ _).bind fun _ => minor_op _

theorem minor_print (value : String) : IsMinor (print value) := by
  refine IsMinor.bind (minor_get_bind fun p => ?_) fun _ => (minor_op _).bind fun _ => minor_opNote _ _
  dsimp only
  refine .ite ((minor_intern _ _).bind fun _ => (minor_opNote _ _).bind fun _ => minor_pure _) ?_
  split
  · refine minor_get_bind fun _ => (minor_materialize _ _).bind fun _ => ?_
    exact (minor_op _).bind fun _ => minor_pure _
  · exact (minor_loadArgument _).bind fun _ => minor_pure _

theorem minor_ret (value : Option String) : IsMinor (ret value) := by
  unfold ret
  have back : IsMinor (op (.jr linkRegister)) := minor_op _
  split
  · exact back
  · dsimp only
    split
    · exact (minor_op _).bind fun _ => back
    · refine (minor_materialize _ _).bind fun _ => ?_
      exact .ite ((minor_op _).bind fun _ => back) back

theorem minor_elementAddress (array index : String) : IsMinor (elementAddress array index) := by
  refine minor_get_bind fun _ => minor_get_bind fun _ => (minor_opNote _ _).bind fun _ => ?_
  refine (minor_materialize _ _).bind fun _ => (minor_op _).bind fun _ => ?_
  exact (minor_opNote _ _).bind fun _ => (minor_op _).bind fun _ => minor_pure _

theorem minor_arrayStore (array index value : String) : IsMinor (arrayStore array index value) := by
  refine (minor_elementAddress _ _).bind fun _ => minor_get_bind fun _ => ?_
  exact (minor_materialize _ _).bind fun _ => minor_get_bind fun _ => minor_opNote _ _

theorem minor_arrayLoad (target array index : String) : IsMinor (arrayLoad target array index) := by
  refine minor_get_bind fun _ => (minor_note _ _).bind fun _ => (minor_registerFor _).bind fun _ => ?_
  refine (minor_elementAddress _ _).bind fun _ => ?_
  exact (minor_opNote _ _).bind fun _ => minor_storeBack _ _

theorem minor_argumentCount (function : String) (count : Option Int) (target rawCount : Option String) :
    IsMinor (argumentCount function count target rawCount) := by
  refine minor_get_bind fun _ => ?_
  split
  · exact .ite ((minor_warn _).bind fun _ => minor_pure _) (minor_pure _)
  · exact (minor_diagnose _).bind fun _ => minor_pure _
  · exact minor_pure _

theorem minor_push (register : Register) (wordSize : Int) : IsMinor (push register wordSize) :=
  .ite (minor_code _) (minor_throw _)

theorem minor_pushAll (arguments : List String) : IsMinor (pushAll arguments) := by
  induction arguments with
  | nil => exact minor_pure _
  | cons argument rest ih =>
    refine minor_get_bind fun _ => (minor_materialize _ _).bind fun _ => ?_
    exact (minor_push _ _).bind fun _ => ih

end Lower

/-! ## The ledger -/

def Node.label? : Node → Option String
  | .label name => some name
  | _ => none

/-- What minor steps leave alone in the state of a pass. -/
structure Ledger where
  config : Config
  /-- The entries of the names that have a cell. -/
  cell? : String → Option Symbol
  /-- The data section without its literals and their counters. -/
  data : DataSection
  labels : LabelTable
  params : List String
  /-- The label lines of the text. -/
  placed : List String

def Pass.ledger (p : Pass) : Ledger where
  config := p.config
  cell? := p.symbols.cell?
  data := { p.data with literals := [], counters := ⟨0, 0⟩ }
  labels := p.labels
  params := p.params
  placed := p.text.filterMap Node.label?

/-- Names without a cell are scalars of which nothing but the type is recorded. -/
def SymbolTable.Open (t : SymbolTable) : Prop :=
  ∀ name s, t.lookup? name = some s → s.inMemory = false → s = ⟨name, .scalar, s.type, 0, false⟩

namespace Pass

variable {p q : Pass}

theorem MinorStep.ledger (step : p.MinorStep q) : q.ledger = p.ledger := by
  cases step with
  | code is => simp [Pass.ledger, List.filterMap_map, Function.comp_def, Node.label?]
  | remark text => simp [Pass.ledger, Node.label?]
  | warn w => rfl
  | report d => rfl
  | note name type =>
    have cells : (p.symbols.note name type).cell? = p.symbols.cell? :=
      funext (p.symbols.cell?_note name type)
    simp [Pass.ledger, cells]
  | pool kind written =>
    obtain ⟨_, _, same⟩ := p.data.intern_eq_append kind written
    simp [Pass.ledger, same]
  | bind name => rfl

theorem MinorStep.opens (step : p.MinorStep q) (opens : p.symbols.Open) : q.symbols.Open := by
  cases step with
  | note name type =>
    intro other s found unbacked
    rcases SymbolTable.lookup?_note found with before | ⟨rfl, rfl⟩
    · exact opens other s before unbacked
    · rfl
  | _ => exact opens

theorem Minor.ledger (minor : p.Minor q) : q.ledger = p.ledger := by
  induction minor with
  | refl => rfl
  | tail _ step ih => exact step.ledger.trans ih

theorem Minor.opens (minor : p.Minor q) (opens : p.symbols.Open) : q.symbols.Open := by
  induction minor with
  | refl => exact opens
  | tail _ step ih => exact step.opens ih

end Pass

/-! ## What statements enter -/

/-- The symbol for whose cell a statement calls.  What is read and what a call returns are integers. -/
def Stmt.entry? : Stmt → Option Symbol
  | .declare name typeName _ => some ⟨name, .scalar, .ofGivenName typeName, 0, true⟩
  | .declareArray name length typeName _ => some ⟨name, .array, .ofGivenName typeName, length, true⟩
  | .call _ _ target _ => (given target).map fun name => ⟨name, .scalar, .int, 0, true⟩
  | .read target => some ⟨target, .scalar, .int, 0, true⟩
  | _ => none

namespace Ledger

variable (g : Ledger)

/-- A symbol gets a cell unless its name has one. -/
def give (s : Symbol) : Ledger :=
  if (g.cell? s.name).isSome then g
  else { g with cell? := Function.update g.cell? s.name s, data := (g.data.align s).append s }

def use (label : String) : Ledger :=
  { g with labels := g.labels.reference label }

def place (label : String) : Ledger :=
  { g with labels := g.labels.define label, placed := g.placed ++ [label] }

/-- A loop gets a new label and a second one for its end. -/
def loop : Ledger :=
  let (start, labels) := g.labels.generate "arr_pad" ["", "_end"]
  let stop := start ++ "_end"
  ((({ g with labels := labels }.use start).use stop).place start).place stop

/-- What a statement does to the labels and to the queue. -/
def record : Stmt → Ledger
  | .label name => g.place name
  | .goto target | .branch _ target _ _ => g.use target
  | .zeroFill .. => g.loop
  | .param operand => { g with params := g.params ++ [operand] }
  | .call function .. => { g.use function with params := [] }
  | _ => g

/-- The ledger behind a statement. -/
def after (s : Stmt) : Ledger :=
  s.entry?.elim (g.record s) (g.record s).give

theorem cell?_record (s : Stmt) : (g.record s).cell? = g.cell? := by
  cases s <;> rfl

theorem data_record (s : Stmt) : (g.record s).data = g.data := by
  cases s <;> rfl

/-- What a statement records stays as it is when its symbol gets a cell. -/
theorem after_eq (s : Stmt) :
    g.after s = { g.record s with cell? := (g.after s).cell?, data := (g.after s).data } := by
  unfold after
  cases s.entry? with
  | none => rfl
  | some entry =>
    simp only [Option.elim_some, give]
    split <;> rfl

theorem labels_after (s : Stmt) : (g.after s).labels = (g.record s).labels := by
  rw [after_eq]

theorem placed_after (s : Stmt) : (g.after s).placed = (g.record s).placed := by
  rw [after_eq]

/-- Label lines are added behind those that are there. -/
theorem after_placed (front : List String) (s : Stmt) :
    { g with placed := front ++ g.placed }.after s =
      { g.after s with placed := front ++ (g.after s).placed } := by
  have recorded : { g with placed := front ++ g.placed }.record s =
      { g.record s with placed := front ++ (g.record s).placed } := by
    cases s <;> simp [record, place, use, loop]
  unfold after
  rw [recorded]
  cases s.entry? with
  | none => rfl
  | some entry =>
    simp only [Option.elim_some, give]
    split <;> rfl

end Ledger

theorem SymbolTable.cell?_giveCell {t : SymbolTable} {name : String} {make : Option Symbol → Symbol}
    (named : (make (t.lookup? name)).name = name)
    (backed : (make (t.lookup? name)).inMemory = true) :
    (t.giveCell name make).1.cell? =
      if t.isInMemory name then t.cell?
      else Function.update t.cell? name (some (make (t.lookup? name))) := by
  funext other
  rw [cell?, lookup?_giveCell named]
  cases had : t.isInMemory name with
  | true => simp [cell?]
  | false =>
    by_cases same : other = name
    · subst same
      simp [backed]
    · simp [same, cell?]

theorem SymbolTable.Open.giveCell {t : SymbolTable} {name : String} {make : Option Symbol → Symbol}
    (opens : t.Open) (named : (make (t.lookup? name)).name = name)
    (backed : (make (t.lookup? name)).inMemory = true) : (t.giveCell name make).1.Open := by
  intro other s found unbacked
  rw [lookup?_giveCell named] at found
  split at found
  · cases found
    rw [backed] at unbacked
    cases unbacked
  · exact opens other s found unbacked

/-! ## Entries of actions -/

namespace Emit

variable {α β : Type}

/-- An action whose successful runs change the ledger by a function, as long as the table is open. -/
def Enters (x : Emit α) (f : Ledger → Ledger) : Prop :=
  ∀ ⦃p a q⦄, x.run p = .ok a q → p.symbols.Open → q.ledger = f p.ledger ∧ q.symbols.Open

theorem IsMinor.enters {x : Emit α} (minor : IsMinor x) : Enters x id :=
  fun _ _ _ ran opens => ⟨(minor ran).ledger, (minor ran).opens opens⟩

theorem Enters.bind {x : Emit α} {k : α → Emit β} {f h : Ledger → Ledger} (first : Enters x f)
    (second : ∀ a, Enters (k a) h) : Enters (x >>= k) (h ∘ f) := by
  intro p b r ran opens
  obtain ⟨a, q, ranFirst, ranSecond⟩ := run_bind_ok.mp ran
  obtain ⟨entered, still⟩ := first ranFirst opens
  obtain ⟨entered', still'⟩ := second a ranSecond still
  exact ⟨by rw [entered', entered]; rfl, still'⟩

theorem IsMinor.enters_bind {x : Emit α} {k : α → Emit β} {f : Ledger → Ledger} (minor : IsMinor x)
    (next : ∀ a, Enters (k a) f) : Enters (x >>= k) f :=
  minor.enters.bind next

theorem enters_get_bind {k : Pass → Emit β} {f : Ledger → Ledger} (next : ∀ p, Enters (k p) f) :
    Enters (get >>= k) f :=
  fun p _ _ ran => next p (run_get_bind.mp ran)

theorem Enters.ite {condition : Prop} [Decidable condition] {x y : Emit α} {f : Ledger → Ledger}
    (yes : Enters x f) (no : Enters y f) : Enters (if condition then x else y) f := by
  split
  · exact yes
  · exact no

theorem enters_reference (label : String) : Enters (reference label) (·.use label) := by
  rintro p _ _ ⟨⟩ opens
  exact ⟨rfl, opens⟩

theorem enters_label (label : String) : Enters (Emit.label label) (·.place label) := by
  intro p _ q ran opens
  simp only [Emit.label, run_get_bind] at ran
  split at ran
  all_goals
    cases ran
    exact ⟨by simp [Pass.ledger, Ledger.place, Node.label?], opens⟩

theorem minor_ofNumeral (outcome : Except Text.NumeralFault α) : IsMinor (ofNumeral outcome) := by
  cases outcome with
  | ok a => exact minor_pure _
  | error fault => exact minor_throw _

/-! ### Declarations -/

/-- What `make` makes of the entry of a name is entered, unless the name has a cell. -/
theorem run_giveCell_ledger {p q : Pass} {name : String} {make : Option Symbol → Symbol}
    (opens : p.symbols.Open) (named : (make (p.symbols.lookup? name)).name = name)
    (backed : (make (p.symbols.lookup? name)).inMemory = true)
    (ran : (declared (·.giveCell name make)).run p = .ok () q) :
    q.ledger = p.ledger.give (make (p.symbols.lookup? name)) ∧ q.symbols.Open := by
  obtain rfl := run_declared_ok ran
  constructor
  · have had : ((p.symbols.cell? name).isSome = true) = (p.symbols.isInMemory name = true) := by
      rw [SymbolTable.isInMemory_eq_cell?]
    simp only [Pass.ledger, Ledger.give, named, SymbolTable.giveCell_snd, had,
      SymbolTable.cell?_giveCell named backed]
    split <;> rfl
  · exact opens.giveCell named backed

theorem enters_declareArray (name : String) (type : ValueType) (length : Int) :
    Enters (declareArray name type length) (·.give ⟨name, .array, type, length, true⟩) := by
  intro p _ q ran opens
  let make (_ : Option Symbol) : Symbol := ⟨name, .array, type, length, true⟩
  have named : (make (p.symbols.lookup? name)).name = name := rfl
  exact run_giveCell_ledger opens named rfl ran

/-- It makes no difference to a declaration whether the name was assigned to before. -/
theorem enters_declare (name : String) (type : ValueType) :
    Enters (declare name type) (·.give ⟨name, .scalar, type, 0, true⟩) := by
  intro p _ q ran opens
  obtain ⟨entered, still⟩ := run_giveCell_ledger opens (SymbolTable.name_declaredEntry name type)
    (SymbolTable.inMemory_declaredEntry name type _) ran
  refine ⟨entered.trans ?_, still⟩
  cases entry : p.symbols.lookup? name with
  | none => rfl
  | some old =>
    cases had : old.inMemory with
    | true =>
      have cell : p.ledger.cell? name = some old := by
        simp [Pass.ledger, SymbolTable.cell?, entry, had]
      have same : old.name = name := SymbolTable.name_of_lookup? entry
      simp [Ledger.give, SymbolTable.declaredEntry, same, cell]
    | false =>
      rw [opens name old entry had]
      rfl

end Emit

/-! ## Entries of statements -/

namespace Lower

open Emit

theorem enters_goto (target : String) : Enters (goto target) (·.use target) :=
  (enters_reference target).bind fun _ => (minor_op _).enters

theorem enters_branch (condition target : String) (operand2 operator : Option String) :
    Enters (branch condition target operand2 operator) (·.use target) := by
  refine (enters_reference target).bind fun _ => IsMinor.enters ?_
  split
  · refine (minor_relation _ _ _ _).bind fun _ => ?_
    split
    · exact minor_opNote _ _
    · exact minor_pure _
  · exact minor_get_bind fun _ => (minor_materialize _ _).bind fun _ => minor_opNote _ _

/-- The loop of a fill, from its labels on. -/
theorem enters_fillLoop (array : String) (index last cursor : Register) (size : Nat) :
    Enters (do
      let loop ← freshLabel "arr_pad" ["", "_end"]
      let exit := loop ++ "_end"
      reference loop
      reference exit
      label loop
      op (.beq index last exit)
      op (.store ((← get).symbols.elementType array).width zeroRegister (.base cursor))
      op (.aluImm .addiu cursor cursor size)
      op (.aluImm .addiu index index 1)
      op (.j loop)
      label exit) Ledger.loop := by
  intro p _ q ran opens
  obtain ⟨loop, r, generated, ran⟩ := run_bind_ok.mp ran
  cases generated
  -- What follows the choice of the label enters it without looking at the table again.
  refine (Enters.bind (enters_reference _) fun _ => (enters_reference _).bind fun _ =>
    (enters_label _).bind fun _ => (minor_op _).enters.bind fun _ => enters_get_bind fun _ =>
    (minor_op _).enters.bind fun _ => (minor_op _).enters.bind fun _ => (minor_op _).enters.bind fun _ =>
    (minor_op _).enters.bind fun _ => enters_label _) ran ?_
  exact opens

theorem enters_zeroFill (array start stop : String) : Enters (zeroFill array start stop) Ledger.loop := by
  refine enters_get_bind fun _ => enters_get_bind fun _ => (minor_opNote _ _).enters_bind fun _ => ?_
  refine (minor_materialize _ _).enters_bind fun _ => ?_
  -- The index is moved to its register unless it is there already; both ways go on alike.
  refine Enters.ite ((minor_op _).enters_bind fun _ => ?_) ?_
  all_goals
    refine (minor_op _).enters_bind fun _ => (minor_op _).enters_bind fun _ => ?_
    refine (minor_opNote _ _).enters_bind fun _ => (minor_materialize _ _).enters_bind fun _ => ?_
    exact enters_fillLoop _ _ _ _ _

theorem enters_call (function : String) (count : Option Int) (target rawCount : Option String) :
    Enters (call function count target rawCount) (·.after (.call function count target rawCount)) := by
  let give (g : Ledger) : Ledger := (Stmt.entry? (.call function count target rawCount)).elim g g.give
  have clear : Enters (modify fun p => { p with params := [] }) ({ · with params := [] }) := by
    rintro p _ _ ⟨⟩ opens
    exact ⟨rfl, opens⟩
  have called : Enters (call function count target rawCount)
      ((give ∘ ({ · with params := [] })) ∘ (·.use function)) := by
    refine (minor_argumentCount _ _ _ _).enters_bind fun n => enters_get_bind fun p => ?_
    refine (minor_pushAll _).enters_bind fun _ => (enters_reference function).bind fun _ => ?_
    refine (minor_opNote _ _).enters_bind fun _ => enters_get_bind fun _ => ?_
    refine (minor_ofNumeral _).enters_bind fun _ => (minor_code _).enters_bind fun _ => ?_
    refine clear.bind fun _ => ?_
    -- What the call returns goes to the target, if there is one.
    simp only [give, Stmt.entry?]
    cases Stmt.given target with
    | none => exact (minor_pure ()).enters
    | some name => exact (enters_declare name .int).bind fun _ => (minor_storeBack _ _).enters
  exact called

theorem enters_read (target : String) :
    Enters (read target) (·.give ⟨target, .scalar, .int, 0, true⟩) := by
  have typed : IsMinor (do
      selectService .readInt
      opNote .syscall ("read " ++ target)
      storeBack target resultRegister) :=
    (minor_op _).bind fun _ => (minor_opNote _ _).bind fun _ => minor_storeBack _ _
  intro p _ q ran opens
  simp only [read, run_get_bind] at ran
  cases backed : p.symbols.isInMemory target with
  | false =>
    simp only [backed] at ran
    exact ((enters_declare target .int).bind fun _ => typed.enters) ran opens
  | true =>
    simp only [backed] at ran
    have had : (p.ledger.cell? target).isSome = true := by
      rw [← backed, SymbolTable.isInMemory_eq_cell?]
      rfl
    obtain ⟨same, still⟩ := typed.enters ran opens
    exact ⟨by simpa [Ledger.give, had] using same, still⟩

theorem enters_stmt (s : Stmt) : Enters (stmt s) (·.after s) := by
  cases s with
  | declare name typeName isGlobal => exact enters_declare _ _
  | declareArray name length typeName isGlobal => exact enters_declareArray _ _ _
  | label name => exact enters_label name
  | comment text => exact (minor_comment _).enters
  | goto target => exact enters_goto target
  | branch condition target operand2 operator => exact enters_branch _ _ _ _
  | assign target operand1 operator operand2 => exact (minor_assign _ _ _ _).enters
  | arrayLoad target array index => exact (minor_arrayLoad _ _ _).enters
  | arrayStore array index value => exact (minor_arrayStore _ _ _).enters
  | zeroFill array start stop => exact enters_zeroFill _ _ _
  | param operand =>
    rintro p _ _ ⟨⟩ opens
    exact ⟨rfl, opens⟩
  | call function count target rawCount => exact enters_call _ _ _ _
  | ret value => exact (minor_ret _).enters
  | print value => exact (minor_print _).enters
  | read target => exact enters_read target
  | malformed text reason => exact (minor_diagnose _).enters
  | unsupported text => exact (minor_diagnose _).enters
  | foreign text => exact (minor_diagnose _).enters

/-! ## Entries of programs -/

variable {p q : Pass}

theorem ledger_line {l : Line} (ran : (line l).run p = .ok () q) (opens : p.symbols.Open) :
    q.ledger = p.ledger.after l.stmt ∧ q.symbols.Open := by
  obtain ⟨r, own, lowered, rfl, bare⟩ := run_line_ok ran
  obtain ⟨entered, still⟩ := enters_stmt l.stmt lowered opens
  refine ⟨?_, still⟩
  -- Annotations change no label line.
  have labels : ∀ nodes : List Node, nodes.filterMap Node.label? =
      (nodes.map Node.bare).filterMap Node.label? := by
    intro nodes
    rw [List.filterMap_map]
    congr 1
    funext node
    cases node <;> rfl
  have placed : own.filterMap Node.label? = r.ledger.placed := by
    rw [labels own, bare, ← labels]
    rfl
  calc Pass.ledger { r with text := p.text ++ own }
      = { r.ledger with placed := p.ledger.placed ++ r.ledger.placed } := by
        simp [Pass.ledger, placed]
    _ = p.ledger.after l.stmt := by
        rw [entered, ← Ledger.after_placed]
        simp [Pass.ledger]

/-- A pass over lines enters their statements one after the other. -/
theorem ledger_lines {program : Program} (ran : (lines program).run p = .ok () q)
    (opens : p.symbols.Open) :
    q.ledger = (program.map Line.stmt).foldl Ledger.after p.ledger ∧ q.symbols.Open := by
  induction program generalizing p with
  | nil =>
    cases ran
    exact ⟨rfl, opens⟩
  | cons l rest ih =>
    obtain ⟨_, r, ranFirst, ranRest⟩ := run_bind_ok.mp ran
    obtain ⟨entered, still⟩ := ledger_line ranFirst opens
    rw [List.map_cons, List.foldl_cons, ← entered]
    exact ih ranRest still

end Lower

/-! ## Passes -/

theorem Pass.ready_opens (config : Config) (program : Program) :
    (Pass.ready config program).symbols.Open := by
  intro name s found
  cases found

/-- Lines whose steps have no fault are lowered one after the other. -/
theorem run_lines_of_trace {program : Program} {p : Pass}
    (sound : ∀ s ∈ traceFrom p program, s.fault = none) :
    ∃ q, (Lower.lines program).run p = .ok () q := by
  induction program generalizing p with
  | nil => exact ⟨p, rfl⟩
  | cons l rest ih =>
    unfold traceFrom at sound
    cases ran : (Lower.line l).run p with
    | ok _ r =>
      have performed : p.perform (Lower.line l) = (.ok (), r) := by
        simp only [Pass.perform, ran]
      rw [performed] at sound
      obtain ⟨q, ranRest⟩ := ih fun s member => sound s (List.mem_cons_of_mem _ member)
      exact ⟨q, Emit.run_bind_ok.mpr ⟨_, r, ran, ranRest⟩⟩
    | error fault r =>
      have performed : p.perform (Lower.line l) = (.error fault, r) := by
        simp only [Pass.perform, ran]
      rw [performed] at sound
      cases sound _ List.mem_cons_self

/-- What the exit sequence and the check of the labels make of a pass, whether the check succeeds or
    not. -/
theorem lowerProgram_snd {config : Config} {program : Program} {q : Pass}
    (ran : (Lower.lines program).run (Pass.ready config program) = .ok () q) :
    ∃ warnings, (lowerProgram config program).2 =
      { q with text := q.text ++ exitNodes q.config, warnings := warnings } := by
  have checked : ∀ p : Pass, ∃ warnings,
      (p.perform Lower.checkLabels).2 = { p with warnings := warnings } := by
    intro p
    simp only [Pass.perform, Lower.checkLabels, Emit.run_bind, Emit.run_get]
    cases p.labels.validate with
    | ok a => exact ⟨p.warnings, rfl⟩
    | error fault => cases p.config.strictLabels <;> exact ⟨_, rfl⟩
  have ends : (lowerProgram config program).2 =
      (({ q with text := q.text ++ exitNodes q.config } : Pass).perform Lower.checkLabels).2 := by
    simp only [lowerProgram, Pass.perform, Lower.run_program, ran]
    cases Lower.checkLabels.run { q with text := q.text ++ exitNodes q.config } <;> rfl
  rw [ends]
  exact checked _

/-- The ledger of a pass whose steps have no fault is that of its statements. -/
theorem ledger_lowerProgram {config : Config} {program : Program} {q : Pass}
    (ran : (Lower.lines program).run (Pass.ready config program) = .ok () q) :
    (lowerProgram config program).2.ledger =
      (program.map Line.stmt).foldl Ledger.after (Pass.ready config program).ledger := by
  obtain ⟨warnings, same⟩ := lowerProgram_snd ran
  rw [same, ← (Lower.ledger_lines ran (Pass.ready_opens config program)).1]
  have plain : (exitNodes q.config).filterMap Node.label? = [] := by
    unfold exitNodes
    split <;> simp [Node.label?, Op.node]
  simp [Pass.ledger, plain]

end MipsLowering
