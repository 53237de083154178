import Mathlib.Logic.Function.Basic
import MipsLowering.Proofs.Machine

/-! # Scalar programs and what they mean

A scalar program declares integers and then works on variables with labels, jumps, assignments and
prints.  Its meaning is given by an interpreter that knows nothing of registers and cells: a store
holds a word for every variable, and the place that has been come to is the rest of the program from
there on.

* `Stmt.effect?` is what a statement does to the store, what it prints, and where it jumps.
* `Interpreter.step` is one step of the interpreter, and `interpret` runs a program.
* `ScalarProgram` is a program together with what makes it one; such a program never gets stuck
  (`Stmt.Plain.effect?_isSome`).
* `Image.Renders` says that a machine shows what the interpreter shows. -/

namespace MipsLowering

/-! ## Values -/

/-- What the variables hold. -/
abbrev Store := String → Word

/-- The value of an operand: what a variable holds, or the integer that is written there. -/
def Store.value? (σ : Store) (operand : String) : Option Word :=
  if isVariableName operand then some (σ operand)
  else (Text.decimal? operand.toList).map (BitVec.ofInt 32)

/-- The operands of scalar programs are variables and integers. -/
def IsOperand (operand : String) : Prop :=
  isVariableName operand = true ∨ (Text.decimal? operand.toList).isSome = true

instance (operand : String) : Decidable (IsOperand operand) :=
  inferInstanceAs (Decidable (_ ∨ _))

theorem IsOperand.value?_isSome {operand : String} (isOperand : IsOperand operand) (σ : Store) :
    ∃ v, σ.value? operand = some v := by
  unfold Store.value?
  split
  next => exact ⟨σ operand, rfl⟩
  next notName =>
    obtain ⟨n, decimal⟩ := Option.isSome_iff_exists.mp (isOperand.resolve_left notName)
    exact ⟨BitVec.ofInt 32 n, by rw [decimal, Option.map_some]⟩

/-! ## Statements -/

/-- What a statement does. -/
structure Effect where
  store : Store
  printed : List Output
  /-- The label at which to go on, if not behind the statement. -/
  jump : Option String

/-- What a statement does to the variables `σ`, if it means something.  A condition holds if it is not
    zero. -/
def Stmt.effect? (byZero : Word → Word) (σ : Store) : Stmt → Option Effect
  | .declare _ _ _ | .label _ => some ⟨σ, [], none⟩
  | .goto target => some ⟨σ, [], some target⟩
  | .branch condition target none none => do
    let v ← σ.value? condition
    some ⟨σ, [], if v = 0 then none else some target⟩
  | .branch left target (some right) (some symbol) => do
    let op ← BinaryOp.ofSymbol? symbol
    let a ← σ.value? left
    let b ← σ.value? right
    some ⟨σ, [], if op.eval byZero a b = 0 then none else some target⟩
  | .assign name (some left) (some symbol) (some right) => do
    let op ← BinaryOp.ofSymbol? symbol
    let a ← σ.value? left
    let b ← σ.value? right
    some ⟨Function.update σ name (op.eval byZero a b), [], none⟩
  | .assign name (some source) (some symbol) none => do
    let op ← UnaryOp.ofSymbol? symbol
    let a ← σ.value? source
    some ⟨Function.update σ name (op.eval a), [], none⟩
  | .assign name (some source) none none => do
    let a ← σ.value? source
    some ⟨Function.update σ name a, [], none⟩
  | .print value => do
    let a ← σ.value? value
    some ⟨σ, [.int a.toInt], none⟩
  | _ => none

/-- The statements in the body of a scalar program.  Only integers and the variables that are `declared`
    can be printed; the word for another variable would be printed as it stands. -/
inductive Stmt.Plain (declared : List String) : Stmt → Prop where
  | label (name : String) : Plain declared (.label name)
  | goto (target : String) : Plain declared (.goto target)
  | test {condition : String} (target : String) (first : IsOperand condition) :
      Plain declared (.branch condition target none none)
  | relation {left right : String} (op : BinaryOp) (target : String) (first : IsOperand left)
      (second : IsOperand right) :
      Plain declared (.branch left target (some right) (some op.symbol))
  | binary {name left right : String} (op : BinaryOp) (named : isVariableName name = true)
      (first : IsOperand left) (second : IsOperand right) :
      Plain declared (.assign name (some left) (some op.symbol) (some right))
  | unary {name source : String} (op : UnaryOp) (named : isVariableName name = true)
      (first : IsOperand source) : Plain declared (.assign name (some source) (some op.symbol) none)
  | copy {name source : String} (named : isVariableName name = true) (first : IsOperand source) :
      Plain declared (.assign name (some source) none none)
  | print {value : String} (first : value ∈ declared ∨ (Text.decimal? value.toList).isSome = true) :
      Plain declared (.print value)

namespace Stmt

/-- Whether a statement can stand in the body of a scalar program. -/
def isPlain (declared : List String) : Stmt → Bool
  | .label _ | .goto _ => true
  | .branch condition _ none none => decide (IsOperand condition)
  | .branch left _ (some right) (some symbol) =>
    decide (IsOperand left ∧ IsOperand right) && (BinaryOp.ofSymbol? symbol).isSome
  | .assign name (some left) (some symbol) (some right) =>
    isVariableName name && decide (IsOperand left ∧ IsOperand right) &&
      (BinaryOp.ofSymbol? symbol).isSome
  | .assign name (some source) (some symbol) none =>
    isVariableName name && decide (IsOperand source) && (UnaryOp.ofSymbol? symbol).isSome
  | .assign name (some source) none none => isVariableName name && decide (IsOperand source)
  | .print value => decide (value ∈ declared) || (Text.decimal? value.toList).isSome
  | _ => false

theorem symbol_of_binary {symbol : String} (known : (BinaryOp.ofSymbol? symbol).isSome = true) :
    ∃ op : BinaryOp, symbol = op.symbol := by
  obtain ⟨op, found⟩ := Option.isSome_iff_exists.mp known
  have spelled := List.find?_some (p := fun op : BinaryOp => op.symbol == symbol) found
  exact ⟨op, (beq_iff_eq.mp spelled).symm⟩

theorem symbol_of_unary {symbol : String} (known : (UnaryOp.ofSymbol? symbol).isSome = true) :
    ∃ op : UnaryOp, symbol = op.symbol := by
  obtain ⟨op, found⟩ := Option.isSome_iff_exists.mp known
  have spelled := List.find?_some (p := fun op : UnaryOp => op.symbol == symbol) found
  exact ⟨op, (beq_iff_eq.mp spelled).symm⟩

theorem isPlain_iff {declared : List String} {s : Stmt} : s.isPlain declared = true ↔ s.Plain declared := by
  constructor
  · intro plain
    unfold isPlain at plain
    split at plain
    next => exact .label _
    next => exact .goto _
    next => exact .test _ (of_decide_eq_true plain)
    next =>
      simp only [Bool.and_eq_true, decide_eq_true_eq] at plain
      obtain ⟨op, rfl⟩ := symbol_of_binary plain.2
      exact .relation op _ plain.1.1 plain.1.2
    next =>
      simp only [Bool.and_eq_true, decide_eq_true_eq] at plain
      obtain ⟨op, rfl⟩ := symbol_of_binary plain.2
      exact .binary op plain.1.1 plain.1.2.1 plain.1.2.2
    next =>
      simp only [Bool.and_eq_true, decide_eq_true_eq] at plain
      obtain ⟨op, rfl⟩ := symbol_of_unary plain.2
      exact .unary op plain.1.1 plain.1.2
    next =>
      simp only [Bool.and_eq_true, decide_eq_true_eq] at plain
      exact .copy plain.1 plain.2
    next =>
      simp only [Bool.or_eq_true, decide_eq_true_eq] at plain
      exact .print plain
    next => cases plain
  · intro plain
    cases plain with
    | label | goto => rfl
    | test _ first => simpa [isPlain] using first
    | relation op _ first second => simp [isPlain, first, second]
    | binary op named first second => simp [isPlain, named, first, second]
    | unary op named first => simp [isPlain, named, first]
    | copy named first => simp [isPlain, named, first]
    | print first => simpa [isPlain] using first

instance (declared : List String) (s : Stmt) : Decidable (s.Plain declared) :=
  decidable_of_iff _ isPlain_iff

/-- The variables that a statement mentions. -/
def vars : Stmt → List String
  | .branch condition _ operand2 _ => (condition :: operand2.toList).filter isVariableName
  | .assign name operand1 _ operand2 =>
    (name :: operand1.toList ++ operand2.toList).filter isVariableName
  | .print value => [value].filter isVariableName
  | _ => []

/-- The two operands of a statement with an operator between them. -/
def pair? : Stmt → Option (String × String)
  | .branch left _ (some right) (some _) => some (left, right)
  | .assign _ (some left) (some _) (some right) => some (left, right)
  | _ => none

theorem left_mem_vars {s : Stmt} {left right : String} (pair : s.pair? = some (left, right))
    (named : isVariableName left = true) : left ∈ s.vars := by
  unfold pair? at pair
  split at pair
  · cases pair
    simp [vars, named]
  · cases pair
    simp [vars, named]
  · cases pair

/-- Statements of a scalar program mean something, whatever the variables hold. -/
theorem Plain.effect?_isSome {declared : List String} {s : Stmt} (plain : s.Plain declared)
    (words : ∀ name ∈ declared, isVariableName name = true) (byZero : Word → Word) (σ : Store) :
    ∃ e, s.effect? byZero σ = some e := by
  cases plain with
  | label | goto => exact ⟨_, rfl⟩
  | test _ first =>
    obtain ⟨v, value⟩ := first.value?_isSome σ
    exact ⟨_, by simp only [effect?, value]; rfl⟩
  | relation op _ first second =>
    obtain ⟨a, left⟩ := first.value?_isSome σ
    obtain ⟨b, right⟩ := second.value?_isSome σ
    exact ⟨_, by simp only [effect?, BinaryOp.ofSymbol?_symbol, left, right]; rfl⟩
  | binary op _ first second =>
    obtain ⟨a, left⟩ := first.value?_isSome σ
    obtain ⟨b, right⟩ := second.value?_isSome σ
    exact ⟨_, by simp only [effect?, BinaryOp.ofSymbol?_symbol, left, right]; rfl⟩
  | unary op _ first =>
    obtain ⟨a, source⟩ := first.value?_isSome σ
    exact ⟨_, by simp only [effect?, UnaryOp.ofSymbol?_symbol, source]; rfl⟩
  | copy _ first =>
    obtain ⟨a, source⟩ := first.value?_isSome σ
    exact ⟨_, by simp only [effect?, source]; rfl⟩
  | print first =>
    have isOperand : IsOperand _ := first.imp_left (words _)
    obtain ⟨a, value⟩ := isOperand.value?_isSome σ
    exact ⟨_, by simp only [effect?, value]; rfl⟩

/-- A statement jumps to no label but the one that it names. -/
theorem Plain.namedLabel?_of_jump {declared : List String} {s : Stmt} (plain : s.Plain declared)
    {byZero : Word → Word} {σ : Store} {e : Effect} (effect : s.effect? byZero σ = some e) {l : String}
    (jumps : e.jump = some l) : s.namedLabel? = some l := by
  -- A condition leads to the target or does not jump.
  have chosen : ∀ {v : Word} {target : String},
      (if v = 0 then none else some target) = some l → some target = some l := by
    intro v target taken
    split at taken
    · cases taken
    · exact taken
  cases plain with
  | label => cases effect; cases jumps
  | goto => cases effect; exact jumps
  | test =>
    simp only [effect?, Option.bind_eq_bind, Option.bind_eq_some_iff, Option.some.injEq] at effect
    obtain ⟨v, _, rfl⟩ := effect
    exact chosen jumps
  | relation =>
    simp only [effect?, Option.bind_eq_bind, Option.bind_eq_some_iff, Option.some.injEq] at effect
    obtain ⟨op, _, a, _, b, _, rfl⟩ := effect
    exact chosen jumps
  | binary =>
    simp only [effect?, Option.bind_eq_bind, Option.bind_eq_some_iff, Option.some.injEq] at effect
    obtain ⟨op, _, a, _, b, _, rfl⟩ := effect
    cases jumps
  | unary =>
    simp only [effect?, Option.bind_eq_bind, Option.bind_eq_some_iff, Option.some.injEq] at effect
    obtain ⟨op, _, a, _, rfl⟩ := effect
    cases jumps
  | copy | print =>
    simp only [effect?, Option.bind_eq_bind, Option.bind_eq_some_iff, Option.some.injEq] at effect
    obtain ⟨a, _, rfl⟩ := effect
    cases jumps

end Stmt

/-! ## Running programs -/

/-- An interpreter at work: what the variables hold, the program from where it stands, and what was
    printed. -/
structure Interpreter where
  store : Store
  rest : List Stmt
  out : List Output
  status : Status

namespace Interpreter

/-- Goes on behind a statement or at a label.  Of the places of a label the first one counts. -/
def arrive (program : List Stmt) (e : Effect) (rest : List Stmt) (out : List Output) : Interpreter :=
  match e.jump with
  | none => ⟨e.store, rest, out ++ e.printed, .running⟩
  | some label =>
    if .label label ∈ program then
      ⟨e.store, program.dropWhile (· != .label label), out ++ e.printed, .running⟩
    else ⟨e.store, [], out ++ e.printed, .stuck⟩

/-- One step of an interpreter.  A program ends behind its last statement. -/
def step (byZero : Word → Word) (program : List Stmt) (i : Interpreter) : Interpreter :=
  match i.status, i.rest with
  | .running, [] => { i with status := .exited }
  | .running, s :: rest =>
    match s.effect? byZero i.store with
    | some e => arrive program e rest i.out
    | none => { i with status := .stuck }
  | _, _ => i

/-- The interpreter before the first statement; every variable holds zero. -/
def start (program : List Stmt) : Interpreter :=
  ⟨fun _ => 0, program, [], .running⟩

end Interpreter

/-- The interpreter of a program after a number of steps. -/
def interpret (byZero : Word → Word) (program : List Stmt) (n : Nat) : Interpreter :=
  (Interpreter.step byZero program)^[n] (.start program)

/-! ## Scalar programs -/

/-- A declaration of an integer. -/
structure Declaration where
  name : String
  typeName : String
  isGlobal : Bool
  named : isVariableName name = true
  integer : ValueType.ofName typeName = .int

def Declaration.stmt (d : Declaration) : Stmt :=
  .declare d.name (some d.typeName) d.isGlobal

/-- Declarations of integers, and a body in which every label that is jumped to is defined. -/
structure ScalarProgram where
  declarations : List Declaration
  body : List Stmt
  plain : ∀ s ∈ body, s.Plain (declarations.map Declaration.name)
  defined : ∀ s ∈ body, ∀ label ∈ s.namedLabel?, Stmt.label label ∈ body

namespace ScalarProgram

def declared (program : ScalarProgram) : List String :=
  program.declarations.map Declaration.name

def stmts (program : ScalarProgram) : List Stmt :=
  program.declarations.map Declaration.stmt ++ program.body

/-- The variables that the body mentions. -/
def vars (program : ScalarProgram) : List String :=
  program.body.flatMap Stmt.vars

theorem named_of_mem_declared (program : ScalarProgram) :
    ∀ name ∈ program.declared, isVariableName name = true := by
  intro name member
  obtain ⟨d, _, rfl⟩ := List.mem_map.mp member
  exact d.named

end ScalarProgram

/-! ## Agreement -/

/-- A machine that shows what the interpreter of a program shows: at some moment of the one run the
    console holds certain outputs if it does so at some moment of the other, the machine comes to an
    end, in the way `final`, with the outputs with which the program ends, and otherwise it goes on. -/
structure Image.Renders (m : Image) (w : World) (program : List Stmt) (final : Status) : Prop where
  outputs : ∀ out, (∃ n, (interpret w.byZero program n).out = out) ↔
    ∃ n, (m.run w n).content.out = out
  ends : ∀ out,
    (∃ n, (interpret w.byZero program n).status = .exited ∧
      (interpret w.byZero program n).out = out) ↔
    ∃ n, (m.run w n).status = final ∧ (m.run w n).content.out = out
  safe : ∀ n, (m.run w n).status = .running ∨ (m.run w n).status = final

end MipsLowering
