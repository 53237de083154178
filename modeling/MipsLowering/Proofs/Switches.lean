import MipsLowering.Proofs.Layout

/-! # What statements take from the settings

A statement looks up the registers that have a fixed part and the size of a word, and nothing else.  The
switches matter only around the statements: to the annotation of lines, to the exit sequence, and to the
check of the labels.  So a pass under other switches is the same pass: lowering commutes with a change of
settings (`Pass.under`), as long as the settings agree in what the statements look up.

Nor does a statement look at what the ones before it have written.  Text, diagnostics and warnings make up
a journal that only ever grows, and lowering commutes with putting another journal before it
(`Pass.behind`). -/

namespace MipsLowering

-- No switch is looked at in the class of an operand, so that it need not be opened.
seal Operand.ofString

/-! ## Settings that agree -/

/-- Settings that give the same parts to the same registers, and the same size to a word. -/
structure Config.Agrees (c d : Config) : Prop where
  scratch : d.scratch = c.scratch
  address : d.address = c.address
  wordSize : d.wordSize = c.wordSize

/-- The same state with other settings. -/
def Pass.under (p : Pass) (config : Config) : Pass :=
  { p with config := config }

namespace Config.Agrees

variable {p : Pass} {config : Config} (agrees : p.config.Agrees config)

include agrees

theorem scratch0 : (p.under config).config.scratch0 = p.config.scratch0 := by
  simp only [Pass.under, Config.scratch0, agrees.scratch]

theorem scratch1 : (p.under config).config.scratch1 = p.config.scratch1 := by
  simp only [Pass.under, Config.scratch1, agrees.scratch]

theorem addressRegister : (p.under config).config.addressRegister = p.config.addressRegister := by
  simp only [Pass.under, Config.addressRegister, agrees.address]

theorem indexRegister : (p.under config).config.indexRegister = p.config.indexRegister := by
  simp only [Pass.under, Config.indexRegister, agrees.address]

end Config.Agrees

/-! ## Journals -/

/-- What a pass writes and never reads. -/
@[ext] structure Journal where
  text : List Node
  diagnostics : List Diagnostic
  warnings : List Warning
  deriving Repr, DecidableEq

/-- The same state with a journal before its own. -/
def Pass.behind (p : Pass) (journal : Journal) : Pass :=
  { p with
    text := journal.text ++ p.text
    diagnostics := journal.diagnostics ++ p.diagnostics
    warnings := journal.warnings ++ p.warnings }

namespace Emit

variable {α β : Type}

/-- The same outcome with other settings in the state. -/
def outcomeUnder (config : Config) : EStateM.Result Fault Pass α → EStateM.Result Fault Pass α
  | .ok a q => .ok a (q.under config)
  | .error fault q => .error fault (q.under config)

/-- The same outcome with a journal before that of the state. -/
def outcomeBehind (journal : Journal) : EStateM.Result Fault Pass α → EStateM.Result Fault Pass α
  | .ok a q => .ok a (q.behind journal)
  | .error fault q => .error fault (q.behind journal)

/-- An action that does the same under all settings that agree, and behind all journals.  It leaves the
    settings alone, and finds no fault with missing labels. -/
structure IsBlind (x : Emit α) : Prop where
  commutes : ∀ p config, p.config.Agrees config →
    x.run (p.under config) = outcomeUnder config (x.run p)
  appends : ∀ p journal, x.run (p.behind journal) = outcomeBehind journal (x.run p)
  keeps : ∀ p a q, x.run p = .ok a q → q.config = p.config
  unchecked : ∀ p labels q, x.run p ≠ .error (.undefinedLabels labels) q

theorem blind_pure (a : α) : IsBlind (pure a) where
  commutes _ _ _ := rfl
  appends _ _ := rfl
  keeps _ _ _ ran := by cases ran; rfl
  unchecked _ _ _ ran := by cases ran

theorem blind_throw {fault : Fault} (other : ∀ labels, fault ≠ .undefinedLabels labels) :
    IsBlind (throw fault : Emit α) where
  commutes _ _ _ := rfl
  appends _ _ := rfl
  keeps _ _ _ ran := by cases ran
  unchecked _ labels _ ran := by
    cases ran
    exact other labels rfl

theorem IsBlind.bind {x : Emit α} {f : α → Emit β} (first : IsBlind x) (second : ∀ a, IsBlind (f a)) :
    IsBlind (x >>= f) where
  commutes p config agrees := by
    rw [run_bind, run_bind, first.commutes p config agrees]
    cases ran : x.run p with
    | error fault q => rfl
    | ok a q =>
      apply (second a).commutes q config
      rw [first.keeps p a q ran]
      exact agrees
  appends p journal := by
    rw [run_bind, run_bind, first.appends p journal]
    cases x.run p with
    | error fault q => rfl
    | ok a q => exact (second a).appends q journal
  keeps p b r ran := by
    obtain ⟨a, q, ranFirst, ranSecond⟩ := run_bind_ok.mp ran
    exact ((second a).keeps q b r ranSecond).trans (first.keeps p a q ranFirst)
  unchecked p labels r ran := by
    rw [run_bind] at ran
    cases ranFirst : x.run p with
    | error fault q =>
      rw [ranFirst] at ran
      cases ran
      exact first.unchecked p labels r ranFirst
    | ok a q =>
      rw [ranFirst] at ran
      exact (second a).unchecked q labels r ran

/-- What an action reads from the state has to be the same under settings that agree, and not in the
    journal. -/
theorem blind_get_bind {f : Pass → Emit β}
    (same : ∀ p config, p.config.Agrees config → f (p.under config) = f p)
    (unread : ∀ p journal, f (p.behind journal) = f p) (next : ∀ p, IsBlind (f p)) :
    IsBlind (get >>= f) where
  commutes p config agrees := by
    show (f (p.under config)).run (p.under config) = outcomeUnder config ((f p).run p)
    rw [same p config agrees]
    exact (next p).commutes p config agrees
  appends p journal := by
    show (f (p.behind journal)).run (p.behind journal) = outcomeBehind journal ((f p).run p)
    rw [unread p journal]
    exact (next p).appends p journal
  keeps p b r ran := (next p).keeps p b r (run_get_bind.mp ran)
  unchecked p labels r ran := (next p).unchecked p labels r ran

theorem blind_modify {f : Pass → Pass} (keeps : ∀ p, (f p).config = p.config)
    (same : ∀ p config, f (p.under config) = (f p).under config)
    (unread : ∀ p journal, f (p.behind journal) = (f p).behind journal) : IsBlind (modify f) where
  commutes p config _ := congrArg (EStateM.Result.ok ()) (same p config)
  appends p journal := congrArg (EStateM.Result.ok ()) (unread p journal)
  keeps p _ _ ran := by cases ran; exact keeps p
  unchecked _ _ _ ran := by cases ran

theorem IsBlind.ite {condition : Prop} [Decidable condition] {x y : Emit α} (yes : IsBlind x)
    (no : IsBlind y) : IsBlind (if condition then x else y) := by
  split
  · exact yes
  · exact no

/-! ## Text, labels and symbols -/

theorem blind_code (is : List Instr) : IsBlind (code is) :=
  blind_modify (fun _ => rfl) (fun _ _ => rfl) fun _ _ => by simp [Pass.behind]

theorem blind_op (o : Op) : IsBlind (op o) :=
  blind_code _

theorem blind_opNote (o : Op) (comment : String) : IsBlind (opNote o comment) :=
  blind_code _

theorem blind_node (n : Node) : IsBlind (node n) :=
  blind_modify (fun _ => rfl) (fun _ _ => rfl) fun _ _ => by simp [Pass.behind]

theorem blind_warn (w : Warning) : IsBlind (warn w) :=
  blind_modify (fun _ => rfl) (fun _ _ => rfl) fun _ _ => by simp [Pass.behind]

theorem blind_diagnose (d : Diagnostic) : IsBlind (diagnose d) :=
  (blind_warn _).bind fun _ =>
    IsBlind.bind (blind_modify (fun _ => rfl) (fun _ _ => rfl) fun _ _ => by simp [Pass.behind])
      fun _ => blind_node _

theorem blind_label (name : String) : IsBlind (label name) := by
  have place : IsBlind (do
      modify fun p : Pass => { p with labels := p.labels.define name }
      node (.label name)) :=
    IsBlind.bind (blind_modify (fun _ => rfl) (fun _ _ => rfl) fun _ _ => rfl) fun _ => blind_node _
  exact blind_get_bind (fun _ _ _ => rfl) (fun _ _ => rfl) fun _ =>
    .ite ((blind_warn _).bind fun _ => place) place

theorem blind_reference (name : String) : IsBlind (reference name) :=
  blind_modify (fun _ => rfl) (fun _ _ => rfl) fun _ _ => rfl

theorem blind_freshLabel (stem : String) (suffixes : List String) :
    IsBlind (freshLabel stem suffixes) where
  commutes _ _ _ := rfl
  appends _ _ := rfl
  keeps _ _ _ ran := by cases ran; rfl
  unchecked _ _ _ ran := by cases ran

theorem blind_ofNumeral (outcome : Except Text.NumeralFault α) : IsBlind (ofNumeral outcome) := by
  cases outcome with
  | ok a => exact blind_pure a
  | error fault => exact blind_throw (by simp)

theorem blind_reserve (s : Symbol) : IsBlind (reserve s) := by
  have append : IsBlind (modify fun p : Pass => { p with data := p.data.append s }) :=
    blind_modify (fun _ => rfl) (fun _ _ => rfl) fun _ _ => rfl
  refine IsBlind.bind (blind_modify (fun _ => rfl) (fun _ _ => rfl) fun _ _ => rfl) fun _ => ?_
  exact .ite ((blind_throw (by simp)).bind fun _ => append) append

theorem blind_declared (outcome : SymbolTable → SymbolTable × Option Symbol) :
    IsBlind (declared outcome) := by
  refine blind_get_bind (fun _ _ _ => rfl) (fun _ _ => rfl) fun p => ?_
  refine IsBlind.bind (blind_modify (fun _ => rfl) (fun _ _ => rfl) fun _ _ => rfl) fun _ => ?_
  split
  · exact blind_pure _
  · exact blind_reserve _

theorem blind_note (name : String) (type : ValueType) : IsBlind (note name type) :=
  blind_modify (fun _ => rfl) (fun _ _ => rfl) fun _ _ => rfl

theorem blind_intern (kind : LiteralKind) (written : String) : IsBlind (intern kind written) where
  commutes _ _ _ := rfl
  appends _ _ := rfl
  keeps _ _ _ ran := by cases ran; rfl
  unchecked _ _ _ ran := by cases ran

/-! ## Operands -/

theorem blind_registerFor (name : String) : IsBlind (registerFor name) := by
  have bind : IsBlind (modify fun p : Pass => { p with registers := p.registers.bind name }) :=
    blind_modify (fun _ => rfl) (fun _ _ => rfl) fun _ _ => rfl
  unfold registerFor
  refine .ite ((blind_throw (by simp)).bind fun _ =>
      blind_get_bind (fun _ _ _ => rfl) (fun _ _ => rfl) fun p => ?_)
    (blind_get_bind (fun _ _ _ => rfl) (fun _ _ => rfl) fun p => ?_)
  all_goals
    dsimp only
    split
    · exact blind_pure _
    · exact .ite ((blind_warn _).bind fun _ => bind.bind fun _ => blind_pure _)
        (bind.bind fun _ => blind_pure _)

theorem blind_fetch (operand : String) (wanted : Option Register) : IsBlind (fetch operand wanted) := by
  refine blind_get_bind (fun _ _ _ => rfl) (fun _ _ => rfl) fun p => ?_
  dsimp only
  split
  · exact blind_pure _
  · exact (blind_intern _ _).bind fun _ => blind_pure _
  · exact (blind_intern _ _).bind fun _ => blind_pure _
  · exact (blind_registerFor _).bind fun _ =>
      blind_get_bind (fun _ _ _ => rfl) (fun _ _ => rfl) fun _ => blind_pure _

theorem blind_materialize (operand : String) (wanted : Option Register) :
    IsBlind (materialize operand wanted) :=
  (blind_fetch operand wanted).bind fun _ => (blind_code _).bind fun _ => blind_pure _

theorem blind_storeBack (name : String) (register : Register) : IsBlind (storeBack name register) := by
  refine blind_get_bind (fun _ _ _ => rfl) (fun _ _ => rfl) fun p => ?_
  split
  · exact blind_pure _
  · exact .ite (blind_pure _) (.ite (blind_diagnose _) (blind_opNote _ _))

end Emit

namespace Lower

open Emit

/-! ## Statements -/

theorem blind_operand (given : Option String) : IsBlind (operand given) := by
  cases given with
  | none => exact blind_throw (by simp)
  | some text => exact blind_pure _

theorem blind_binary (target : String) (left : Option String) (symbol right : String) :
    IsBlind (binary target left symbol right) := by
  unfold binary
  split
  · exact blind_diagnose _
  · refine (blind_note _ _).bind fun _ => (blind_registerFor _).bind fun _ => ?_
    refine (blind_operand _).bind fun _ => blind_get_bind ?_ (fun _ _ => rfl) fun _ => ?_
    · intro p config agrees
      simp only [agrees.scratch0]
    refine (blind_materialize _ _).bind fun _ => blind_get_bind ?_ (fun _ _ => rfl) fun _ => ?_
    · intro p config agrees
      simp only [agrees.scratch1]
    exact (blind_materialize _ _).bind fun _ => (blind_code _).bind fun _ => blind_storeBack _ _

theorem blind_unary (target symbol : String) (source : Option String) :
    IsBlind (unary target symbol source) := by
  unfold unary
  split
  · exact blind_diagnose _
  · refine (blind_note _ _).bind fun _ => (blind_registerFor _).bind fun _ => ?_
    refine (blind_operand _).bind fun _ => (blind_materialize _ _).bind fun _ => ?_
    exact (blind_code _).bind fun _ => blind_storeBack _ _

theorem blind_loadInto (dest : Register) (source : String) : IsBlind (loadInto dest source) := by
  unfold loadInto
  split
  · exact blind_op _
  · exact (blind_intern _ _).bind fun _ => blind_opNote _ _
  · exact (blind_intern _ _).bind fun _ => blind_op _
  · exact (blind_materialize _ _).bind fun _ => .ite (blind_op _) (blind_pure _)

theorem blind_assign (target : String) (operand1 operator operand2 : Option String) :
    IsBlind (assign target operand1 operator operand2) := by
  unfold assign
  split
  · exact blind_binary _ _ _ _
  · exact blind_unary _ _ _
  · refine blind_get_bind (fun _ _ _ => rfl) (fun _ _ => rfl) fun _ => (blind_note _ _).bind fun _ => ?_
    refine (blind_registerFor _).bind fun _ => (blind_operand _).bind fun _ => ?_
    exact (blind_loadInto _ _).bind fun _ => blind_storeBack _ _

theorem blind_relation (left symbol right line : String) : IsBlind (relation left symbol right line) := by
  unfold relation
  split
  · exact (blind_diagnose _).bind fun _ => blind_pure _
  · refine blind_get_bind ?_ (fun _ _ => rfl) fun _ => ?_
    · intro p config agrees
      simp only [agrees.scratch0, agrees.scratch1]
    refine (blind_materialize _ _).bind fun _ => (blind_materialize _ _).bind fun _ => ?_
    exact (blind_code _).bind fun _ => blind_pure _

theorem blind_branch (condition target : String) (operand2 operator : Option String) :
    IsBlind (branch condition target operand2 operator) := by
  refine (blind_reference target).bind fun _ => ?_
  split
  · refine (blind_relation _ _ _ _).bind fun _ => ?_
    split
    · exact blind_opNote _ _
    · exact blind_pure _
  · refine blind_get_bind ?_ (fun _ _ => rfl) fun _ =>
      (blind_materialize _ _).bind fun _ => blind_opNote _ _
    intro p config agrees
    simp only [agrees.scratch0]

theorem blind_loadArgument (operand : String) : IsBlind (loadArgument operand) := by
  have pooled : IsBlind (do
      let register ← materialize operand (some argumentRegister)
      if register != argumentRegister then op (.move argumentRegister register)) :=
    (blind_materialize _ _).bind fun _ => .ite (blind_op _) (blind_pure _)
  unfold loadArgument
  split
  · exact blind_op _
  · exact pooled
  · exact pooled
  · refine blind_get_bind (fun _ _ _ => rfl) (fun _ _ => rfl) fun _ => ?_
    split
    · exact blind_opNote _ _
    · exact (blind_materialize _ _).bind fun _ => blind_op _

theorem blind_print (value : String) : IsBlind (print value) := by
  refine IsBlind.bind (blind_get_bind (fun _ _ _ => rfl) (fun _ _ => rfl) fun p => ?_) fun _ =>
    (blind_op _).bind fun _ => blind_opNote _ _
  dsimp only
  refine .ite ((blind_intern _ _).bind fun _ => (blind_opNote _ _).bind fun _ => blind_pure _) ?_
  split
  · refine blind_get_bind ?_ (fun _ _ => rfl) fun _ => (blind_materialize _ _).bind fun _ => ?_
    · intro p config agrees
      simp only [agrees.scratch0]
    exact (blind_op _).bind fun _ => blind_pure _
  · exact (blind_loadArgument _).bind fun _ => blind_pure _

theorem blind_read (target : String) : IsBlind (read target) := by
  have typed : IsBlind (do
      selectService .readInt
      opNote .syscall ("read " ++ target)
      storeBack target resultRegister) :=
    (blind_op _).bind fun _ => (blind_opNote _ _).bind fun _ => blind_storeBack _ _
  exact blind_get_bind (fun _ _ _ => rfl) (fun _ _ => rfl) fun _ =>
    .ite ((blind_declared _).bind fun _ => typed) typed

theorem blind_ret (value : Option String) : IsBlind (ret value) := by
  unfold ret
  have back : IsBlind (op (.jr linkRegister)) := blind_op _
  split
  · exact back
  · dsimp only
    split
    · exact (blind_op _).bind fun _ => back
    · refine (blind_materialize _ _).bind fun _ => ?_
      exact .ite ((blind_op _).bind fun _ => back) back

theorem blind_elementAddress (array index : String) : IsBlind (elementAddress array index) := by
  refine blind_get_bind ?_ (fun _ _ => rfl) fun _ =>
    blind_get_bind (fun _ _ _ => rfl) (fun _ _ => rfl) fun _ => ?_
  · intro p config agrees
    simp only [agrees.scratch0, agrees.addressRegister, agrees.indexRegister]
  refine (blind_opNote _ _).bind fun _ => (blind_materialize _ _).bind fun _ => ?_
  refine (blind_op _).bind fun _ => (blind_opNote _ _).bind fun _ => ?_
  exact (blind_op _).bind fun _ => blind_pure _

theorem blind_arrayStore (array index value : String) : IsBlind (arrayStore array index value) := by
  refine (blind_elementAddress _ _).bind fun _ => blind_get_bind ?_ (fun _ _ => rfl) fun _ => ?_
  · intro p config agrees
    simp only [agrees.scratch0]
  exact (blind_materialize _ _).bind fun _ =>
    blind_get_bind (fun _ _ _ => rfl) (fun _ _ => rfl) fun _ => blind_opNote _ _

theorem blind_arrayLoad (target array index : String) : IsBlind (arrayLoad target array index) := by
  refine blind_get_bind (fun _ _ _ => rfl) (fun _ _ => rfl) fun _ => (blind_note _ _).bind fun _ => ?_
  refine (blind_registerFor _).bind fun _ => (blind_elementAddress _ _).bind fun _ => ?_
  exact (blind_opNote _ _).bind fun _ => blind_storeBack _ _

theorem blind_zeroFill (array start stop : String) : IsBlind (zeroFill array start stop) := by
  refine blind_get_bind ?_ (fun _ _ => rfl) fun _ =>
    blind_get_bind (fun _ _ _ => rfl) (fun _ _ => rfl) fun _ => ?_
  · intro p config agrees
    simp only [agrees.scratch0, agrees.scratch1, agrees.addressRegister, agrees.indexRegister]
  refine (blind_opNote _ _).bind fun _ => (blind_materialize _ _).bind fun _ => ?_
  -- The index is moved to its register unless it is there already; both ways go on alike.
  refine .ite ((blind_op _).bind fun _ => ?_) ?_
  all_goals
    refine (blind_op _).bind fun _ => (blind_op _).bind fun _ => (blind_opNote _ _).bind fun _ => ?_
    refine (blind_materialize _ _).bind fun _ => (blind_freshLabel _ _).bind fun _ => ?_
    refine (blind_reference _).bind fun _ => (blind_reference _).bind fun _ => ?_
    refine (blind_label _).bind fun _ => (blind_op _).bind fun _ => ?_
    refine blind_get_bind (fun _ _ _ => rfl) (fun _ _ => rfl) fun _ => (blind_op _).bind fun _ => ?_
    exact (blind_op _).bind fun _ => (blind_op _).bind fun _ => (blind_op _).bind fun _ => blind_label _

theorem blind_argumentCount (function : String) (count : Option Int) (target rawCount : Option String) :
    IsBlind (argumentCount function count target rawCount) := by
  refine blind_get_bind (fun _ _ _ => rfl) (fun _ _ => rfl) fun _ => ?_
  split
  · exact .ite ((blind_warn _).bind fun _ => blind_pure _) (blind_pure _)
  · exact (blind_diagnose _).bind fun _ => blind_pure _
  · exact blind_pure _

theorem blind_push (register : Register) (wordSize : Int) : IsBlind (push register wordSize) :=
  .ite (blind_code _) (blind_throw (by simp))

theorem blind_pushAll (arguments : List String) : IsBlind (pushAll arguments) := by
  induction arguments with
  | nil => exact blind_pure _
  | cons argument rest ih =>
    refine blind_get_bind ?_ (fun _ _ => rfl) fun _ => (blind_materialize _ _).bind fun _ => ?_
    · intro p config agrees
      have wordSize : (p.under config).config.wordSize = p.config.wordSize := agrees.wordSize
      simp only [agrees.scratch0, wordSize]
    exact (blind_push _ _).bind fun _ => ih

theorem blind_call (function : String) (count : Option Int) (target rawCount : Option String) :
    IsBlind (call function count target rawCount) := by
  refine (blind_argumentCount _ _ _ _).bind fun _ =>
    blind_get_bind (fun _ _ _ => rfl) (fun _ _ => rfl) fun _ => ?_
  refine (blind_pushAll _).bind fun _ => (blind_reference _).bind fun _ => ?_
  refine (blind_opNote _ _).bind fun _ =>
    blind_get_bind ?_ (fun _ _ => rfl) fun _ => (blind_ofNumeral _).bind fun _ => ?_
  · intro p config agrees
    have wordSize : (p.under config).config.wordSize = p.config.wordSize := agrees.wordSize
    simp only [wordSize]
  refine (blind_code _).bind fun _ => ?_
  refine IsBlind.bind (blind_modify (fun _ => rfl) (fun _ _ => rfl) fun _ _ => rfl) fun _ => ?_
  split
  · exact blind_pure _
  · exact (blind_declared _).bind fun _ => blind_storeBack _ _

theorem blind_stmt (s : Stmt) : IsBlind (stmt s) := by
  cases s with
  | declare name typeName isGlobal => exact blind_declared (·.declare name _)
  | declareArray name length typeName isGlobal => exact blind_declared (·.declareArray name _ length)
  | label name => exact blind_label name
  | comment text => exact blind_node _
  | goto target => exact (blind_reference _).bind fun _ => blind_op _
  | branch condition target operand2 operator => exact blind_branch _ _ _ _
  | assign target operand1 operator operand2 => exact blind_assign _ _ _ _
  | arrayLoad target array index => exact blind_arrayLoad _ _ _
  | arrayStore array index value => exact blind_arrayStore _ _ _
  | zeroFill array start stop => exact blind_zeroFill _ _ _
  | param operand => exact blind_modify (fun _ => rfl) (fun _ _ => rfl) fun _ _ => rfl
  | call function count target rawCount => exact blind_call _ _ _ _
  | ret value => exact blind_ret _
  | print value => exact blind_print _
  | read target => exact blind_read _
  | malformed text reason => exact blind_diagnose _
  | unsupported text => exact blind_diagnose _
  | foreign text => exact blind_diagnose _

/-! ## Lines -/

variable {p : Pass} {config : Config}

theorem run_line_under (agrees : p.config.Agrees config) (annotate : config.annotate = p.config.annotate)
    (l : Line) : (line l).run (p.under config) = outcomeUnder config ((line l).run p) := by
  have commutes : (stmt l.stmt).run { p.under config with text := [] } =
      outcomeUnder config ((stmt l.stmt).run { p with text := [] }) :=
    (blind_stmt l.stmt).commutes { p with text := [] } config agrees
  -- The switch is read off the settings before the statement is lowered.
  have switch : (p.under config).config.annotate = p.config.annotate := annotate
  show line l (p.under config) = outcomeUnder config (line l p)
  unfold line
  rw [switch, commutes]
  cases (stmt l.stmt).run { p with text := [] } <;> rfl

theorem config_line {l : Line} {q : Pass} (ran : (line l).run p = .ok () q) : q.config = p.config := by
  obtain ⟨r, own, lowered, rfl, -⟩ := run_line_ok ran
  have kept : r.config = ({ p with text := [] } : Pass).config := (blind_stmt l.stmt).keeps _ _ _ lowered
  exact kept

theorem unchecked_line {l : Line} {labels : List String} {q : Pass} :
    (line l).run p ≠ .error (.undefinedLabels labels) q := by
  intro ran
  simp only [line, EStateM.run] at ran
  split at ran
  next => cases ran
  next fault r failed =>
    cases ran
    exact (blind_stmt l.stmt).unchecked _ labels r failed

theorem run_lines_under (agrees : p.config.Agrees config) (annotate : config.annotate = p.config.annotate)
    (program : Program) :
    (lines program).run (p.under config) = outcomeUnder config ((lines program).run p) := by
  induction program generalizing p with
  | nil => rfl
  | cons l rest ih =>
    unfold lines
    rw [run_bind, run_bind, run_line_under agrees annotate]
    cases ran : (line l).run p with
    | error fault q => rfl
    | ok _ q =>
      have config := config_line ran
      exact ih (config ▸ agrees) (config ▸ annotate)

theorem unchecked_lines {program : Program} {labels : List String} {q : Pass} :
    (lines program).run p ≠ .error (.undefinedLabels labels) q := by
  induction program generalizing p with
  | nil =>
    intro ran
    cases ran
  | cons l rest ih =>
    intro ran
    unfold lines at ran
    rw [run_bind] at ran
    cases lowered : (line l).run p with
    | ok _ r =>
      rw [lowered] at ran
      exact ih ran
    | error fault r =>
      rw [lowered] at ran
      cases ran
      exact unchecked_line lowered

end Lower

end MipsLowering
