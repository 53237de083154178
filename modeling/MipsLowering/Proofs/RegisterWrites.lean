import MipsLowering.Proofs.ByteMachine
import MipsLowering.Proofs.Faults
import MipsLowering.Proofs.Frame
import MipsLowering.Proofs.StatementCode
import MipsLowering.Proofs.Transcripts

/-! # Where the code of a statement writes

The code of a statement writes to the registers that have a fixed part, and to those that are bound to the
names that the statement mentions.  This is shown action by action (`Emit.Confined`): what an action lays
out writes to nothing else, whether it succeeds or ends in a fault, and every action keeps the bindings that
it finds, so what has been laid out once stays allowed. -/

namespace MipsLowering

-- The class of an operand is only used through the theorems about it.
seal Operand.ofString

/-! ## Operations -/

/-- Where an operation can leave a result. -/
inductive Destination where
  | register (r : Register)
  | lo
  | hi
  deriving Repr, DecidableEq

namespace Op

/-- Whether an operation may write to a destination.  A product of two registers may pass through LO and
    HI; anything can be expected of an operation that is not known. -/
def writes : Op → Destination → Bool
  | .alu .mul dest _ _, d => d == .register dest || d == .lo || d == .hi
  | .alu _ dest _ _, d | .aluImm _ dest _ _, d | .mflo dest, d | .li dest _, d | .la dest _, d
  | .move dest _, d | .load _ dest _, d | .mtc1 _ dest, d => d == .register dest
  | .div _ _, d => d == .lo || d == .hi
  | .jal _, d => d == .register linkRegister
  | .syscall, d => d == .register resultRegister
  | .store _ _ _, _ | .bnez _ _, _ | .beq _ _ _, _ | .j _, _ | .jr _, _ => false
  | .other _ _, _ => true

/-- An operation that writes to one register, and besides at most to LO and HI. -/
def WritesTo (op : Op) (dest : Register) : Prop :=
  ∀ d, op.writes d = true → d = .register dest ∨ d = .lo ∨ d = .hi

/-- An operation that sets a register writes to no other. -/
theorem writesTo_of_sets? {op : Op} {dest : Register} (sets : op.sets? = some dest) :
    op.WritesTo dest := by
  cases op with
  | alu o dest left right =>
    cases sets
    cases o <;> simp [WritesTo, writes, or_assoc]
  | aluImm | mflo | li | la | move | load | jal | syscall =>
    cases sets
    simp [WritesTo, writes]
  | _ => cases sets

theorem writes_of_sets? {op : Op} {dest : Register} (sets : op.sets? = some dest) :
    op.writes (.register dest) = true := by
  cases op with
  | alu o dest left right =>
    cases sets
    cases o <;> simp [writes]
  | aluImm | mflo | li | la | move | load | jal | syscall =>
    cases sets
    simp [writes]
  | _ => cases sets

end Op

/-- An operation leaves the registers alone that it does not write to. -/
theorem Core.exec_of_writes {place : String → Word} {c d : Core} {op : Op} {r : Register}
    (done : c.exec place op = some d) (unwritten : op.writes (.register r) = false) :
    d.reg r = c.reg r := by
  have setReg : ∀ {dest value}, op.sets? = some dest → d = c.setReg dest value → d.reg r = c.reg r := by
    rintro dest value sets rfl
    apply Core.reg_setReg_of_ne
    rintro rfl
    rw [Op.writes_of_sets? sets] at unwritten
    cases unwritten
  cases op with
  | alu | aluImm | la | move => exact setReg rfl (Option.some.inj done).symm
  | li dest value =>
    obtain ⟨n, -, same⟩ := Option.map_eq_some_iff.mp done
    exact setReg rfl same.symm
  | load width dest address =>
    simp only [Core.exec] at done
    split at done
    · exact setReg rfl (Option.some.inj done).symm
    · cases done
  | store width source address =>
    simp only [Core.exec] at done
    split at done
    · cases done
      rfl
    · cases done
  | _ => cases done

theorem BinaryOp.writesTo_code (o : BinaryOp) (dest left right : Register) :
    ∀ i ∈ o.code dest left right, i.op.WritesTo dest := by
  cases o <;> simp [BinaryOp.code, aluCode, flipCode, Op.WritesTo, Op.writes, or_assoc]

theorem UnaryOp.writesTo_code (o : UnaryOp) (dest source : Register) :
    ∀ i ∈ o.code dest source, i.op.WritesTo dest := by
  cases o <;> simp [UnaryOp.code, aluCode, Op.WritesTo, Op.writes]

/-! ## Where a statement may write -/

/-- The destinations that are open to the code of every statement. -/
def Config.workplaces (config : Config) : List Destination :=
  [.register config.scratch0, .register config.scratch1, .register config.addressRegister,
    .register config.indexRegister, .register resultRegister, .register argumentRegister,
    .register stackPointer, .register linkRegister, .register floatArgumentRegister, .lo, .hi]

/-- The names that a statement mentions, if these arguments are queued: its targets, and its operands
    without the blanks around them.  A call mentions the arguments that it passes. -/
def Stmt.mentions (queue : List String) : Stmt → List String
  | .declare name _ _ | .declareArray name _ _ _ | .read name => [name]
  | .branch condition _ operand2 _ => (condition :: operand2.toList).map Text.stripped
  | .assign target operand1 _ operand2 =>
    target :: (operand1.toList ++ operand2.toList).map Text.stripped
  | .arrayLoad target array index => target :: [array, index].map Text.stripped
  | .arrayStore array index value => [array, index, value].map Text.stripped
  | .zeroFill array start stop => [array, start, stop].map Text.stripped
  | .param operand | .print operand => [Text.stripped operand]
  | .call _ count _ _ => (Tables.pushed queue count).map Text.stripped
  | .ret value => value.toList.map Text.stripped
  | .label _ | .goto _ | .comment _ | .malformed _ _ | .unsupported _ | .foreign _ => []

namespace Pass

/-- Where code may write on behalf of these names. -/
def MayWrite (p : Pass) (names : List String) (d : Destination) : Prop :=
  d ∈ p.config.workplaces ∨ ∃ name ∈ names, ∃ r, p.registers.lookup? name = some r ∧ d = .register r

def Allows (p : Pass) (names : List String) (op : Op) : Prop :=
  ∀ d, op.writes d = true → p.MayWrite names d

/-- From one state to another, all code that is laid out is allowed.  Settings and bindings are kept, and
    literals go to the registers that the settings name. -/
structure Confines (names : List String) (p q : Pass) : Prop where
  config : q.config = p.config
  registers : p.registers.Extends q.registers
  scratch : q.registers.scratch = q.config.scratch
  text : ∃ nodes, q.text = p.text ++ nodes ∧ ∀ i, .instr i ∈ nodes → q.Allows names i.op

variable {names : List String} {p q r : Pass}

theorem Confines.refl (scratch : p.registers.scratch = p.config.scratch) : p.Confines names p :=
  ⟨rfl, .refl _, scratch, [], by simp, by simp⟩

/-- Bindings are kept, so what may be written may still be written later. -/
theorem Confines.mayWrite (confines : p.Confines names q) {d : Destination} (may : p.MayWrite names d) :
    q.MayWrite names d := by
  rcases may with fixed | ⟨name, mentioned, r, bound, rfl⟩
  · left
    rw [confines.config]
    exact fixed
  · exact .inr ⟨name, mentioned, r, confines.registers.lookup? bound, rfl⟩

theorem Confines.trans (first : p.Confines names q) (second : q.Confines names r) :
    p.Confines names r := by
  obtain ⟨before, text, allowed⟩ := first.text
  obtain ⟨after, text', allowed'⟩ := second.text
  refine ⟨second.config.trans first.config, first.registers.trans second.registers, second.scratch,
    before ++ after, by rw [text', text, List.append_assoc], fun i member => ?_⟩
  rcases List.mem_append.mp member with early | late
  · exact fun d writes => second.mayWrite (allowed i early d writes)
  · exact allowed' i late

/-- A state in which more nodes are laid out and more names are bound. -/
theorem Confines.lay (reached : p.Confines names q) (config : r.config = q.config)
    (registers : q.registers.Extends r.registers) (nodes : List Node) (text : r.text = q.text ++ nodes)
    (allowed : ∀ i, .instr i ∈ nodes → r.Allows names i.op) : p.Confines names r := by
  refine reached.trans ⟨config, registers, ?_, nodes, text, allowed⟩
  rw [registers.scratch, config, reached.scratch]

theorem Confines.congr (reached : p.Confines names q) (config : r.config = q.config)
    (registers : r.registers = q.registers) (text : r.text = q.text) : p.Confines names r :=
  reached.lay config (registers ▸ .refl _) [] (by rw [text, List.append_nil]) (by simp)

theorem Confines.fixed (reached : p.Confines names q) {d : Destination}
    (fixed : d ∈ q.config.workplaces) : p.MayWrite names d := by
  left
  rw [← reached.config]
  exact fixed

/-- A literal may be wanted in a register that is open to every statement. -/
theorem Confines.wants (reached : p.Confines names q) {r : Register}
    (fixed : .register r ∈ q.config.workplaces) : ∀ r' ∈ some r, p.MayWrite names (.register r') := by
  rintro _ ⟨⟩
  exact reached.fixed fixed

theorem allows_of_silent {op : Op} (silent : op.writes = fun _ => false) : p.Allows names op := by
  intro d writes
  rw [silent] at writes
  cases writes

theorem allows_of_writesTo {op : Op} {dest : Register} (only : op.WritesTo dest)
    (may : p.MayWrite names (.register dest)) : p.Allows names op := by
  intro d writes
  rcases only d writes with rfl | rfl | rfl
  · exact may
  · left; simp [Config.workplaces]
  · left; simp [Config.workplaces]

end Pass

namespace Emit

variable {α β : Type} {names : List String} {p₀ : Pass}

/-- Behind the state `p₀` an action lays out nothing that is not allowed, and `post` holds where it
    succeeds. -/
def Confined (names : List String) (p₀ : Pass) (x : Emit α) (post : α → Pass → Prop) : Prop :=
  ∀ p, p₀.Confines names p →
    match x.run p with
    | .ok a q => p₀.Confines names q ∧ post a q
    | .error _ q => p₀.Confines names q

/-- An action that confines itself, whatever it returns. -/
abbrev Stays (names : List String) (p₀ : Pass) (x : Emit α) : Prop :=
  Confined names p₀ x fun _ _ => True

theorem confined_pure {a : α} {post : α → Pass → Prop} (holds : ∀ q, p₀.Confines names q → post a q) :
    Confined names p₀ (pure a) post :=
  fun p reached => ⟨reached, holds p reached⟩

theorem stays_pure (a : α) : Stays names p₀ (pure a) :=
  confined_pure fun _ _ => trivial

theorem confined_throw (fault : Fault) (post : α → Pass → Prop) :
    Confined names p₀ (throw fault : Emit α) post :=
  fun _ reached => reached

/-- What comes behind an action may begin anew with what the action has done. -/
theorem Confined.bind {x : Emit α} {f : α → Emit β} {post : α → Pass → Prop} {post' : β → Pass → Prop}
    (first : Confined names p₀ x post)
    (second : ∀ a q, p₀.Confines names q → post a q → Confined names q (f a) post') :
    Confined names p₀ (x >>= f) post' := by
  intro p reached
  have here := first p reached
  rw [run_bind]
  cases ran : x.run p with
  | error fault q =>
    rw [ran] at here
    exact here
  | ok a q =>
    rw [ran] at here
    -- The second action is confined behind `q`, and nothing has been laid out behind `q` yet.
    have there := second a q here.1 here.2 q (.refl here.1.scratch)
    dsimp only
    cases ran' : (f a).run q with
    | error fault r =>
      rw [ran'] at there
      exact here.1.trans there
    | ok b r =>
      rw [ran'] at there
      exact ⟨here.1.trans there.1, there.2⟩

/-- What comes behind an action may go on from the same beginning. -/
theorem Confined.next {x : Emit α} {f : α → Emit β} {post : α → Pass → Prop} {post' : β → Pass → Prop}
    (first : Confined names p₀ x post)
    (second : ∀ a q, post a q → Confined names p₀ (f a) post') : Confined names p₀ (x >>= f) post' := by
  intro p reached
  have here := first p reached
  rw [run_bind]
  cases ran : x.run p with
  | error fault q =>
    rw [ran] at here
    exact here
  | ok a q =>
    rw [ran] at here
    exact second a q here.2 q here.1

theorem confined_get_bind {f : Pass → Emit β} {post : β → Pass → Prop}
    (next : ∀ p, p₀.Confines names p → Confined names p₀ (f p) post) :
    Confined names p₀ (get >>= f) post :=
  fun p reached => next p reached p reached

theorem stays_modify {f : Pass → Pass}
    (same : ∀ p, (f p).config = p.config ∧ (f p).registers = p.registers ∧ (f p).text = p.text) :
    Stays names p₀ (modify f) := by
  intro p reached
  obtain ⟨config, registers, text⟩ := same p
  exact ⟨reached.congr config registers text, trivial⟩

theorem Confined.ite {condition : Prop} [Decidable condition] {x y : Emit α} {post : α → Pass → Prop}
    (yes : Confined names p₀ x post) (no : Confined names p₀ y post) :
    Confined names p₀ (if condition then x else y) post := by
  split
  · exact yes
  · exact no

/-! ## Text, labels and symbols -/

theorem stays_code {is : List Instr} (allowed : ∀ i ∈ is, p₀.Allows names i.op) :
    Stays names p₀ (code is) := by
  intro p reached
  refine ⟨reached.lay rfl (.refl _) (is.map Node.instr) rfl fun i member => ?_, trivial⟩
  obtain ⟨j, inCode, same⟩ := List.mem_map.mp member
  obtain rfl : j = i := Node.instr.inj same
  exact fun d writes => reached.mayWrite (allowed j inCode d writes)

theorem stays_op {o : Op} {dest : Register} (sets : o.sets? = some dest)
    (may : p₀.MayWrite names (.register dest)) : Stays names p₀ (op o) :=
  stays_code (by simpa using Pass.allows_of_writesTo (Op.writesTo_of_sets? sets) may)

theorem stays_opNote {o : Op} {comment : String} {dest : Register} (sets : o.sets? = some dest)
    (may : p₀.MayWrite names (.register dest)) : Stays names p₀ (opNote o comment) :=
  stays_code (by simpa using Pass.allows_of_writesTo (Op.writesTo_of_sets? sets) may)

/-- Stores and jumps write to no register. -/
theorem stays_silent {o : Op} {comment : Option String} (silent : o.writes = fun _ => false) :
    Stays names p₀ (code [⟨o, comment⟩]) :=
  stays_code (by simpa using Pass.allows_of_silent silent)

theorem stays_node {n : Node} (noInstr : n.isInstr = false) : Stays names p₀ (node n) := by
  intro p reached
  refine ⟨reached.lay rfl (.refl _) [n] rfl fun i member => ?_, trivial⟩
  obtain rfl := List.mem_singleton.mp member
  cases noInstr

theorem stays_warn (w : Warning) : Stays names p₀ (warn w) :=
  stays_modify fun _ => ⟨rfl, rfl, rfl⟩

theorem stays_diagnose (d : Diagnostic) : Stays names p₀ (diagnose d) :=
  (stays_warn _).next fun _ _ _ =>
    Confined.next (stays_modify fun _ => ⟨rfl, rfl, rfl⟩) fun _ _ _ => stays_node rfl

theorem stays_label (name : String) : Stays names p₀ (label name) := by
  have place : Stays names p₀ (do
      modify fun p : Pass => { p with labels := p.labels.define name }
      node (.label name)) :=
    Confined.next (stays_modify fun _ => ⟨rfl, rfl, rfl⟩) fun _ _ _ => stays_node rfl
  exact confined_get_bind fun _ _ => .ite ((stays_warn _).next fun _ _ _ => place) place

theorem stays_reference (name : String) : Stays names p₀ (reference name) :=
  stays_modify fun _ => ⟨rfl, rfl, rfl⟩

theorem stays_freshLabel (stem : String) (suffixes : List String) :
    Stays names p₀ (freshLabel stem suffixes) :=
  fun _ reached => ⟨reached.congr rfl rfl rfl, trivial⟩

theorem confined_ofNumeral (outcome : Except Text.NumeralFault α) :
    Confined names p₀ (ofNumeral outcome) fun a _ => outcome = .ok a := by
  cases outcome with
  | ok a => exact confined_pure fun _ _ => rfl
  | error fault => exact confined_throw _ _

theorem stays_reserve (s : Symbol) : Stays names p₀ (reserve s) := by
  have append : Stays names p₀ (modify fun p : Pass => { p with data := p.data.append s }) :=
    stays_modify fun _ => ⟨rfl, rfl, rfl⟩
  refine Confined.next (stays_modify fun _ => ⟨rfl, rfl, rfl⟩) fun _ _ _ => ?_
  exact .ite ((confined_throw _ fun _ _ => True).next fun _ _ _ => append) append

theorem stays_declared (outcome : SymbolTable → SymbolTable × Option Symbol) :
    Stays names p₀ (declared outcome) := by
  refine confined_get_bind fun p _ => ?_
  refine Confined.next (stays_modify fun _ => ⟨rfl, rfl, rfl⟩) fun _ _ _ => ?_
  split
  · exact stays_pure _
  · exact stays_reserve _

theorem stays_note (name : String) (type : ValueType) : Stays names p₀ (note name type) :=
  stays_modify fun _ => ⟨rfl, rfl, rfl⟩

theorem stays_intern (kind : LiteralKind) (written : String) : Stays names p₀ (intern kind written) :=
  fun _ reached => ⟨reached.congr rfl rfl rfl, trivial⟩

/-! ## Operands -/

theorem confined_registerFor {name : String} (mentioned : name ∈ names) :
    Confined names p₀ (registerFor name) fun r q => q.MayWrite names (.register r) := by
  intro p reached
  cases ran : (registerFor name).run p with
  | ok r q =>
    obtain ⟨lays, bound⟩ := lays_registerFor ran
    exact ⟨reached.lay lays.config lays.registers [] lays.text (by simp),
      .inr ⟨name, mentioned, r, bound, rfl⟩⟩
  | error fault q =>
    -- Only a name without characters is refused, before anything is done.
    by_cases empty : name = ""
    · subst empty
      have refused : (registerFor "").run p = .error .emptyName p := rfl
      rw [refused] at ran
      cases ran
      exact reached
    · obtain ⟨r, q', succeeds, -⟩ := tame_registerFor empty p
      rw [succeeds] at ran
      cases ran

/-- The register that takes a literal is the one that is wanted, or the first for literals. -/
theorem mayWrite_literalRegister {p : Pass} {wanted : Option Register}
    (reached : p₀.Confines names p) (may : ∀ r ∈ wanted, p₀.MayWrite names (.register r)) :
    p₀.MayWrite names (.register (p.registers.literalRegister wanted)) := by
  have first : p.registers.scratch.getD 0 "" = p₀.config.scratch0 := by
    rw [reached.scratch, reached.config]
    rfl
  have scratch : p₀.MayWrite names (.register (p.registers.scratch.getD 0 "")) := by
    rw [first]
    exact .inl (by simp [Config.workplaces])
  unfold RegisterFile.literalRegister
  split
  next r =>
    split
    · exact scratch
    · exact may r rfl
  next => exact scratch

theorem allows_loadCode {p : Pass} {name : String} {register : Register} (symbol : Option Symbol)
    (may : p.MayWrite names (.register register)) :
    ∀ i ∈ loadCode symbol name register, p.Allows names i.op := by
  intro i member
  unfold loadCode at member
  split at member
  · cases member
  · split at member
    · cases member
    · split at member <;>
        (obtain rfl := List.mem_singleton.mp member
         exact Pass.allows_of_writesTo (Op.writesTo_of_sets? rfl) may)

theorem confined_fetch {operand : String} {wanted : Option Register}
    (mentioned : Text.stripped operand ∈ names) (may : ∀ r ∈ wanted, p₀.MayWrite names (.register r)) :
    Confined names p₀ (fetch operand wanted) fun fetched q => ∀ i ∈ fetched.2, q.Allows names i.op := by
  refine confined_get_bind fun p reached => ?_
  -- A literal is loaded into one register by one operation.
  have allow : ∀ {q : Pass} {o : Op}, p₀.Confines names q →
      o.sets? = some (p.registers.literalRegister wanted) → q.Allows names o := fun reached' sets =>
    Pass.allows_of_writesTo (Op.writesTo_of_sets? sets)
      (reached'.mayWrite (mayWrite_literalRegister reached may))
  dsimp only
  split
  next value => exact confined_pure fun q reached => by simpa using allow reached rfl
  next value =>
    exact (stays_intern _ _).next fun _ _ _ => confined_pure fun q reached => by
      simpa using allow reached rfl
  next value =>
    exact (stays_intern _ _).next fun _ _ _ => confined_pure fun q reached => by
      simpa using allow reached rfl
  next name sort =>
    rw [← Operand.eq_of_ofString_name sort] at mentioned
    -- The name may have been bound just now, so the code is allowed behind that and not before.
    refine (confined_registerFor mentioned).bind fun r p₁ _ may => ?_
    exact confined_get_bind fun _ _ => confined_pure fun q reached =>
      allows_loadCode _ (reached.mayWrite may)

theorem stays_materialize {operand : String} {wanted : Option Register}
    (mentioned : Text.stripped operand ∈ names) (may : ∀ r ∈ wanted, p₀.MayWrite names (.register r)) :
    Stays names p₀ (materialize operand wanted) :=
  (confined_fetch mentioned may).bind fun _ _ _ allowed =>
    (stays_code allowed).next fun _ _ _ => stays_pure _

theorem stays_storeBack (name : String) (register : Register) :
    Stays names p₀ (storeBack name register) := by
  refine confined_get_bind fun p _ => ?_
  split
  · exact stays_pure _
  · exact .ite (stays_pure _) (.ite (stays_diagnose _) (stays_silent rfl))

end Emit

namespace Lower

open Emit

variable {names : List String} {p₀ : Pass}

/-! ## Statements -/

theorem confined_operand {given : Option String} (mentioned : ∀ text ∈ given, Text.stripped text ∈ names) :
    Confined names p₀ (operand given) fun text _ => Text.stripped text ∈ names := by
  cases given with
  | none => exact confined_throw _ _
  | some text => exact confined_pure fun _ _ => mentioned text rfl

theorem stays_binary {target : String} {left : Option String} {symbol right : String}
    (mentionsTarget : target ∈ names) (mentionsLeft : ∀ text ∈ left, Text.stripped text ∈ names)
    (mentionsRight : Text.stripped right ∈ names) : Stays names p₀ (binary target left symbol right) := by
  unfold binary
  split
  · exact stays_diagnose _
  next o _ =>
    refine (stays_note _ _).next fun _ _ _ => ?_
    refine (confined_registerFor mentionsTarget).bind fun dest p₁ _ may => ?_
    refine (confined_operand mentionsLeft).next fun text _ mentionsText => ?_
    refine confined_get_bind fun p reached => ?_
    refine (stays_materialize mentionsText
      (reached.wants (by simp [Config.workplaces]))).next fun first _ _ => ?_
    refine confined_get_bind fun p' reached' => ?_
    refine (stays_materialize mentionsRight (reached'.wants (by simp [Config.workplaces]))).next
      fun second _ _ => ?_
    refine (stays_code fun i inCode => ?_).next fun _ _ _ => stays_storeBack _ _
    exact Pass.allows_of_writesTo (o.writesTo_code dest first second i inCode) may

theorem stays_unary {target symbol : String} {source : Option String} (mentionsTarget : target ∈ names)
    (mentionsSource : ∀ text ∈ source, Text.stripped text ∈ names) :
    Stays names p₀ (unary target symbol source) := by
  unfold unary
  split
  · exact stays_diagnose _
  next o _ =>
    refine (stays_note _ _).next fun _ _ _ => ?_
    refine (confined_registerFor mentionsTarget).bind fun dest p₁ _ may => ?_
    refine (confined_operand mentionsSource).next fun text _ mentionsText => ?_
    refine (stays_materialize mentionsText (by simp)).next fun register _ _ => ?_
    refine (stays_code fun i inCode => ?_).next fun _ _ _ => stays_storeBack _ _
    exact Pass.allows_of_writesTo (o.writesTo_code dest register i inCode) may

theorem stays_loadInto {dest : Register} {source : String} (may : p₀.MayWrite names (.register dest))
    (mentioned : Text.stripped source ∈ names) : Stays names p₀ (loadInto dest source) := by
  unfold loadInto
  split
  · exact stays_op rfl may
  · exact (stays_intern _ _).next fun _ _ _ => stays_opNote rfl may
  · exact (stays_intern _ _).next fun _ _ _ => stays_op rfl may
  next name sort =>
    obtain rfl := Operand.eq_of_ofString_name sort
    exact (stays_materialize mentioned (by simp)).next fun _ _ _ => .ite (stays_op rfl may) (stays_pure _)

theorem stays_assign {target : String} {operand1 operator operand2 : Option String}
    (mentionsTarget : target ∈ names) (mentionsFirst : ∀ text ∈ operand1, Text.stripped text ∈ names)
    (mentionsSecond : ∀ text ∈ operand2, Text.stripped text ∈ names) :
    Stays names p₀ (assign target operand1 operator operand2) := by
  unfold assign
  split
  next right => exact stays_binary mentionsTarget mentionsFirst (mentionsSecond right rfl)
  · exact stays_unary mentionsTarget mentionsFirst
  · refine confined_get_bind fun p _ => (stays_note _ _).next fun _ _ _ => ?_
    refine (confined_registerFor mentionsTarget).bind fun dest p₁ _ may => ?_
    refine (confined_operand mentionsFirst).next fun text _ mentionsText => ?_
    exact (stays_loadInto may mentionsText).next fun _ _ _ => stays_storeBack _ _

theorem stays_relation {left symbol right line : String} (mentionsLeft : Text.stripped left ∈ names)
    (mentionsRight : Text.stripped right ∈ names) : Stays names p₀ (relation left symbol right line) := by
  unfold relation
  split
  · exact (stays_diagnose _).next fun _ _ _ => stays_pure _
  next o _ =>
    refine confined_get_bind fun p reached => ?_
    refine (stays_materialize mentionsLeft
      (reached.wants (by simp [Config.workplaces]))).next fun first _ _ => ?_
    refine (stays_materialize mentionsRight (reached.wants (by simp [Config.workplaces]))).next
      fun second _ _ => ?_
    refine (stays_code fun i inCode => ?_).next fun _ _ _ => stays_pure _
    exact Pass.allows_of_writesTo (o.writesTo_code _ first second i inCode)
      (reached.fixed (by simp [Config.workplaces]))

theorem stays_branch {condition target : String} {operand2 operator : Option String}
    (mentionsFirst : Text.stripped condition ∈ names)
    (mentionsSecond : ∀ text ∈ operand2, Text.stripped text ∈ names) :
    Stays names p₀ (branch condition target operand2 operator) := by
  refine (stays_reference target).next fun _ _ _ => ?_
  split
  next symbol right _ given =>
    have mentionsRight := mentionsSecond right (Stmt.eq_of_given given)
    refine (stays_relation mentionsFirst mentionsRight).next fun _ _ _ => ?_
    split
    · exact stays_silent rfl
    · exact stays_pure _
  · refine confined_get_bind fun p reached => ?_
    exact (stays_materialize mentionsFirst (reached.wants (by simp [Config.workplaces]))).next fun _ _ _ =>
      stays_silent rfl

theorem stays_loadArgument {operand : String} (mentioned : Text.stripped operand ∈ names) :
    Stays names p₀ (loadArgument operand) := by
  have may : p₀.MayWrite names (.register argumentRegister) := .inl (by simp [Config.workplaces])
  have pooled : Stays names p₀ (do
      let register ← materialize operand (some argumentRegister)
      if register != argumentRegister then op (.move argumentRegister register)) :=
    (stays_materialize mentioned (by rintro _ ⟨⟩; exact may)).next fun _ _ _ =>
      .ite (stays_op rfl may) (stays_pure _)
  unfold loadArgument
  split
  · exact stays_op rfl may
  · exact pooled
  · exact pooled
  next name sort =>
    obtain rfl := Operand.eq_of_ofString_name sort
    refine confined_get_bind fun _ _ => ?_
    split
    · exact stays_opNote rfl may
    · exact (stays_materialize mentioned (by simp)).next fun _ _ _ => stays_op rfl may

theorem stays_print {value : String} (mentioned : Text.stripped value ∈ names) :
    Stays names p₀ (print value) := by
  have service : ∀ s : Service, Stays names p₀ (selectService s) := fun s =>
    stays_op rfl (.inl (by simp [Config.workplaces]))
  have call : Stays names p₀ (opNote .syscall ("print " ++ value)) :=
    stays_opNote rfl (.inl (by simp [Config.workplaces]))
  suffices prepared : Stays names p₀ (prepare value) from
    prepared.next fun s _ _ => (service s).next fun _ _ _ => call
  refine confined_get_bind fun p _ => ?_
  dsimp only
  refine .ite ((stays_intern _ _).next fun _ _ _ =>
    (stays_opNote rfl (.inl (by simp [Config.workplaces]))).next fun _ _ _ => stays_pure _) ?_
  split
  · refine confined_get_bind fun p' reached => ?_
    refine (stays_materialize mentioned
      (reached.wants (by simp [Config.workplaces]))).next fun register _ _ => ?_
    have only : (Op.mtc1 register floatArgumentRegister).WritesTo floatArgumentRegister := by
      simp [Op.WritesTo, Op.writes]
    refine Confined.next (stays_code fun i inCode => ?_) fun _ _ _ => stays_pure _
    obtain rfl := List.mem_singleton.mp inCode
    exact Pass.allows_of_writesTo only (.inl (by simp [Config.workplaces]))
  · exact (stays_loadArgument mentioned).next fun _ _ _ => stays_pure _

theorem stays_read (target : String) : Stays names p₀ (read target) := by
  have result : p₀.MayWrite names (.register resultRegister) := .inl (by simp [Config.workplaces])
  have typed : Stays names p₀ (do
      selectService .readInt
      opNote .syscall ("read " ++ target)
      storeBack target resultRegister) :=
    (stays_op rfl result).next fun _ _ _ => (stays_opNote rfl result).next fun _ _ _ => stays_storeBack _ _
  exact confined_get_bind fun _ _ => .ite ((stays_declared _).next fun _ _ _ => typed) typed

theorem stays_ret {value : Option String} (mentioned : ∀ text ∈ value, Text.stripped text ∈ names) :
    Stays names p₀ (ret value) := by
  have result : p₀.MayWrite names (.register resultRegister) := .inl (by simp [Config.workplaces])
  have back : Stays names p₀ (op (.jr linkRegister)) := stays_silent rfl
  unfold ret
  split
  · exact back
  next operand given =>
    dsimp only
    split
    · exact (stays_op rfl result).next fun _ _ _ => back
    · refine (stays_materialize (mentioned operand (Stmt.eq_of_given given))
        (by rintro _ ⟨⟩; exact result)).next fun _ _ _ => ?_
      exact .ite ((stays_op rfl result).next fun _ _ _ => back) back

theorem stays_elementAddress {array index : String} (mentioned : Text.stripped index ∈ names) :
    Stays names p₀ (elementAddress array index) := by
  refine confined_get_bind fun p reached => confined_get_bind fun _ _ => ?_
  have address : p₀.MayWrite names (.register p.config.addressRegister) :=
    reached.fixed (by simp [Config.workplaces])
  refine (stays_opNote rfl address).next fun _ _ _ => ?_
  refine (stays_materialize mentioned (reached.wants (by simp [Config.workplaces]))).next fun _ _ _ => ?_
  refine (stays_op rfl (reached.fixed (by simp [Config.workplaces]))).next fun _ _ _ => ?_
  refine (stays_opNote rfl (reached.fixed (by simp [Config.workplaces]))).next fun _ _ _ => ?_
  exact (stays_op rfl address).next fun _ _ _ => stays_pure _

theorem stays_arrayStore {array index value : String} (mentionsIndex : Text.stripped index ∈ names)
    (mentionsValue : Text.stripped value ∈ names) : Stays names p₀ (arrayStore array index value) := by
  refine (stays_elementAddress mentionsIndex).next fun _ _ _ => confined_get_bind fun p reached => ?_
  refine (stays_materialize mentionsValue
    (reached.wants (by simp [Config.workplaces]))).next fun _ _ _ => ?_
  exact confined_get_bind fun _ _ => stays_silent rfl

theorem stays_arrayLoad {target array index : String} (mentionsTarget : target ∈ names)
    (mentionsIndex : Text.stripped index ∈ names) : Stays names p₀ (arrayLoad target array index) := by
  refine confined_get_bind fun _ _ => (stays_note _ _).next fun _ _ _ => ?_
  refine (confined_registerFor mentionsTarget).bind fun dest p₁ _ may => ?_
  refine (stays_elementAddress mentionsIndex).next fun _ _ _ => ?_
  exact (stays_opNote rfl may).next fun _ _ _ => stays_storeBack _ _

theorem stays_zeroFill {array start stop : String} (mentionsStart : Text.stripped start ∈ names)
    (mentionsStop : Text.stripped stop ∈ names) : Stays names p₀ (zeroFill array start stop) := by
  refine confined_get_bind fun p reached => confined_get_bind fun _ _ => ?_
  have cursor : p₀.MayWrite names (.register p.config.addressRegister) :=
    reached.fixed (by simp [Config.workplaces])
  have index : p₀.MayWrite names (.register p.config.indexRegister) :=
    reached.fixed (by simp [Config.workplaces])
  have scratch : p₀.MayWrite names (.register p.config.scratch0) :=
    reached.fixed (by simp [Config.workplaces])
  refine (stays_opNote rfl cursor).next fun _ _ _ => ?_
  refine (stays_materialize mentionsStart
    (reached.wants (by simp [Config.workplaces]))).next fun _ _ _ => ?_
  -- The index is moved to its register unless it is there already; both ways go on alike.
  refine .ite ((stays_op rfl index).next fun _ _ _ => ?_) ?_
  all_goals
    refine (stays_op rfl scratch).next fun _ _ _ => (stays_op rfl scratch).next fun _ _ _ => ?_
    refine (stays_opNote rfl cursor).next fun _ _ _ => ?_
    refine (stays_materialize mentionsStop
      (reached.wants (by simp [Config.workplaces]))).next fun _ _ _ => ?_
    refine (stays_freshLabel _ _).next fun _ _ _ => (stays_reference _).next fun _ _ _ => ?_
    refine (stays_reference _).next fun _ _ _ => (stays_label _).next fun _ _ _ => ?_
    refine (stays_silent rfl).next fun _ _ _ => confined_get_bind fun _ _ => ?_
    refine (stays_silent rfl).next fun _ _ _ => (stays_op rfl cursor).next fun _ _ _ => ?_
    exact (stays_op rfl index).next fun _ _ _ => (stays_silent rfl).next fun _ _ _ => stays_label _

theorem stays_push (register : Register) (wordSize : Int) : Stays names p₀ (push register wordSize) := by
  have code : ∀ i ∈ pushCode register wordSize, p₀.Allows names i.op := by
    have lowers : p₀.Allows names (.aluImm .addiu stackPointer stackPointer (-wordSize)) :=
      Pass.allows_of_writesTo (Op.writesTo_of_sets? rfl) (.inl (by simp [Config.workplaces]))
    simpa [pushCode] using ⟨lowers, Pass.allows_of_silent rfl⟩
  exact .ite (stays_code code) (confined_throw _ _)

theorem stays_pushAll {arguments : List String}
    (mentioned : ∀ text ∈ arguments, Text.stripped text ∈ names) :
    Stays names p₀ (pushAll arguments) := by
  induction arguments with
  | nil => exact stays_pure _
  | cons argument rest ih =>
    refine confined_get_bind fun p reached => ?_
    refine (stays_materialize (mentioned argument List.mem_cons_self)
      (reached.wants (by simp [Config.workplaces]))).next fun register _ _ => ?_
    exact (stays_push _ _).next fun _ _ _ =>
      ih fun text member => mentioned text (List.mem_cons_of_mem _ member)

theorem allows_popCode {count wordSize : Int} {is : List Instr} (popped : popCode count wordSize = .ok is) :
    ∀ i ∈ is, p₀.Allows names i.op := by
  rcases popCode_cases popped with ⟨-, rfl⟩ | ⟨-, rfl⟩
  · simp
  · have only : (Op.aluImm .addiu stackPointer stackPointer (count * wordSize)).WritesTo stackPointer :=
      Op.writesTo_of_sets? rfl
    simpa using Pass.allows_of_writesTo only (.inl (by simp [Config.workplaces]))

theorem stays_argumentCount (function : String) (count : Option Int) (target rawCount : Option String) :
    Stays names p₀ (argumentCount function count target rawCount) := by
  refine confined_get_bind fun _ _ => ?_
  split
  · exact .ite ((stays_warn _).next fun _ _ _ => stays_pure _) (stays_pure _)
  · exact (stays_diagnose _).next fun _ _ _ => stays_pure _
  · exact stays_pure _

theorem stays_passing {arguments : List String} (mentioned : ∀ text ∈ arguments, Text.stripped text ∈ names)
    (function : String) (n : Int) (target : Option String) :
    Stays names p₀ (do
      pushAll arguments
      reference function
      opNote (.jal function) ("call " ++ function)
      code (← ofNumeral (popCode n (← get).config.wordSize))
      modify fun p : Pass => { p with params := [] }
      match Stmt.given target with
      | none => return
      | some name =>
        declare name .int
        storeBack name resultRegister) := by
  refine (stays_pushAll mentioned).next fun _ _ _ => (stays_reference _).next fun _ _ _ => ?_
  refine (stays_opNote rfl (.inl (by simp [Config.workplaces]))).next fun _ _ _ => ?_
  refine confined_get_bind fun _ _ => ?_
  refine (confined_ofNumeral _).next fun is _ popped => ?_
  refine (stays_code (allows_popCode popped)).next fun _ _ _ => ?_
  refine Confined.next (stays_modify fun _ => ⟨rfl, rfl, rfl⟩) fun _ _ _ => ?_
  split
  · exact stays_pure _
  · exact (stays_declared _).next fun _ _ _ => stays_storeBack _ _

theorem confines_final {α : Type} {x : Emit α} {p : Pass} (reached : p₀.Confines names p)
    (stays : Stays names p₀ x) : p₀.Confines names (Emit.final (x.run p)) := by
  have here := stays p reached
  cases ran : x.run p with
  | ok a q =>
    rw [ran] at here
    exact here.1
  | error fault q =>
    rw [ran] at here
    exact here

theorem confines_call {function : String} {count : Option Int} {target rawCount : Option String} {p : Pass}
    (scratch : p.registers.scratch = p.config.scratch)
    (mentioned : ∀ text ∈ Tables.pushed p.params count, Text.stripped text ∈ names) :
    p.Confines names (final ((call function count target rawCount).run p)) := by
  obtain ⟨n, q, counted, -⟩ := tame_argumentCount function count target rawCount p
  obtain ⟨rfl, nodes, lays, -⟩ := lays_argumentCount counted
  have reached : p.Confines names q := by
    have counts : Stays names p (argumentCount function count target rawCount) :=
      stays_argumentCount function count target rawCount
    have here := confines_final (.refl scratch) counts
    rw [counted] at here
    exact here
  rw [call, run_bind_of_ok counted]
  -- The arguments are those that were queued before the call.
  rw [← lays.params] at mentioned ⊢
  have passed := confines_final reached
    (stays_passing mentioned function (count.getD q.params.length) target)
  exact passed

/-- The code of a statement writes to what the names that it mentions allow. -/
theorem confines_stmt (s : Stmt) {p : Pass} (scratch : p.registers.scratch = p.config.scratch) :
    p.Confines (s.mentions p.params) (final ((stmt s).run p)) := by
  have confined : ∀ {x : Emit Unit}, Stays (s.mentions p.params) p x →
      p.Confines (s.mentions p.params) (final (x.run p)) := confines_final (.refl scratch)
  cases s with
  | call function count target rawCount =>
    exact confines_call scratch fun text member => List.mem_map_of_mem member
  | declare name typeName isGlobal => exact confined (stays_declared (·.declare name _))
  | declareArray name length typeName isGlobal =>
    exact confined (stays_declared (·.declareArray name _ length))
  | label name => exact confined (stays_label _)
  | comment text => exact confined (stays_node rfl)
  | goto target => exact confined ((stays_reference _).next fun _ _ _ => stays_silent rfl)
  | branch condition target operand2 operator =>
    exact confined (stays_branch (by simp [Stmt.mentions])
      fun text given => by simp [Stmt.mentions, Option.mem_def.mp given])
  | assign target operand1 operator operand2 =>
    exact confined (stays_assign (by simp [Stmt.mentions])
      (fun text given => by simp [Stmt.mentions, Option.mem_def.mp given])
      fun text given => by simp [Stmt.mentions, Option.mem_def.mp given])
  | arrayLoad target array index =>
    exact confined (stays_arrayLoad (by simp [Stmt.mentions]) (by simp [Stmt.mentions]))
  | arrayStore array index value =>
    exact confined (stays_arrayStore (by simp [Stmt.mentions]) (by simp [Stmt.mentions]))
  | zeroFill array start stop =>
    exact confined (stays_zeroFill (by simp [Stmt.mentions]) (by simp [Stmt.mentions]))
  | param operand => exact confined (stays_modify fun _ => ⟨rfl, rfl, rfl⟩)
  | ret value =>
    exact confined (stays_ret fun text given => by simp [Stmt.mentions, Option.mem_def.mp given])
  | print value => exact confined (stays_print (by simp [Stmt.mentions]))
  | read target => exact confined (stays_read target)
  | malformed text reason => exact confined (stays_diagnose _)
  | unsupported text => exact confined (stays_diagnose _)
  | foreign text => exact confined (stays_diagnose _)

/-! ## Lines -/

theorem confines_line (l : Line) {p : Pass} (scratch : p.registers.scratch = p.config.scratch) :
    let q := final ((line l).run p)
    q.config = p.config ∧ p.registers.Extends q.registers ∧ q.registers.scratch = q.config.scratch ∧
      ∀ i, .instr i ∈ q.text.drop p.text.length → q.Allows (l.stmt.mentions p.params) i.op := by
  have confines := confines_stmt l.stmt (p := p.blank) scratch
  obtain ⟨nodes, text, allowed⟩ := confines.text
  cases ran : (stmt l.stmt).run p.blank with
  | error fault q =>
    rw [ran] at confines text allowed
    obtain rfl : q.text = nodes := text
    rw [run_line_of_error ran]
    refine ⟨confines.config, confines.registers, confines.scratch, fun i member => ?_⟩
    have inText : .instr i ∈ q.text := by
      simpa [final, Pass.behind, Pass.journal] using member
    exact allowed i inText
  | ok _ q =>
    rw [ran] at confines text allowed
    obtain rfl : q.text = nodes := text
    rw [run_line_of_ok ran]
    refine ⟨confines.config, confines.registers, confines.scratch, fun i member => ?_⟩
    have inText : .instr i ∈ (q.journal.sourced p.config.annotate l.source).text := by
      simpa [final, Pass.behind, Pass.blank, Pass.journal] using member
    -- An annotation changes no operation.
    have bare : (q.journal.sourced p.config.annotate l.source).text.map Node.bare =
        q.text.map Node.bare := by
      cases annotate : p.config.annotate <;> simp [Journal.sourced, Pass.journal]
    obtain ⟨j, inNodes, sameOp⟩ := instr_mem_of_bare bare inText
    exact sameOp ▸ allowed j inNodes

end Lower

/-! ## Steps -/

theorem exists_traceFrom_cons (p : Pass) (l : Line) (rest : Program) :
    ∃ fault, traceFrom p (l :: rest) =
      ⟨l, fault, p, Emit.final ((Lower.line l).run p)⟩ :: traceFrom (Emit.final ((Lower.line l).run p)) rest := by
  simp only [traceFrom, Pass.perform]
  cases (Lower.line l).run p with
  | ok _ q => exact ⟨none, rfl⟩
  | error fault q => exact ⟨some fault, rfl⟩

/-- Every step of a trace leaves the settings alone and keeps the bindings; its code is allowed under the
    bindings that it leaves. -/
theorem confines_traceFrom {program : Program} {p : Pass}
    (scratch : p.registers.scratch = p.config.scratch) :
    ∀ s ∈ traceFrom p program, s.after.config = p.config ∧ p.registers.Extends s.after.registers ∧
      ∀ i, .instr i ∈ s.nodes → s.after.Allows (s.stmt.mentions s.before.params) i.op := by
  induction program generalizing p with
  | nil => simp [traceFrom]
  | cons l rest ih =>
    obtain ⟨config, registers, scratchThen, allowed⟩ := Lower.confines_line l scratch
    obtain ⟨fault, first⟩ := exists_traceFrom_cons p l rest
    rw [first]
    intro s member
    rcases List.mem_cons.mp member with rfl | later
    · exact ⟨config, registers, allowed⟩
    · obtain ⟨config', registers', allowed'⟩ := ih scratchThen s later
      exact ⟨config'.trans config, registers.trans registers', allowed'⟩

/-- No register of the pool is open to every statement, the one for floats aside. -/
theorem Config.not_mem_workplaces {config : Config} (float : floatArgumentRegister ∉ config.pool)
    {r : Register} (pooled : r ∈ config.pool) : .register r ∉ config.workplaces := by
  have apart : ∀ {other : Register}, other ∉ config.pool → Destination.register r ≠ .register other := by
    rintro other spare ⟨⟩
    exact spare pooled
  have reserved : ∀ {other : Register}, other ∈ reservedRegisters →
      Destination.register r ≠ .register other :=
    fun member => apart (config.not_mem_pool_of_reserved member)
  simp only [workplaces, List.mem_cons, List.not_mem_nil, or_false, not_or]
  exact ⟨apart (config.not_mem_pool_of_scratch config.scratch0_mem),
    apart (config.not_mem_pool_of_scratch config.scratch1_mem),
    apart (config.not_mem_pool_of_address config.addressRegister_mem),
    apart (config.not_mem_pool_of_address config.indexRegister_mem),
    reserved (by decide), reserved (by decide), reserved (by decide), reserved (by decide),
    apart float, by simp, by simp⟩

/-- The code of a statement writes to registers with a fixed part and to the registers of the names that the
    statement mentions.  So it leaves the registers of all other names alone, if the pool does not hold the
    register for floats. -/
theorem traceProgram_register_frame (config : Config) (program : Program) :
    ∀ s ∈ (traceProgram config program).1, ∀ i, .instr i ∈ s.nodes →
      let names := s.stmt.mentions s.before.params
      (∀ d, i.op.writes d = true →
        d ∈ config.workplaces ∨
          ∃ name ∈ names, ∃ r, s.after.registers.lookup? name = some r ∧ d = .register r) ∧
      (floatArgumentRegister ∉ config.pool → ∀ r ∈ config.pool,
        (∀ name ∈ names, s.after.registers.lookup? name ≠ some r) →
          i.op.writes (.register r) = false ∧
          (∀ (m : Image) w rest c d flow, w.Respects config →
            m.exec w rest c i.op = some (d, flow) → d.reg r = c.reg r) ∧
          ∀ place (c d : Core), c.exec place i.op = some d → d.reg r = c.reg r) := by
  intro s member i laid names
  obtain ⟨settings, -, allowed⟩ :=
    confines_traceFrom (p := Pass.ready config program) rfl s member
  have may : ∀ d, i.op.writes d = true → d ∈ config.workplaces ∨
      ∃ name ∈ names, ∃ r, s.after.registers.lookup? name = some r ∧ d = .register r := by
    intro d writes
    have here := allowed i laid d writes
    rw [Pass.MayWrite, settings] at here
    exact here
  refine ⟨may, fun float r pooled others => ?_⟩
  have unwritten : i.op.writes (.register r) = false := by
    rw [← Bool.not_eq_true]
    intro writes
    rcases may _ writes with fixed | ⟨name, mentioned, r', bound, same⟩
    · exact config.not_mem_workplaces float pooled fixed
    · cases same
      exact others name mentioned bound
  refine ⟨unwritten, fun m w rest c d flow respects done => ?_, fun place c d done => ?_⟩
  · refine (m.exec_frame respects done).1 r pooled fun sets => ?_
    rw [Op.writes_of_sets? sets] at unwritten
    cases unwritten
  · exact Core.exec_of_writes done unwritten

/-- A sum behind an assignment to another name. -/
def sumsBehind : Program :=
  .ofStmts [.assign "t" (some "2") none none, .assign "x" (some "y") (some "+") (some "1")]

theorem sumsBehind_register_frame :
    ∃ s ∈ (traceProgram (Config.standard false) sumsBehind).1,
      s.stmt = .assign "x" (some "y") (some "+") (some "1") ∧
      s.after.registers.lookup? "t" = some "$s0" ∧
      ∃ i, .instr i ∈ s.nodes ∧ i.op = .alu .add "$s1" "$s2" "$a1" ∧
        (∃ name ∈ ["x", "y", "1"], ∃ r, s.after.registers.lookup? name = some r ∧
          Destination.register "$s1" = .register r) ∧
        i.op.writes (.register "$s0") = false ∧
        ∀ place (c d : Core), c.exec place i.op = some d → d.reg "$s0" = c.reg "$s0" := by
  let steps := (traceProgram (Config.standard false) sumsBehind).1
  obtain ⟨s, at1⟩ : ∃ s, steps[1]? = some s := Option.isSome_iff_exists.mp (by decide +kernel)
  have facts : (steps[1]?.map fun s => (s.stmt, s.nodes, s.before.params,
        ["t", "x", "y", "1"].map s.after.registers.lookup?)) =
      some (.assign "x" (some "y") (some "+") (some "1"),
        [.instr ⟨.li "$a1" "1", some "x = y + 1"⟩,
          .instr ⟨.alu .add "$s1" "$s2" "$a1", some "$s1 = $s2 + $a1"⟩],
        [], [some "$s0", some "$s1", some "$s2", none]) := by
    decide +kernel
  rw [at1] at facts
  simp only [Option.map_some, Option.some.injEq, Prod.mk.injEq, List.map_cons, List.map_nil,
    List.cons.injEq, and_true] at facts
  obtain ⟨stmt, nodes, queue, t, x, y, one⟩ := facts
  have laid : .instr ⟨.alu .add "$s1" "$s2" "$a1", some "$s1 = $s2 + $a1"⟩ ∈ s.nodes := by
    rw [nodes]
    simp
  have names : s.stmt.mentions s.before.params = ["x", "y", "1"] := by
    rw [stmt, queue]
    decide +kernel
  have member := List.mem_of_getElem? at1
  obtain ⟨places, frame⟩ :=
    traceProgram_register_frame (Config.standard false) sumsBehind s member _ laid
  rw [names] at places frame
  have own := (places (.register "$s1") (by decide)).resolve_left (by decide)
  obtain ⟨unwritten, -, kept⟩ := frame (by decide) "$s0" (by decide) (by simp [x, y, one])
  exact ⟨s, member, stmt, t, _, laid, rfl, own, unwritten, kept⟩

end MipsLowering
