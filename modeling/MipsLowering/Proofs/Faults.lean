import Mathlib.Algebra.Group.Nat.Defs
import MipsLowering.Proofs.Layout

/-! # Where a pass ends in a fault

Almost every action of a pass succeeds from any state, as long as the operands that it looks up are not
blank; such actions are `Emit.Tame`, and they leave the cells and the queue of arguments alone.  What is
left are three statements that break a pass: a read of an array element without an index, and an array
or a release of the stack whose size has too many digits to be written.

`Pass.After` says what the lines before a place have made of the cells and of the queue.  With it the
statements that break a pass are told from the program alone (`Stmt.Breaks`).  A pass over a program
succeeds exactly if there is none (`lines_succeed_iff`), and ends in the fault of the first one otherwise
(`lines_fail_iff`). -/

namespace MipsLowering

/-- An operand that is not blank. -/
def Text.Filled (operand : String) : Prop :=
  Text.stripped operand ≠ ""

instance : DecidablePred Text.Filled :=
  fun operand => inferInstanceAs (Decidable (Text.stripped operand ≠ ""))

/-- The numbers that can be written are those below a power of ten. -/
theorem Text.isWritable_iff (n : Int) : isWritable n = true ↔ n.natAbs < 10 ^ numeralLimit := by
  simp only [isWritable, decide_eq_true_eq]
  exact Nat.length_toDigits_le_iff (by decide) (by decide)

open Text (Filled)

/-! ## Tame actions -/

/-- Names without a cell are scalars. -/
def SymbolTable.Sound (t : SymbolTable) : Prop :=
  ∀ name s, t.lookup? name = some s → s.inMemory = false → s.kind = .scalar

/-- States that differ in nothing that decides whether a statement can be lowered. -/
structure Pass.Alike (p q : Pass) : Prop where
  config : q.config = p.config
  params : q.params = p.params
  cells : ∀ name, q.symbols.isInMemory name = p.symbols.isInMemory name
  sound : p.symbols.Sound → q.symbols.Sound

namespace Pass.Alike

theorem refl (p : Pass) : p.Alike p :=
  ⟨rfl, rfl, fun _ => rfl, id⟩

theorem trans {p q r : Pass} (first : p.Alike q) (second : q.Alike r) : p.Alike r :=
  ⟨second.config.trans first.config, second.params.trans first.params,
    fun name => (second.cells name).trans (first.cells name),
    fun sound => second.sound (first.sound sound)⟩

end Pass.Alike

namespace Emit

/-- An action that succeeds from every state and leads to a state like it. -/
def Tame {α : Type} (x : Emit α) : Prop :=
  ∀ p, ∃ a q, x.run p = .ok a q ∧ p.Alike q

/-- An action that ends in a fault from every state. -/
def Fails {α : Type} (fault : Fault) (x : Emit α) : Prop :=
  ∀ p, ∃ q, x.run p = .error fault q

variable {α β : Type} {fault : Fault}

theorem tame_pure (a : α) : Tame (pure a) :=
  fun p => ⟨a, p, rfl, .refl p⟩

theorem Tame.bind {x : Emit α} {f : α → Emit β} (first : Tame x) (second : ∀ a, Tame (f a)) :
    Tame (x >>= f) := by
  intro p
  obtain ⟨a, q, ran, alike⟩ := first p
  obtain ⟨b, r, ran', alike'⟩ := second a q
  exact ⟨b, r, run_bind_ok.mpr ⟨a, q, ran, ran'⟩, alike.trans alike'⟩

theorem tame_pure_bind {a : α} {f : α → Emit β} (next : Tame (f a)) : Tame (pure a >>= f) :=
  next

theorem tame_get_bind {f : Pass → Emit β} (next : ∀ p, Tame (f p)) : Tame (get >>= f) :=
  fun p => next p p

theorem Tame.ite {condition : Prop} [Decidable condition] {x y : Emit α} (yes : Tame x)
    (no : Tame y) : Tame (if condition then x else y) := by
  split
  · exact yes
  · exact no

theorem tame_modify {f : Pass → Pass} (alike : ∀ p : Pass, p.Alike (f p)) : Tame (modify f) :=
  fun p => ⟨(), f p, rfl, alike p⟩

theorem Fails.bind {x : Emit α} (fails : Fails fault x) (f : α → Emit β) : Fails fault (x >>= f) := by
  intro p
  obtain ⟨q, ran⟩ := fails p
  exact ⟨q, by rw [run_bind, ran]⟩

theorem fails_get_bind {f : Pass → Emit β} (next : ∀ p, Fails fault (f p)) : Fails fault (get >>= f) :=
  fun p => next p p

theorem Tame.bind_fails {x : Emit α} {f : α → Emit β} (first : Tame x)
    (second : ∀ a, Fails fault (f a)) : Fails fault (x >>= f) := by
  intro p
  obtain ⟨a, q, ran, _⟩ := first p
  obtain ⟨r, ran'⟩ := second a q
  exact ⟨r, by rw [run_bind, ran]; exact ran'⟩

/-! ### Text, labels and operands -/

theorem tame_node (n : Node) : Tame (node n) :=
  tame_modify fun _ => ⟨rfl, rfl, fun _ => rfl, id⟩

theorem tame_code (is : List Instr) : Tame (code is) :=
  tame_modify fun _ => ⟨rfl, rfl, fun _ => rfl, id⟩

theorem tame_op (o : Op) : Tame (op o) :=
  tame_code _

theorem tame_opNote (o : Op) (comment : String) : Tame (opNote o comment) :=
  tame_code _

theorem tame_warn (w : Warning) : Tame (warn w) :=
  tame_modify fun _ => ⟨rfl, rfl, fun _ => rfl, id⟩

theorem tame_diagnose (d : Diagnostic) : Tame (diagnose d) := by
  refine (tame_warn _).bind fun _ => Tame.bind (tame_modify fun p => ?_) fun _ => tame_node _
  exact ⟨rfl, rfl, fun _ => rfl, id⟩

theorem tame_reference (name : String) : Tame (reference name) :=
  tame_modify fun _ => ⟨rfl, rfl, fun _ => rfl, id⟩

theorem tame_label (name : String) : Tame (label name) := by
  refine tame_get_bind fun p => ?_
  have define : Tame (modify fun p => { p with labels := p.labels.define name }) :=
    tame_modify fun _ => ⟨rfl, rfl, fun _ => rfl, id⟩
  split
  · exact (tame_warn _).bind fun _ => define.bind fun _ => tame_node _
  · exact define.bind fun _ => tame_node _

theorem tame_freshLabel (stem : String) (suffixes : List String) : Tame (freshLabel stem suffixes) :=
  fun _ => ⟨_, _, rfl, rfl, rfl, fun _ => rfl, id⟩

theorem tame_intern (kind : LiteralKind) (written : String) : Tame (intern kind written) :=
  fun _ => ⟨_, _, rfl, rfl, rfl, fun _ => rfl, id⟩

theorem tame_note (name : String) (type : ValueType) : Tame (note name type) := by
  refine tame_modify fun p => ⟨rfl, rfl, fun other => ?_, fun sound other s => ?_⟩
  · simp only [SymbolTable.isInMemory_eq_cell?, SymbolTable.cell?_note]
  -- A name that is recorded for the first time is recorded as a scalar.
  · unfold SymbolTable.note
    split
    next absent =>
      rw [SymbolTable.lookup?_add]
      intro found unbacked
      cases old : p.symbols.lookup? other with
      | some s' =>
        rw [old, Option.some_or, Option.some.injEq] at found
        exact sound other s (found ▸ old) unbacked
      | none =>
        simp only [old, Option.none_or] at found
        split at found
        · cases found; rfl
        · cases found
    next => exact sound other s

theorem tame_registerFor {name : String} (given : name ≠ "") : Tame (registerFor name) := by
  have filled : name.isEmpty = false := by simpa using given
  simp only [registerFor, filled]
  refine tame_get_bind fun p => ?_
  split
  · exact tame_pure _
  · have bind : Tame (modify fun p => { p with registers := p.registers.bind name }) :=
      tame_modify fun _ => ⟨rfl, rfl, fun _ => rfl, id⟩
    -- An exhausted pool is only worth a warning.
    split
    · exact (tame_warn _).bind fun _ => bind.bind fun _ => tame_pure _
    · exact bind.bind fun _ => tame_pure _

theorem fails_registerFor : Fails .emptyName (registerFor "") :=
  fun p => ⟨p, rfl⟩

theorem tame_fetch {operand : String} (filled : Filled operand) (wanted : Option Register) :
    Tame (fetch operand wanted) := by
  refine tame_get_bind fun p => ?_
  dsimp only
  split
  · exact tame_pure _
  · exact (tame_intern _ _).bind fun _ => tame_pure _
  · exact (tame_intern _ _).bind fun _ => tame_pure _
  next name sort =>
    have given : name ≠ "" := by
      rw [Operand.eq_of_ofString_name sort]
      exact filled
    exact (tame_registerFor given).bind fun _ => tame_get_bind fun _ => tame_pure _

theorem tame_materialize {operand : String} (filled : Filled operand) (wanted : Option Register) :
    Tame (materialize operand wanted) :=
  (tame_fetch filled wanted).bind fun _ => (tame_code _).bind fun _ => tame_pure _

theorem fails_materialize {operand : String} (blank : ¬ Filled operand) (wanted : Option Register) :
    Fails .emptyName (materialize operand wanted) := by
  have empty : Text.stripped operand = "" := not_not.mp blank
  -- A blank operand is taken for a name, and there is no register for the empty name.
  have sort : Operand.ofString "" = .name "" := by decide
  have failing : Fails .emptyName (fetch operand wanted) := by
    intro p
    obtain ⟨q, ran⟩ := fails_registerFor p
    refine ⟨q, ?_⟩
    simp only [fetch, empty, sort, run_bind, run_get, ran]
  exact failing.bind _

theorem tame_storeBack (name : String) (register : Register) : Tame (storeBack name register) := by
  refine tame_get_bind fun p => ?_
  split
  · exact tame_pure _
  · split
    · exact tame_pure _
    · split
      · exact tame_diagnose _
      · exact tame_opNote _ _

end Emit

/-! ## Statements -/

namespace Stmt

/-- A statement whose operands are there and not blank.  The index of an element that is read may be
    empty. -/
def Filled : Stmt → Prop
  | .branch condition _ operand2 _ =>
    Text.Filled condition ∧ ∀ right, given operand2 = some right → Text.Filled right
  | .assign target operand1 _ operand2 =>
    target ≠ "" ∧ (∃ left, operand1 = some left ∧ Text.Filled left) ∧
      ∀ right, operand2 = some right → Text.Filled right
  | .arrayLoad target _ index => target ≠ "" ∧ (index ≠ "" → Text.Filled index)
  | .arrayStore _ index value => Text.Filled index ∧ Text.Filled value
  | .zeroFill _ start stop => Text.Filled start ∧ Text.Filled stop
  | .param operand => Text.Filled operand
  | .ret value => ∀ operand, given value = some operand → Text.Filled operand
  | .print value => Text.Filled value
  | _ => True

end Stmt

namespace Lower

open Emit

variable {target symbol : String}

/-! ### Assignments -/

theorem tame_binary {left right : String} (named : target ≠ "") (filled : Filled left)
    (filled' : Filled right) : Tame (binary target (some left) symbol right) := by
  unfold binary
  split
  · exact tame_diagnose _
  · refine (tame_note _ _).bind fun _ => (tame_registerFor named).bind fun _ => ?_
    refine tame_pure_bind (tame_get_bind fun _ => ?_)
    refine (tame_materialize filled _).bind fun _ => tame_get_bind fun _ => ?_
    refine (tame_materialize filled' _).bind fun _ => ?_
    exact (tame_code _).bind fun _ => tame_storeBack _ _

theorem tame_unary {source : String} (named : target ≠ "") (filled : Filled source) :
    Tame (unary target symbol (some source)) := by
  unfold unary
  split
  · exact tame_diagnose _
  · refine (tame_note _ _).bind fun _ => (tame_registerFor named).bind fun _ => ?_
    refine tame_pure_bind ((tame_materialize filled _).bind fun _ => ?_)
    exact (tame_code _).bind fun _ => tame_storeBack _ _

theorem tame_loadInto {source : String} (filled : Filled source) (dest : Register) :
    Tame (loadInto dest source) := by
  unfold loadInto
  split
  · exact tame_op _
  · exact (tame_intern _ _).bind fun _ => tame_opNote _ _
  · exact (tame_intern _ _).bind fun _ => tame_op _
  next name sort =>
    obtain rfl := Operand.eq_of_ofString_name sort
    refine (tame_materialize filled _).bind fun _ => ?_
    split
    · exact tame_op _
    · exact tame_pure _

theorem tame_copy {source : String} (named : target ≠ "") (filled : Filled source) :
    Tame (copy target (some source)) := by
  refine tame_get_bind fun _ => (tame_note _ _).bind fun _ => (tame_registerFor named).bind fun _ => ?_
  exact tame_pure_bind ((tame_loadInto filled _).bind fun _ => tame_storeBack _ _)

theorem tame_assign {operand1 operator operand2 : Option String}
    (filled : (Stmt.assign target operand1 operator operand2).Filled) :
    Tame (assign target operand1 operator operand2) := by
  obtain ⟨named, ⟨left, rfl, filledLeft⟩, filledRight⟩ := filled
  cases operator with
  | none => exact tame_copy named filledLeft
  | some symbol =>
    cases operand2 with
    | none => exact tame_unary named filledLeft
    | some right => exact tame_binary named filledLeft (filledRight right rfl)

/-! ### Jumps, console and returns -/

theorem tame_goto (target : String) : Tame (goto target) :=
  (tame_reference target).bind fun _ => tame_op _

theorem tame_relation {left right : String} (filled : Filled left) (filled' : Filled right)
    (symbol line : String) : Tame (relation left symbol right line) := by
  unfold relation
  split
  · exact (tame_diagnose _).bind fun _ => tame_pure _
  · refine tame_get_bind fun _ => (tame_materialize filled _).bind fun _ => ?_
    refine (tame_materialize filled' _).bind fun _ => ?_
    exact (tame_code _).bind fun _ => tame_pure _

theorem tame_branch {condition : String} {operand2 operator : Option String}
    (filled : (Stmt.branch condition target operand2 operator).Filled) :
    Tame (branch condition target operand2 operator) := by
  obtain ⟨filledLeft, filledRight⟩ := filled
  refine (tame_reference target).bind fun _ => ?_
  split
  next symbol right _ given =>
    refine (tame_relation filledLeft (filledRight right given) _ _).bind fun _ => ?_
    split
    · exact tame_opNote _ _
    · exact tame_pure _
  next => exact tame_get_bind fun _ => (tame_materialize filledLeft _).bind fun _ => tame_opNote _ _

theorem tame_loadArgument {operand : String} (filled : Filled operand) :
    Tame (loadArgument operand) := by
  have pooled : Tame (do
      let register ← materialize operand (some argumentRegister)
      if register != argumentRegister then op (.move argumentRegister register)) :=
    (tame_materialize filled _).bind fun _ => .ite (tame_op _) (tame_pure _)
  unfold loadArgument
  split
  · exact tame_op _
  · exact pooled
  · exact pooled
  next name sort =>
    obtain rfl := Operand.eq_of_ofString_name sort
    refine tame_get_bind fun _ => ?_
    split
    · exact tame_opNote _ _
    · exact (tame_materialize filled _).bind fun _ => tame_op _

theorem tame_print {value : String} (filled : Filled value) : Tame (print value) := by
  refine Tame.bind (tame_get_bind fun _ => ?_) fun _ => (tame_op _).bind fun _ => tame_opNote _ _
  dsimp only
  split
  · exact (tame_intern _ _).bind fun _ => (tame_opNote _ _).bind fun _ => tame_pure _
  · split
    · refine tame_get_bind fun _ => (tame_materialize filled _).bind fun _ => ?_
      exact (tame_op _).bind fun _ => tame_pure _
    · exact (tame_loadArgument filled).bind fun _ => tame_pure _

theorem tame_ret {value : Option String} (filled : (Stmt.ret value).Filled) : Tame (ret value) := by
  unfold ret
  have back : Tame (op (.jr linkRegister)) := tame_op _
  split
  · exact tame_pure_bind back
  next operand given =>
    dsimp only
    split
    · exact (tame_op _).bind fun _ => back
    · refine (tame_materialize (filled operand given) _).bind fun _ => ?_
      exact .ite ((tame_op _).bind fun _ => back) back

/-! ### Arrays -/

theorem tame_elementAddress {index : String} (filled : Filled index) (array : String) :
    Tame (elementAddress array index) := by
  refine tame_get_bind fun _ => tame_get_bind fun _ => (tame_opNote _ _).bind fun _ => ?_
  refine (tame_materialize filled _).bind fun _ => (tame_op _).bind fun _ => ?_
  exact (tame_opNote _ _).bind fun _ => (tame_op _).bind fun _ => tame_pure _

theorem tame_arrayStore {index value : String} (filled : Filled index) (filled' : Filled value)
    (array : String) : Tame (arrayStore array index value) := by
  refine (tame_elementAddress filled array).bind fun _ => tame_get_bind fun _ => ?_
  exact (tame_materialize filled' _).bind fun _ => tame_get_bind fun _ => tame_opNote _ _

theorem tame_arrayLoad {index : String} (named : target ≠ "") (filled : Filled index)
    (array : String) : Tame (arrayLoad target array index) := by
  refine tame_get_bind fun _ => (tame_note _ _).bind fun _ => (tame_registerFor named).bind fun _ => ?_
  refine (tame_elementAddress filled array).bind fun _ => ?_
  exact (tame_opNote _ _).bind fun _ => tame_storeBack _ _

theorem fails_arrayLoad {index : String} (named : target ≠ "") (blank : ¬ Filled index)
    (array : String) : Fails .emptyName (arrayLoad target array index) := by
  have address : Fails .emptyName (elementAddress array index) := by
    refine fails_get_bind fun _ => fails_get_bind fun _ => (tame_opNote _ _).bind_fails fun _ => ?_
    exact (fails_materialize blank _).bind _
  refine fails_get_bind fun _ => (tame_note _ _).bind_fails fun _ => ?_
  exact (tame_registerFor named).bind_fails fun _ => address.bind _

theorem tame_zeroFill {start stop : String} (filled : Filled start) (filled' : Filled stop)
    (array : String) : Tame (zeroFill array start stop) := by
  refine tame_get_bind fun config => tame_get_bind fun _ => (tame_opNote _ _).bind fun _ => ?_
  have fill : ∀ (index last : Register) (cursor : Register) (size : Nat), Tame (do
      let loop ← freshLabel "arr_pad" ["", "_end"]
      let exit := loop ++ "_end"
      reference loop
      reference exit
      label loop
      op (.beq index last exit)
      op (.store ((← get).symbols.elementType array).width zeroRegister (.base cursor))
      op (.aluImm .addiu cursor cursor size)
      op (.aluImm .addiu index index 1)
      op (.j loop)
      label exit) := by
    intro index last cursor size
    refine (tame_freshLabel _ _).bind fun _ => (tame_reference _).bind fun _ => ?_
    refine (tame_reference _).bind fun _ => (tame_label _).bind fun _ => (tame_op _).bind fun _ => ?_
    refine tame_get_bind fun _ => (tame_op _).bind fun _ => (tame_op _).bind fun _ => ?_
    exact (tame_op _).bind fun _ => (tame_op _).bind fun _ => tame_label _
  refine (tame_materialize filled _).bind fun first => ?_
  -- The index is moved to its register unless it is there already; both ways go on alike.
  refine Tame.ite ((tame_op _).bind fun _ => ?_) ?_
  all_goals
    refine (tame_op _).bind fun _ => (tame_op _).bind fun _ => (tame_opNote _ _).bind fun _ => ?_
    exact (tame_materialize filled' _).bind fun _ => fill _ _ _ _

/-! ### Calls -/

theorem tame_argumentCount (function : String) (count : Option Int) (target rawCount : Option String) :
    Tame (argumentCount function count target rawCount) := by
  refine tame_get_bind fun _ => ?_
  split
  · exact .ite ((tame_warn _).bind fun _ => tame_pure _) (tame_pure _)
  · exact (tame_diagnose _).bind fun _ => tame_pure _
  · exact tame_pure _

/-- Arguments are pushed if none is blank and the size of a word can be written. -/
theorem pushAll_succeeds {arguments : List String} {p : Pass} (filled : ∀ a ∈ arguments, Filled a)
    (writable : arguments ≠ [] → Text.isWritable p.config.wordSize = true) :
    ∃ q, (pushAll arguments).run p = .ok () q ∧ p.Alike q := by
  induction arguments generalizing p with
  | nil => exact ⟨p, rfl, .refl p⟩
  | cons argument rest ih =>
    obtain ⟨first, others⟩ := List.forall_mem_cons.mp filled
    have written := writable (List.cons_ne_nil _ _)
    obtain ⟨register, p₁, fetched, alike₁⟩ := tame_materialize first (some p.config.scratch0) p
    obtain ⟨_, p₂, coded, alike₂⟩ := tame_code (pushCode register p.config.wordSize) p₁
    have alike := alike₁.trans alike₂
    obtain ⟨q, ran, alike₃⟩ := @ih p₂ others fun _ => alike.config ▸ written
    refine ⟨q, ?_, alike.trans alike₃⟩
    simp only [pushAll, run_get_bind]
    exact run_bind_ok.mpr ⟨register, p₁, fetched, run_bind_ok.mpr ⟨(), p₂, run_push_ok.mpr ⟨written, coded⟩, ran⟩⟩

/-- If it cannot be written, then already the first push fails. -/
theorem pushAll_fails {arguments : List String} {p : Pass} (filled : ∀ a ∈ arguments, Filled a)
    (nonempty : arguments ≠ []) (unwritable : Text.isWritable p.config.wordSize = false) :
    ∃ q, (pushAll arguments).run p = .error (.numeral .write) q := by
  cases arguments with
  | nil => exact absurd rfl nonempty
  | cons argument rest =>
    obtain ⟨register, p₁, fetched, -⟩ :=
      tame_materialize (List.forall_mem_cons.mp filled).1 (some p.config.scratch0) p
    refine ⟨p₁, ?_⟩
    rw [pushAll, run_bind_of_ok (run_get p), run_bind_of_ok fetched, push, Text.isWritable_neg, unwritable]
    rfl

/-- What is pushed is not blank. -/
theorem filled_of_pushAll {arguments : List String} {p q : Pass} (ran : (pushAll arguments).run p = .ok () q) :
    ∀ a ∈ arguments, Filled a := by
  induction arguments generalizing p with
  | nil => exact List.forall_mem_nil _
  | cons argument rest ih =>
    simp only [pushAll, run_get_bind] at ran
    obtain ⟨register, p₁, fetched, ran⟩ := run_bind_ok.mp ran
    obtain ⟨_, p₂, -, ran⟩ := run_bind_ok.mp ran
    refine List.forall_mem_cons.mpr ⟨?_, ih ran⟩
    by_contra blank
    obtain ⟨r, failed⟩ := fails_materialize blank (some p.config.scratch0) p
    cases failed.symm.trans fetched

end Lower

/-! ## Declarations -/

namespace SymbolTable

variable {t : SymbolTable} {name : String} {make : Option Symbol → Symbol}

theorem Sound.giveCell (sound : t.Sound) (named : (make (t.lookup? name)).name = name)
    (backed : (make (t.lookup? name)).inMemory = true) : (t.giveCell name make).1.Sound := by
  intro other s found unbacked
  rw [lookup?_giveCell named] at found
  split at found
  · cases found
    rw [backed] at unbacked
    cases unbacked
  · exact sound other s found unbacked

end SymbolTable

namespace Emit

variable {p : Pass} (name : String) (make : Option Symbol → Symbol)

theorem run_giveCell
    (writable : p.symbols.isInMemory name = false → (make (p.symbols.lookup? name)).isWritable = true) :
    ∃ q, (declared (·.giveCell name make)).run p = .ok () q ∧ q.config = p.config ∧
      q.params = p.params ∧ q.symbols = (p.symbols.giveCell name make).1 := by
  cases backed : p.symbols.isInMemory name with
  | true =>
    refine ⟨p, run_giveCell_of_backed name make backed, rfl, rfl, ?_⟩
    rw [SymbolTable.giveCell_of_isInMemory backed]
  | false =>
    have ran := run_giveCell_of_unbacked name make backed rfl
    rw [writable backed] at ran
    exact ⟨_, ran, rfl, rfl, rfl⟩

theorem run_giveCell_error (unbacked : p.symbols.isInMemory name = false)
    (unwritable : (make (p.symbols.lookup? name)).isWritable = false) :
    ∃ q, (declared (·.giveCell name make)).run p = .error (.numeral .write) q := by
  have ran := run_giveCell_of_unbacked name make unbacked rfl
  rw [unwritable] at ran
  exact ⟨_, ran⟩

end Emit

/-! ## What the lines before a place have done -/

namespace Stmt

/-- The names that have a cell behind a statement, whether they had one before or not. -/
def cellNames : Stmt → List String
  | .declare name _ _ | .declareArray name _ _ _ | .read name => [name]
  | .call _ _ target _ => (given target).toList
  | _ => []

/-- The arguments that are queued behind a statement. -/
def queue (queued : List String) : Stmt → List String
  | .param operand => queued ++ [operand]
  | .call .. => []
  | _ => queued

/-- A statement that breaks a pass over a program in which `history` stands before it: a read of an
    element without an index, a first declaration of an array whose size or length has too many digits,
    or a call that releases a stretch of the stack whose size has too many digits. -/
def Breaks (config : Config) (history : List Stmt) : Stmt → Prop
  | .arrayLoad _ _ index => ¬ Text.Filled index
  | .declareArray name length typeName _ =>
    name ∉ history.flatMap cellNames ∧
      ¬ ((max 1 length.toNat * (ValueType.ofGivenName typeName).size < 10 ^ Text.numeralLimit) ∧
        length.natAbs < 10 ^ Text.numeralLimit)
  | .call _ count _ _ =>
    let passed := count.getD (history.foldl queue []).length
    0 < passed ∧ 10 ^ Text.numeralLimit ≤ (passed * config.wordSize).natAbs
  | _ => False

/-- The fault in which a statement ends that breaks a pass. -/
def breakage : Stmt → Fault
  | .arrayLoad .. => .emptyName
  | _ => .numeral .write

end Stmt

/-- What the lines before a place have made of the cells and of the queue. -/
structure Pass.After (config : Config) (history : List Stmt) (p : Pass) : Prop where
  config : p.config = config
  sound : p.symbols.Sound
  cells : ∀ name, p.symbols.isInMemory name = true ↔ name ∈ history.flatMap Stmt.cellNames
  params : p.params = history.foldl Stmt.queue []
  filled : ∀ a ∈ p.params, Filled a

namespace Pass.After

variable {config : Config} {history : List Stmt} {p q : Pass} {s : Stmt}

theorem alike (after : p.After config history) (alike : p.Alike q) : q.After config history where
  config := alike.config.trans after.config
  sound := alike.sound after.sound
  cells name := by rw [alike.cells, after.cells]
  params := alike.params.trans after.params
  filled a member := after.filled a (alike.params ▸ member)

/-- A statement that declares nothing and leaves the queue alone makes no difference. -/
theorem plain (after : p.After config history) (plain : s.cellNames = [])
    (still : ∀ queued, s.queue queued = queued) : p.After config (history ++ [s]) where
  config := after.config
  sound := after.sound
  cells name := by
    rw [after.cells, List.flatMap_append]
    simp [plain]
  params := by
    rw [after.params, List.foldl_append]
    exact (still _).symm
  filled := after.filled

/-- Behind a statement that gives a name a cell and leaves the queue alone. -/
theorem giveCell (after : p.After config history) {name : String} {make : Option Symbol → Symbol}
    (named : (make (p.symbols.lookup? name)).name = name)
    (backed : (make (p.symbols.lookup? name)).inMemory = true) (sameConfig : q.config = p.config)
    (sameParams : q.params = p.params) (symbols : q.symbols = (p.symbols.giveCell name make).1)
    (declares : s.cellNames = [name]) (still : ∀ queued, s.queue queued = queued) :
    q.After config (history ++ [s]) where
  config := sameConfig.trans after.config
  sound := by
    rw [symbols]
    exact after.sound.giveCell named backed
  cells other := by
    rw [symbols, SymbolTable.isInMemory_giveCell named backed, after.cells]
    simp [List.flatMap_append, declares]
  params := by
    rw [sameParams, after.params, List.foldl_append]
    exact (still _).symm
  filled a member := after.filled a (sameParams ▸ member)

end Pass.After

namespace Emit

theorem run_declare {p : Pass} (sound : p.symbols.Sound) (name : String) (type : ValueType) :
    ∃ q, (declare name type).run p = .ok () q ∧ q.config = p.config ∧ q.params = p.params ∧
      q.symbols = (p.symbols.giveCell name (SymbolTable.declaredEntry name type)).1 := by
  apply run_giveCell
  intro unbacked
  cases entry : p.symbols.lookup? name with
  | none => rfl
  | some old =>
    -- A name without a cell was only assigned to, and a scalar is always small enough.
    have scalar : old.kind = .scalar := by
      apply sound name old entry
      simpa [SymbolTable.isInMemory, entry] using unbacked
    simp [Symbol.isWritable, scalar]

end Emit

namespace Lower

open Emit

variable {config : Config} {history : List Stmt} {p : Pass} {s : Stmt}

theorem run_tame {x : Emit Unit} (after : p.After config history) (tame : Tame x)
    (plain : s.cellNames = []) (still : ∀ queued, s.queue queued = queued) :
    ∃ q, x.run p = .ok () q ∧ q.After config (history ++ [s]) := by
  obtain ⟨_, q, ran, alike⟩ := tame p
  exact ⟨q, ran, (after.alike alike).plain plain still⟩

theorem run_declaration (after : p.After config history) (name : String) (type : ValueType)
    (declares : s.cellNames = [name]) (still : ∀ queued, s.queue queued = queued) :
    ∃ q, (Emit.declare name type).run p = .ok () q ∧ q.After config (history ++ [s]) := by
  obtain ⟨q, ran, sameConfig, sameParams, symbols⟩ := Emit.run_declare after.sound name type
  exact ⟨q, ran, after.giveCell (SymbolTable.name_declaredEntry name type)
    (SymbolTable.inMemory_declaredEntry name type _)
    sameConfig sameParams symbols declares still⟩

theorem run_read (after : p.After config history) (target : String) :
    ∃ q, (read target).run p = .ok () q ∧ q.After config (history ++ [.read target]) := by
  have tame : Tame (do
      selectService .readInt
      opNote .syscall ("read " ++ target)
      storeBack target resultRegister) :=
    (tame_op _).bind fun _ => (tame_opNote _ _).bind fun _ => tame_storeBack _ _
  obtain ⟨q, declared, between⟩ :=
    run_declaration (s := .read target) after target .int rfl fun _ => rfl
  obtain ⟨_, r, ran, alike⟩ := tame q
  refine ⟨r, ?_, between.alike alike⟩
  cases backed : p.symbols.isInMemory target with
  | true =>
    -- The target has its cell, so nothing would be declared.
    have same : q = p := by
      rw [Emit.run_declare_ok declared, Pass.declaring_of_isInMemory .int backed]
    simp only [read, run_get_bind, backed]
    exact same ▸ ran
  | false =>
    simp only [read, run_get_bind, backed]
    exact run_bind_ok.mpr ⟨_, q, declared, ran⟩

/-- A call up to where it comes back. -/
theorem run_call_front {function : String} {count : Option Int} {target rawCount : Option String}
    (filled : ∀ a ∈ p.params.drop (p.params.length - (count.getD p.params.length).toNat), Filled a)
    (writable : p.params.drop (p.params.length - (count.getD p.params.length).toNat) ≠ [] →
      Text.isWritable p.config.wordSize = true) :
    ∃ q, p.Alike q ∧
      (call function count target rawCount).run p =
        (do
          code (← ofNumeral (popCode (count.getD p.params.length) p.config.wordSize))
          modify fun p => { p with params := [] }
          match Stmt.given target with
          | none => return
          | some name =>
            declare name .int
            storeBack name resultRegister : Emit Unit).run q := by
  obtain ⟨n, p₁, counted, alike₁⟩ := tame_argumentCount function count target rawCount p
  obtain ⟨rfl, -⟩ := lays_argumentCount counted
  rw [← alike₁.params] at filled
  rw [← alike₁.params, ← alike₁.config] at writable
  obtain ⟨p₂, pushed, alike₂⟩ := pushAll_succeeds filled writable
  obtain ⟨_, p₃, referenced, alike₃⟩ := tame_reference function p₂
  obtain ⟨_, p₄, jumped, alike₄⟩ := tame_opNote (.jal function) ("call " ++ function) p₃
  have alike := ((alike₁.trans alike₂).trans alike₃).trans alike₄
  refine ⟨p₄, alike, ?_⟩
  rw [alike₁.params] at pushed
  unfold call
  rewrite [run_bind_of_ok counted, run_bind_of_ok (run_get p₁), alike₁.params, run_bind_of_ok pushed,
    run_bind_of_ok referenced, run_bind_of_ok jumped, run_bind_of_ok (run_get p₄), alike.config]
  rfl

theorem popCode_eq_ok_iff {n wordSize : Int} :
    (∃ is, popCode n wordSize = .ok is) ↔ ¬ (0 < n ∧ 10 ^ Text.numeralLimit ≤ (n * wordSize).natAbs) := by
  unfold popCode
  by_cases positive : n ≤ 0
  · simp only [positive, if_true, Except.ok.injEq, exists_eq', true_iff]
    omega
  · rw [if_neg positive]
    cases writable : Text.isWritable (n * wordSize) with
    | true =>
      have short := (Text.isWritable_iff _).mp writable
      simp [Nat.not_le.mpr short]
    | false =>
      have long : 10 ^ Text.numeralLimit ≤ (n * wordSize).natAbs := by
        rw [← Nat.not_lt, ← Text.isWritable_iff, writable]
        simp
      have some : 0 < n := by omega
      simp [long, some]

theorem popCode_error {n wordSize : Int} {fault : Text.NumeralFault}
    (failed : popCode n wordSize = .error fault) : fault = .write := by
  unfold popCode at failed
  split at failed
  · cases failed
  · split at failed
    · cases failed
      rfl
    · cases failed

/-- If there is something to push, then the size of a word can be written whenever what is released can. -/
theorem isWritable_of_popCode {n wordSize : Int} (released : ∃ is, popCode n wordSize = .ok is)
    {queue : List String} (nonempty : queue.drop (queue.length - n.toNat) ≠ []) :
    Text.isWritable wordSize = true := by
  have positive : 0 < n := by
    by_contra none
    exact nonempty (by simp [show n.toNat = 0 by omega])
  have short : (n * wordSize).natAbs < 10 ^ Text.numeralLimit := by
    have short := popCode_eq_ok_iff.mp released
    simpa [positive] using short
  rw [Text.isWritable_iff]
  calc wordSize.natAbs = 1 * wordSize.natAbs := (Nat.one_mul _).symm
    _ ≤ n.natAbs * wordSize.natAbs := Nat.mul_le_mul_right _ (by omega)
    _ = (n * wordSize).natAbs := (Int.natAbs_mul _ _).symm
    _ < 10 ^ Text.numeralLimit := short

/-- A call is lowered if nothing that it passes is blank and what it releases can be written. -/
theorem call_succeeds (sound : p.symbols.Sound) {function : String} {count : Option Int}
    {target rawCount : Option String}
    (filled : ∀ a ∈ p.params.drop (p.params.length - (count.getD p.params.length).toNat), Filled a)
    (released : ∃ is, popCode (count.getD p.params.length) p.config.wordSize = .ok is) :
    ∃ q, (call function count target rawCount).run p = .ok () q ∧
      q.config = p.config ∧ q.params = [] ∧ q.symbols.Sound ∧
      ∀ name, q.symbols.isInMemory name = true ↔
        p.symbols.isInMemory name = true ∨ name ∈ (Stmt.given target).toList := by
  obtain ⟨p₁, alike₁, front⟩ := run_call_front filled (isWritable_of_popCode released)
  obtain ⟨is, size⟩ := released
  obtain ⟨_, p₂, coded, alike₂⟩ := tame_code is p₁
  have alike := alike₁.trans alike₂
  have numeral : (ofNumeral (.ok is)).run p₁ = .ok is p₁ := rfl
  rw [front, size, run_bind_of_ok numeral, run_bind_of_ok coded, run_bind_of_ok (run_modify _ p₂)]
  -- The queue is empty now; what is left is the cell of the target.
  cases given : Stmt.given target with
  | none =>
    refine ⟨_, rfl, alike.config, rfl, alike.sound sound, fun name => ?_⟩
    simpa using Iff.of_eq (congrArg (· = true) (alike.cells name))
  | some name =>
    obtain ⟨p₃, declared, sameConfig, sameParams, symbols⟩ :=
      Emit.run_declare (p := { p₂ with params := [] }) (alike.sound sound) name .int
    obtain ⟨_, q, stored, alike₄⟩ := tame_storeBack name resultRegister p₃
    have named := SymbolTable.name_declaredEntry (t := p₂.symbols) name .int
    have backed := SymbolTable.inMemory_declaredEntry name .int (p₂.symbols.lookup? name)
    refine ⟨q, run_bind_ok.mpr ⟨_, p₃, declared, stored⟩,
      (alike₄.config.trans sameConfig).trans alike.config, alike₄.params.trans sameParams,
      alike₄.sound ?_, fun other => ?_⟩
    · rw [symbols]
      exact (alike.sound sound).giveCell named backed
    · rw [alike₄.cells, symbols, SymbolTable.isInMemory_giveCell named backed, alike.cells]
      simp

theorem call_fails_of_size {function : String} {count : Option Int} {target rawCount : Option String}
    (filled : ∀ a ∈ p.params.drop (p.params.length - (count.getD p.params.length).toNat), Filled a)
    (unwritable : ¬ ∃ is, popCode (count.getD p.params.length) p.config.wordSize = .ok is) :
    ∃ q, (call function count target rawCount).run p = .error (.numeral .write) q := by
  by_cases writable : p.params.drop (p.params.length - (count.getD p.params.length).toNat) ≠ [] →
      Text.isWritable p.config.wordSize = true
  case neg =>
    obtain ⟨nonempty, unwritable⟩ := Classical.not_imp.mp writable
    obtain ⟨n, p₁, counted, alike₁⟩ := tame_argumentCount function count target rawCount p
    obtain ⟨rfl, -⟩ := lays_argumentCount counted
    rw [← alike₁.params] at filled nonempty
    rw [← alike₁.config, Bool.not_eq_true] at unwritable
    obtain ⟨q, failed⟩ := pushAll_fails filled nonempty unwritable
    rw [alike₁.params] at failed
    refine ⟨q, ?_⟩
    unfold call
    rw [run_bind_of_ok counted, run_bind_of_ok (run_get p₁), alike₁.params, run_bind, failed]
  obtain ⟨p₁, -, front⟩ := run_call_front filled writable
  cases size : popCode (count.getD p.params.length) p.config.wordSize with
  | ok is => exact absurd ⟨is, size⟩ unwritable
  | error fault =>
    obtain rfl := popCode_error size
    rw [front, size]
    exact ⟨p₁, rfl⟩

theorem run_call (after : p.After config history) {function : String} {count : Option Int}
    {target rawCount : Option String}
    (holds : ¬ (Stmt.call function count target rawCount).Breaks config history) :
    ∃ q, (call function count target rawCount).run p = .ok () q ∧
      q.After config (history ++ [.call function count target rawCount]) := by
  have released : ∃ is, popCode (count.getD p.params.length) p.config.wordSize = .ok is := by
    rw [after.params, after.config]
    exact popCode_eq_ok_iff.mpr holds
  obtain ⟨q, ran, sameConfig, empty, sound, cells⟩ := @call_succeeds p after.sound function count target
    rawCount (fun a member => after.filled a (List.mem_of_mem_drop member)) released
  refine ⟨q, ran, sameConfig.trans after.config, sound, fun name => ?_, ?_, by simp [empty]⟩
  · rw [cells, after.cells]
    simp [List.flatMap_append, Stmt.cellNames]
  · rw [empty, List.foldl_append]
    rfl

theorem run_call_error (after : p.After config history) {function : String} {count : Option Int}
    {target rawCount : Option String}
    (breaks : (Stmt.call function count target rawCount).Breaks config history) :
    ∃ q, (call function count target rawCount).run p = .error (.numeral .write) q := by
  apply call_fails_of_size fun a member => after.filled a (List.mem_of_mem_drop member)
  rw [after.params, after.config, popCode_eq_ok_iff]
  exact not_not_intro breaks

/-! ### All statements -/

theorem stmt_succeeds (after : p.After config history) (filled : s.Filled)
    (holds : ¬ s.Breaks config history) :
    ∃ q, (stmt s).run p = .ok () q ∧ q.After config (history ++ [s]) := by
  cases s with
  | declare name typeName isGlobal => exact run_declaration after name _ rfl fun _ => rfl
  | declareArray name length typeName isGlobal =>
    obtain ⟨q, ran, sameConfig, sameParams, symbols⟩ := Emit.run_giveCell (p := p) name
      (fun _ => ⟨name, .array, .ofGivenName typeName, length, true⟩) fun unbacked => by
        have unknown : name ∉ history.flatMap Stmt.cellNames := by
          rw [← after.cells, unbacked]
          simp
        obtain ⟨size, digits⟩ := not_not.mp fun short => holds ⟨unknown, short⟩
        simp only [Symbol.isWritable, Bool.and_eq_true, Text.isWritable_iff, Int.natAbs_natCast]
        exact ⟨size, digits⟩
    exact ⟨q, ran, after.giveCell rfl rfl sameConfig sameParams symbols rfl fun _ => rfl⟩
  | label name => exact run_tame after (tame_label name) rfl fun _ => rfl
  | comment text => exact run_tame after (tame_node _) rfl fun _ => rfl
  | goto target => exact run_tame after (tame_goto target) rfl fun _ => rfl
  | branch condition target operand2 operator =>
    exact run_tame after (tame_branch filled) rfl fun _ => rfl
  | assign target operand1 operator operand2 =>
    exact run_tame after (tame_assign filled) rfl fun _ => rfl
  | arrayLoad target array index =>
    exact run_tame after (tame_arrayLoad filled.1 (not_not.mp holds) array) rfl fun _ => rfl
  | arrayStore array index value =>
    exact run_tame after (tame_arrayStore filled.1 filled.2 array) rfl fun _ => rfl
  | zeroFill array start stop =>
    exact run_tame after (tame_zeroFill filled.1 filled.2 array) rfl fun _ => rfl
  | param operand =>
    refine ⟨_, rfl, after.config, after.sound, fun name => ?_, ?_, fun a member => ?_⟩
    · rw [after.cells, List.flatMap_append]
      simp [Stmt.cellNames]
    · rw [List.foldl_append, ← after.params]
      rfl
    · rcases List.mem_append.mp member with before | now
      · exact after.filled a before
      · obtain rfl := List.mem_singleton.mp now
        exact filled
  | call function count target rawCount => exact run_call after holds
  | ret value => exact run_tame after (tame_ret filled) rfl fun _ => rfl
  | print value => exact run_tame after (tame_print filled) rfl fun _ => rfl
  | read target => exact run_read after target
  | malformed text reason => exact run_tame after (tame_diagnose _) rfl fun _ => rfl
  | unsupported text => exact run_tame after (tame_diagnose _) rfl fun _ => rfl
  | foreign text => exact run_tame after (tame_diagnose _) rfl fun _ => rfl

theorem stmt_fails (after : p.After config history) (filled : s.Filled)
    (breaks : s.Breaks config history) : ∃ q, (stmt s).run p = .error s.breakage q := by
  cases s with
  | declareArray name length typeName isGlobal =>
    obtain ⟨unknown, short⟩ := breaks
    apply Emit.run_giveCell_error (p := p) name
      fun _ => ⟨name, .array, .ofGivenName typeName, length, true⟩
    · rw [← Bool.not_eq_true, after.cells]
      exact unknown
    · rw [← Bool.not_eq_true]
      simp only [Symbol.isWritable, Bool.and_eq_true, Text.isWritable_iff, Int.natAbs_natCast]
      exact short
  | arrayLoad target array index => exact fails_arrayLoad filled.1 breaks array p
  | call function count target rawCount => exact run_call_error after breaks
  | _ => exact breaks.elim

end Lower

/-! ## Programs -/

namespace Lower

open Emit

variable {config : Config} {history : List Stmt} {p : Pass}

theorem line_succeeds {l : Line} (after : p.After config history) (filled : l.stmt.Filled)
    (holds : ¬ l.stmt.Breaks config history) :
    ∃ q, (line l).run p = .ok () q ∧ q.After config (history ++ [l.stmt]) := by
  -- A line is lowered with an empty text, which no statement looks at.
  have fresh : Pass.After config history { p with text := [] } :=
    ⟨after.config, after.sound, after.cells, after.params, after.filled⟩
  obtain ⟨q, ran, behind⟩ := stmt_succeeds fresh filled holds
  refine ⟨{ q with text := p.text ++ if p.config.annotate then Node.annotate l.source q.text else q.text },
    ?_, behind.config, behind.sound, behind.cells, behind.params, behind.filled⟩
  simp only [line, EStateM.run] at ran ⊢
  rw [ran]

theorem line_fails {l : Line} (after : p.After config history) (filled : l.stmt.Filled)
    (breaks : l.stmt.Breaks config history) : ∃ q, (line l).run p = .error l.stmt.breakage q := by
  have fresh : Pass.After config history { p with text := [] } :=
    ⟨after.config, after.sound, after.cells, after.params, after.filled⟩
  obtain ⟨q, ran⟩ := stmt_fails fresh filled breaks
  refine ⟨{ q with text := p.text ++ q.text }, ?_⟩
  simp only [line, EStateM.run] at ran ⊢
  rw [ran]

/-- A line that was lowered did not break the pass. -/
theorem line_ok {l : Line} {q : Pass} (after : p.After config history) (filled : l.stmt.Filled)
    (ran : (line l).run p = .ok () q) :
    ¬ l.stmt.Breaks config history ∧ q.After config (history ++ [l.stmt]) := by
  have holds : ¬ l.stmt.Breaks config history := by
    intro breaks
    obtain ⟨r, failed⟩ := line_fails after filled breaks
    rw [failed] at ran
    cases ran
  obtain ⟨r, succeeded, behind⟩ := line_succeeds after filled holds
  rw [succeeded] at ran
  cases ran
  exact ⟨holds, behind⟩

theorem lines_ok {program : Program} {q : Pass} (after : p.After config history)
    (filled : ∀ l ∈ program, l.stmt.Filled) (ran : (lines program).run p = .ok () q) :
    q.After config (history ++ program.map Line.stmt) := by
  induction program generalizing p history with
  | nil =>
    cases ran
    simpa using after
  | cons l rest ih =>
    obtain ⟨_, p₁, ranFirst, ranRest⟩ := run_bind_ok.mp ran
    obtain ⟨_, behind⟩ := line_ok after (filled l List.mem_cons_self) ranFirst
    simpa using ih behind (fun l' member => filled l' (List.mem_cons_of_mem l member)) ranRest

/-- Lines are lowered without a fault exactly if none of them breaks the pass. -/
theorem lines_succeed_iff {program : Program} (after : p.After config history)
    (filled : ∀ l ∈ program, l.stmt.Filled) :
    (∃ q, (lines program).run p = .ok () q) ↔
      ∀ before l rest, program = before ++ l :: rest →
        ¬ l.stmt.Breaks config (history ++ before.map Line.stmt) := by
  induction program generalizing p history with
  | nil => simp [lines]
  | cons l rest ih =>
    have filledFirst := filled l List.mem_cons_self
    have filledRest : ∀ l' ∈ rest, l'.stmt.Filled :=
      fun l' member => filled l' (List.mem_cons_of_mem l member)
    constructor
    · rintro ⟨q, ran⟩ before l' rest' split
      obtain ⟨_, p₁, ranFirst, ranRest⟩ := run_bind_ok.mp ran
      obtain ⟨holds, behind⟩ := line_ok after filledFirst ranFirst
      -- The line that may break the pass is the first one, or it stands behind it.
      cases before with
      | nil =>
        obtain ⟨rfl, rfl⟩ := List.cons.inj split
        simpa using holds
      | cons first before =>
        obtain ⟨rfl, rfl⟩ := List.cons.inj split
        simpa using (ih behind filledRest).mp ⟨q, ranRest⟩ before l' rest' rfl
    · intro hold
      have holds : ¬ l.stmt.Breaks config history := by simpa using hold [] l rest rfl
      obtain ⟨r, succeeded, behind⟩ := line_succeeds after filledFirst holds
      obtain ⟨q, ran⟩ := (ih behind filledRest).mpr fun before l' rest' split => by
        simpa using hold (l :: before) l' rest' (by rw [split, List.cons_append])
      exact ⟨q, run_bind_ok.mpr ⟨_, r, succeeded, ran⟩⟩

/-- Lines end in the fault of the first of them that breaks the pass. -/
theorem lines_fail_iff {program : Program} {fault : Fault} (after : p.After config history)
    (filled : ∀ l ∈ program, l.stmt.Filled) :
    (∃ q, (lines program).run p = .error fault q) ↔
      ∃ before l rest, program = before ++ l :: rest ∧
        l.stmt.Breaks config (history ++ before.map Line.stmt) ∧ l.stmt.breakage = fault ∧
        ∀ before' l' rest', before = before' ++ l' :: rest' →
          l'.stmt.Breaks config (history ++ before'.map Line.stmt) → l'.stmt.breakage = fault := by
  induction program generalizing p history with
  | nil => simp [lines]
  | cons first rest ih =>
    have filledFirst := filled first List.mem_cons_self
    have filledRest : ∀ l ∈ rest, l.stmt.Filled :=
      fun l member => filled l (List.mem_cons_of_mem first member)
    by_cases breaks : first.stmt.Breaks config history
    · obtain ⟨q, failed⟩ := line_fails after filledFirst breaks
      have run : (lines (first :: rest)).run p = .error first.stmt.breakage q := by
        rw [lines, run_bind, failed]
      rw [run]
      constructor
      · rintro ⟨_, ⟨⟩⟩
        exact ⟨[], first, rest, rfl, by simpa using breaks, rfl, by simp⟩
      · rintro ⟨before, l, rest', split, _, same, earlier⟩
        suffices own : first.stmt.breakage = fault from ⟨q, by rw [own]⟩
        cases before with
        | nil =>
          obtain ⟨rfl, rfl⟩ := List.cons.inj split
          exact same
        | cons _ before =>
          obtain ⟨rfl, rfl⟩ := List.cons.inj split
          exact earlier [] first before rfl (by simpa using breaks)
    · obtain ⟨r, succeeded, behind⟩ := line_succeeds after filledFirst breaks
      have run : (lines (first :: rest)).run p = (lines rest).run r := by
        rw [lines, run_bind_of_ok succeeded]
      rw [run, ih behind filledRest]
      constructor
      · rintro ⟨before, l, rest', rfl, breaks', same, earlier⟩
        refine ⟨first :: before, l, rest', rfl, by simpa using breaks', same, ?_⟩
        intro before' l' rest'' split broken
        cases before' with
        | nil =>
          obtain ⟨rfl, rfl⟩ := List.cons.inj split
          exact absurd (by simpa using broken) breaks
        | cons _ before' =>
          obtain ⟨rfl, rfl⟩ := List.cons.inj split
          exact earlier before' l' rest'' rfl (by simpa using broken)
      · rintro ⟨before, l, rest', split, breaks', same, earlier⟩
        cases before with
        | nil =>
          obtain ⟨rfl, rfl⟩ := List.cons.inj split
          exact absurd (by simpa using breaks') breaks
        | cons _ before =>
          obtain ⟨rfl, rfl⟩ := List.cons.inj split
          refine ⟨before, l, rest', rfl, by simpa using breaks', same, fun before' l' rest'' inside => ?_⟩
          intro broken
          apply earlier (first :: before') l' rest''
          · rw [inside, List.cons_append]
          · simpa using broken

end Lower

theorem Pass.after_ready (config : Config) (program : Program) :
    (Pass.ready config program).After config [] := by
  refine ⟨rfl, ?_, fun name => ?_, rfl, fun a member => ?_⟩
  · intro name s found
    cases found
  · constructor
    · intro backed
      cases backed
    · intro member
      cases member
  · cases member

end MipsLowering
