import MipsLowering.Proofs.Labels

/-! # How the data section grows

Whatever a statement does, two things can happen to the data section: a literal is looked up in the pool,
or a symbol gets a cell behind those that are there.  A property that both keep holds behind every pass
(`DataSection.Grows.keeps`, `Lower.grows_data_lines`).

The first such property is that the literals of each kind are numbered from zero in the order in which
they came in (`DataSection.Numbered`), so that no two of them have the same label. -/

namespace MipsLowering

inductive DataSection.Step : DataSection → DataSection → Prop where
  | pool (d : DataSection) (kind : LiteralKind) (written : String) : Step d (d.intern kind written).2
  | cell (d : DataSection) (s : Symbol) : Step d ((d.align s).append s)

def DataSection.Grows : DataSection → DataSection → Prop :=
  Relation.ReflTransGen Step

theorem DataSection.Grows.keeps {P : DataSection → Prop} {d e : DataSection} (grows : d.Grows e)
    (step : ∀ {d e : DataSection}, d.Step e → P d → P e) (start : P d) : P e := by
  induction grows with
  | refl => exact start
  | tail _ last ih => exact step last ih

theorem Pass.Minor.data {p q : Pass} (minor : p.Minor q) : p.data.Grows q.data := by
  induction minor with
  | refl => exact .refl
  | tail _ step ih =>
    cases step with
    | pool kind written => exact ih.tail (.pool _ kind written)
    | code | remark | warn | report | note | bind => exact ih

/-! ## Actions -/

namespace Emit

variable {α β : Type}

/-- An action that only grows the data section when it succeeds. -/
def Fills (x : Emit α) : Prop :=
  ∀ ⦃p a q⦄, x.run p = .ok a q → p.data.Grows q.data

theorem IsMinor.fills {x : Emit α} (minor : IsMinor x) : Fills x :=
  fun _ _ _ ran => (minor ran).data

theorem Fills.bind {x : Emit α} {f : α → Emit β} (first : Fills x) (second : ∀ a, Fills (f a)) :
    Fills (x >>= f) := by
  intro p b r ran
  obtain ⟨a, q, ranFirst, ranSecond⟩ := run_bind_ok.mp ran
  exact (first ranFirst).trans (second a ranSecond)

theorem IsMinor.fills_bind {x : Emit α} {f : α → Emit β} (minor : IsMinor x) (next : ∀ a, Fills (f a)) :
    Fills (x >>= f) :=
  minor.fills.bind next

theorem fills_get_bind {f : Pass → Emit β} (next : ∀ p, Fills (f p)) : Fills (get >>= f) :=
  fun p _ _ ran => next p (run_get_bind.mp ran)

theorem fills_modify {f : Pass → Pass} (same : ∀ p, (f p).data = p.data) : Fills (modify f) := by
  intro p _ _ ran
  cases ran
  rw [same p]
  exact .refl

theorem Fills.ite {condition : Prop} [Decidable condition] {x y : Emit α} (yes : Fills x) (no : Fills y) :
    Fills (if condition then x else y) := by
  split
  · exact yes
  · exact no

theorem fills_reference (name : String) : Fills (reference name) :=
  fills_modify fun _ => rfl

theorem fills_label (name : String) : Fills (label name) := by
  have place : Fills (do
      modify fun p : Pass => { p with labels := p.labels.define name }
      node (.label name)) :=
    Fills.bind (fills_modify fun _ => rfl) fun _ => fills_modify fun _ => rfl
  exact fills_get_bind fun _ => .ite ((minor_warn _).fills_bind fun _ => place) place

theorem fills_freshLabel (stem : String) (suffixes : List String) : Fills (freshLabel stem suffixes) := by
  intro p _ _ ran
  cases ran
  exact .refl

theorem fills_declared (outcome : SymbolTable → SymbolTable × Option Symbol) :
    Fills (declared outcome) := by
  intro p _ q ran
  obtain rfl := run_declared_ok ran
  cases cell : (outcome p.symbols).2 with
  | none => exact .refl
  | some s => exact .single (.cell p.data s)

end Emit

namespace Lower

open Emit

/-! ## Statements -/

theorem fills_branch (condition target : String) (operand2 operator : Option String) :
    Fills (branch condition target operand2 operator) := by
  refine (fills_reference target).bind fun _ => IsMinor.fills ?_
  split
  · refine (minor_relation _ _ _ _).bind fun _ => ?_
    split
    · exact minor_opNote _ _
    · exact minor_pure _
  · exact minor_get_bind fun _ => (minor_materialize _ _).bind fun _ => minor_opNote _ _

theorem fills_zeroFill (array start stop : String) : Fills (zeroFill array start stop) := by
  refine fills_get_bind fun _ => fills_get_bind fun _ => (minor_opNote _ _).fills_bind fun _ => ?_
  refine (minor_materialize _ _).fills_bind fun _ => ?_
  refine Fills.ite ((minor_op _).fills_bind fun _ => ?_) ?_
  all_goals
    refine (minor_op _).fills_bind fun _ => (minor_op _).fills_bind fun _ => ?_
    refine (minor_opNote _ _).fills_bind fun _ => (minor_materialize _ _).fills_bind fun _ => ?_
    refine (fills_freshLabel _ _).bind fun _ => (fills_reference _).bind fun _ => ?_
    refine (fills_reference _).bind fun _ => (fills_label _).bind fun _ => ?_
    refine (minor_op _).fills_bind fun _ => fills_get_bind fun _ => (minor_op _).fills_bind fun _ => ?_
    refine (minor_op _).fills_bind fun _ => (minor_op _).fills_bind fun _ => ?_
    exact (minor_op _).fills_bind fun _ => fills_label _

theorem fills_call (function : String) (count : Option Int) (target rawCount : Option String) :
    Fills (call function count target rawCount) := by
  refine (minor_argumentCount _ _ _ _).fills_bind fun _ => fills_get_bind fun _ => ?_
  refine (minor_pushAll _).fills_bind fun _ => (fills_reference _).bind fun _ => ?_
  refine (minor_opNote _ _).fills_bind fun _ => fills_get_bind fun _ => ?_
  refine (minor_ofNumeral _).fills_bind fun _ => (minor_code _).fills_bind fun _ => ?_
  refine Fills.bind (fills_modify fun _ => rfl) fun _ => ?_
  split
  · exact (minor_pure _).fills
  · exact (fills_declared _).bind fun _ => (minor_storeBack _ _).fills

theorem fills_read (target : String) : Fills (read target) := by
  have typed : IsMinor (do
      selectService .readInt
      opNote .syscall ("read " ++ target)
      storeBack target resultRegister) :=
    (minor_op _).bind fun _ => (minor_opNote _ _).bind fun _ => minor_storeBack _ _
  exact fills_get_bind fun _ => .ite ((fills_declared _).bind fun _ => typed.fills) typed.fills

theorem fills_stmt (s : Stmt) : Fills (stmt s) := by
  cases s with
  | declare name typeName isGlobal => exact fills_declared (·.declare name _)
  | declareArray name length typeName isGlobal => exact fills_declared (·.declareArray name _ length)
  | label name => exact fills_label name
  | comment text => exact (minor_comment _).fills
  | goto target => exact (fills_reference _).bind fun _ => (minor_op _).fills
  | branch condition target operand2 operator => exact fills_branch _ _ _ _
  | assign target operand1 operator operand2 => exact (minor_assign _ _ _ _).fills
  | arrayLoad target array index => exact (minor_arrayLoad _ _ _).fills
  | arrayStore array index value => exact (minor_arrayStore _ _ _).fills
  | zeroFill array start stop => exact fills_zeroFill _ _ _
  | param operand => exact fills_modify fun _ => rfl
  | call function count target rawCount => exact fills_call _ _ _ _
  | ret value => exact (minor_ret _).fills
  | print value => exact (minor_print _).fills
  | read target => exact fills_read _
  | malformed text reason => exact (minor_diagnose _).fills
  | unsupported text => exact (minor_diagnose _).fills
  | foreign text => exact (minor_diagnose _).fills

variable {p q : Pass}

theorem grows_data_line {l : Line} (ran : (line l).run p = .ok () q) : p.data.Grows q.data := by
  obtain ⟨r, own, lowered, rfl, -⟩ := run_line_ok ran
  have grown := fills_stmt l.stmt lowered
  exact grown

theorem grows_data_lines {program : Program} (ran : (lines program).run p = .ok () q) :
    p.data.Grows q.data := by
  induction program generalizing p with
  | nil =>
    cases ran
    exact .refl
  | cons l rest ih =>
    obtain ⟨_, r, ranFirst, ranRest⟩ := run_bind_ok.mp ran
    exact (grows_data_line ranFirst).trans (ih ranRest)

end Lower

/-! ## Numbers of literals -/

/-- The kind shows in the first character of a label, and the number behind the last one of the stem. -/
theorem LiteralKind.label_inj {kind other : LiteralKind} {m n : Nat}
    (same : kind.label m = other.label n) : kind = other ∧ m = n := by
  have first := congrArg (fun label : String => label.toList.head?) same
  cases kind <;> cases other
  case string.float => simp [label] at first
  case float.string => simp [label] at first
  all_goals
    have digits : Nat.toDigits 10 m = Nat.toDigits 10 n := by
      simpa [label] using congrArg String.toList same
    have number : m = n := by simpa using congrArg (fun ds => Nat.ofDigitChars 10 ds 0) digits
    exact ⟨rfl, number⟩

namespace DataSection

variable {d e : DataSection}

/-- The literals of each kind are numbered in order, and the counter of the kind is their number. -/
def Numbered (d : DataSection) : Prop :=
  ∀ kind, (d.literals.filter (·.kind == kind)).map Literal.number = List.range (d.counters.of kind)

theorem numbered_empty : empty.Numbered := by
  intro kind
  cases kind <;> rfl

theorem Numbered.intern (numbered : d.Numbered) (kind : LiteralKind) (written : String) :
    (d.intern kind written).2.Numbered := by
  unfold DataSection.intern
  split
  · exact numbered
  · intro other
    have before := numbered other
    by_cases same : kind = other
    · subst same
      simp [newLiteral, List.range_succ, before, d.counters.of_next_self]
    · simp [newLiteral, same, before, d.counters.of_next_of_ne same]

theorem Numbered.step (step : d.Step e) (numbered : d.Numbered) : e.Numbered := by
  cases step with
  | pool kind written => exact numbered.intern kind written
  | cell s => exact numbered

theorem Numbered.nodup_labels (numbered : d.Numbered) : (d.literals.map Literal.label).Nodup := by
  have apart : ∀ kind, d.literals.Pairwise fun l m =>
      (l.kind == kind) = true → (m.kind == kind) = true → l.number ≠ m.number := by
    intro kind
    rw [← List.pairwise_filter, ← List.pairwise_map, numbered kind]
    exact List.nodup_range
  rw [List.Nodup, List.pairwise_map]
  refine ((apart .string).and (apart .float)).imp fun {l m} different same => ?_
  obtain ⟨sameKind, sameNumber⟩ := LiteralKind.label_inj same
  cases kind : l.kind with
  | string => exact different.1 (by simp [kind]) (by simp [← sameKind, kind]) sameNumber
  | float => exact different.2 (by simp [kind]) (by simp [← sameKind, kind]) sameNumber

end DataSection

end MipsLowering
