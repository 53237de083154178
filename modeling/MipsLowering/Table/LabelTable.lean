import MipsLowering.Diagnostic

/-!
# Labels

Which labels a program defines and which it uses.  A label may be used before it is defined, so
missing definitions show only at the end.

Code that needs labels of its own takes numbered ones.  A number is passed over if one of the labels
made from it is defined, used, or reserved because the program names it somewhere.
-/

namespace MipsLowering

/-- The labels of a program. -/
structure LabelTable where
  defined : List String
  referenced : List String
  /-- Labels that the program names somewhere, before or after the place reached. -/
  reserved : List String
  /-- The next number for each stem of numbered labels. -/
  counters : List (String × Nat)
  deriving Repr, DecidableEq

namespace LabelTable

/-- The table without labels. -/
def empty : LabelTable := ⟨[], [], [], []⟩

/-- A set of labels with one more. -/
def insert (labels : List String) (label : String) : List String :=
  if labels.contains label then labels else labels ++ [label]

@[simp] theorem mem_insert {labels : List String} {a b : String} :
    a ∈ insert labels b ↔ a ∈ labels ∨ a = b := by
  unfold insert
  split
  next h =>
    simp only [List.contains_eq_mem, decide_eq_true_eq] at h
    exact ⟨.inl, fun | .inl ha => ha | .inr e => e ▸ h⟩
  next => simp

/-- Records the definition of a label. -/
def define (t : LabelTable) (label : String) : LabelTable :=
  { t with defined := insert t.defined label }

/-- Records a use of a label. -/
def reference (t : LabelTable) (label : String) : LabelTable :=
  { t with referenced := insert t.referenced label }

/-- Keeps a label from being generated. -/
def reserve (t : LabelTable) (label : String) : LabelTable :=
  { t with reserved := insert t.reserved label }

/-! ## Questions -/

/-- Whether a label is defined. -/
def isDefined (t : LabelTable) (label : String) : Bool :=
  t.defined.contains label

/-- Whether a label is used. -/
def isReferenced (t : LabelTable) (label : String) : Bool :=
  t.referenced.contains label

/-- Whether a label is defined, used or reserved. -/
def isTaken (t : LabelTable) (label : String) : Bool :=
  t.isDefined label || t.isReferenced label || t.reserved.contains label

/-- The labels that are used and not defined, sorted. -/
def undefined (t : LabelTable) : List String :=
  Text.sorted (t.referenced.filter (!t.isDefined ·))

@[simp] theorem mem_undefined {t : LabelTable} {a : String} :
    a ∈ t.undefined ↔ a ∈ t.referenced ∧ a ∉ t.defined := by
  simp [undefined, isDefined]

/-- A fault that names the labels that are used and not defined, if there are any. -/
def validate (t : LabelTable) : Except Fault Unit :=
  match t.undefined with
  | [] => .ok ()
  | undefined => .error (.undefinedLabels undefined)

/-- The labels that are defined and not used, sorted. -/
def unreferenced (t : LabelTable) : List String :=
  Text.sorted (t.defined.filter (!t.isReferenced ·))

/-- The labels that are defined or used, sorted. -/
def all (t : LabelTable) : List String :=
  Text.sorted (t.defined ++ t.referenced.filter (!t.isDefined ·))

/-- A summary of the table in one line. -/
def summary (t : LabelTable) : String :=
  "LabelManager(defined=" ++ toString t.defined.length ++ ", referenced=" ++
    toString t.referenced.length ++ ", undefined=" ++ toString t.undefined.length ++ ")"

/-! ## Numbered labels -/

/-- The next number for a stem. -/
def counter (t : LabelTable) (stem : String) : Nat :=
  (t.counters.lookup stem).getD 0

/-- A numbered label. -/
def numbered (stem : String) (number : Nat) : String :=
  stem ++ "_" ++ toString number

/-- Whether none of the labels made from a number is taken. -/
def isFree (t : LabelTable) (stem : String) (suffixes : List String) (number : Nat) : Bool :=
  suffixes.all fun suffix => !t.isTaken (numbered stem number ++ suffix)

/-- The first number from `number` on with a property, if one of the next `bound` numbers has it, and
    the number behind these otherwise. -/
def firstFrom (p : Nat → Bool) : (bound number : Nat) → Nat
  | 0, number => number
  | bound + 1, number => if p number then number else firstFrom p bound (number + 1)

/-- The search never goes back. -/
theorem le_firstFrom (p : Nat → Bool) (bound number : Nat) :
    number ≤ firstFrom p bound number := by
  induction bound generalizing number with
  | zero => exact Nat.le_refl _
  | succ bound ih =>
    simp only [firstFrom]
    split
    · exact Nat.le_refl _
    · exact Nat.le_of_succ_le (ih (number + 1))

/-- The search passes over numbers without the property only. -/
theorem eq_false_of_lt_firstFrom (p : Nat → Bool) (bound number : Nat) {n : Nat}
    (low : number ≤ n) (high : n < firstFrom p bound number) : p n = false := by
  induction bound generalizing number with
  | zero => exact absurd (Nat.lt_of_le_of_lt low high) (Nat.lt_irrefl _)
  | succ bound ih =>
    simp only [firstFrom] at high
    split at high
    next => exact absurd (Nat.lt_of_le_of_lt low high) (Nat.lt_irrefl _)
    next h =>
      rcases Nat.eq_or_lt_of_le low with rfl | lt
      · simpa using h
      · exact ih (number + 1) lt high

/-- A bound on the numbers that are not free: each of them puts one of the suffixes on one of the taken
    labels. -/
def takenBound (t : LabelTable) (suffixes : List String) : Nat :=
  (t.defined.length + t.referenced.length + t.reserved.length) * suffixes.length

/-- The first free number for a stem. -/
def nextFree (t : LabelTable) (stem : String) (suffixes : List String) : Nat :=
  firstFrom (t.isFree stem suffixes) (t.takenBound suffixes) (t.counter stem)

/-- Sets the next number for a stem. -/
def setCounter (t : LabelTable) (stem : String) (number : Nat) : LabelTable :=
  { t with counters := (stem, number) :: t.counters.filter (·.1 != stem) }

/-- A new numbered label, such that with none of the suffixes it is taken, and the table in which its
    number is used. -/
def generate (t : LabelTable) (stem : String) (suffixes : List String) : String × LabelTable :=
  let number := t.nextFree stem suffixes
  (numbered stem number, t.setCounter stem (number + 1))

end LabelTable

end MipsLowering
