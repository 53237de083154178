import Mathlib.Logic.Function.Basic
import MipsLowering.Proofs.ArrayCode
import MipsLowering.Proofs.DataLayout
import MipsLowering.Proofs.ScalarCode

/-! # Arrays keep their meaning

A program that declares integers and arrays and then moves values between them, without jumps, is
understood by its slots: every integer is one, and every element of an array.  A statement assigns a
value to one slot (`Stmt.assigns?`), as long as its index is within the bounds of the array.

In memory a slot is a few bytes of the data section.  Different slots have different bytes
(`Slot.apart`), and so memory shows what the slots hold (`DataSection.Shows`) as long as each statement
writes the bytes of the slot to which it assigns (`runs_assigns`) and no others.  The theorem is
`lowerProgram_arrays`. -/

namespace MipsLowering

-- The class of an operand is only used through the theorems about it.
seal Operand.ofString

/-! ## Slots -/

/-- A slot of which a program knows. -/
inductive Slot where
  | scalar (name : String)
  | element (array : String) (index : Nat)
  deriving Repr, DecidableEq

/-- What the slots hold. -/
abbrev Contents := Slot → Word

/-- The type of the elements of a declared array. -/
def arrayType (symbols : List Symbol) (array : String) : ValueType :=
  ((symbols.find? (·.name == array)).map Symbol.type).getD .int

theorem find?_of_distinct {symbols : List Symbol} (distinct : (symbols.map Symbol.name).Nodup) {s : Symbol}
    (member : s ∈ symbols) : symbols.find? (·.name == s.name) = some s := by
  obtain ⟨found, first⟩ : ∃ found, symbols.find? (·.name == s.name) = some found :=
    Option.isSome_iff_exists.mp (List.find?_isSome.mpr ⟨s, member, by simp⟩)
  have named : found.name = s.name := by simpa using List.find?_some first
  rw [first, List.inj_on_of_nodup_map distinct (List.mem_of_find?_eq_some first) member named]

namespace DataSection

/-- Where a label is, counted from the beginning of the section. -/
def startOf (d : DataSection) (label : String) : Nat :=
  ((d.block? label).map Block.start).getD 0

/-- The address of a label, if the section begins at `base`. -/
def address (d : DataSection) (base : Word) (label : String) : Word :=
  base + BitVec.ofNat 32 (d.startOf label)

/-- The section has a cell for each of the symbols, and different addresses for different bytes. -/
structure Keeps (d : DataSection) (symbols : List Symbol) : Prop where
  distinct : (symbols.map Symbol.name).Nodup
  cells : ∀ s ∈ symbols, ∃ b, d.block? s.name = some b ∧ s.Fits b
  small : d.size ≤ 2 ^ 32

variable {d : DataSection} {symbols : List Symbol}

theorem startOf_of_block? {label : String} {b : Block} (found : d.block? label = some b) :
    d.startOf label = b.start := by
  rw [startOf, found]
  rfl

/-- Bytes of different labels have nothing in common. -/
theorem apart_of_block? (small : d.size ≤ 2 ^ 32) {first second : String} {b b' : Block}
    (found : d.block? first = some b) (found' : d.block? second = some b') (differs : first ≠ second) (base : Word)
    {i j m n : Nat} (lower : b.start ≤ i) (upper : i + m ≤ b.stop) (lower' : b'.start ≤ j) (upper' : j + n ≤ b'.stop) :
    Memory.Apart (base + BitVec.ofNat 32 i) m (base + BitVec.ofNat 32 j) n := by
  have placed := List.mem_of_find?_eq_some found
  have placed' := List.mem_of_find?_eq_some found'
  have labels : b.directive.label ≠ b'.directive.label := by
    have label : b.directive.label = some first := by simpa using List.find?_some found
    have label' : b'.directive.label = some second := by simpa using List.find?_some found'
    simpa [label, label'] using differs
  have blocks := apart_of_mem_assemble placed placed' labels
  have stop : b.stop ≤ 2 ^ 32 := Nat.le_trans (bounds_of_mem_assemble placed).2.2 small
  have stop' : b'.stop ≤ 2 ^ 32 := Nat.le_trans (bounds_of_mem_assemble placed').2.2 small
  exact Memory.apart_of_offsets base (by omega) (by omega) (by omega)

end DataSection

namespace Slot

def name : Slot → String
  | .scalar name => name
  | .element array _ => array

/-- The slots of declared symbols: integers, and what lies within the bounds of arrays. -/
def Declared (symbols : List Symbol) : Slot → Prop
  | .scalar name => intSymbol name ∈ symbols
  | .element array i => ∃ s ∈ symbols, s.name = array ∧ s.isArray = true ∧ (i : Int) < s.length

instance (symbols : List Symbol) : (slot : Slot) → Decidable (slot.Declared symbols)
  | .scalar _ => inferInstanceAs (Decidable (_ ∈ symbols))
  | .element _ _ => inferInstanceAs (Decidable (∃ s ∈ symbols, _))

def width (symbols : List Symbol) : Slot → Width
  | .scalar _ => .word
  | .element array _ => (arrayType symbols array).width

/-- Where a slot begins, counted from the beginning of the section. -/
def start (d : DataSection) (symbols : List Symbol) : Slot → Nat
  | .scalar name => d.startOf name
  | .element array i => d.startOf array + i * (arrayType symbols array).size

def address (d : DataSection) (base : Word) (symbols : List Symbol) (slot : Slot) : Word :=
  base + BitVec.ofNat 32 (slot.start d symbols)

variable {d : DataSection} {symbols : List Symbol} {slot other : Slot}

/-- A slot lies in the block of its symbol, at a multiple of its width. -/
theorem inside (keeps : d.Keeps symbols) (declared : slot.Declared symbols) :
    ∃ b, d.block? slot.name = some b ∧ b.start ≤ slot.start d symbols ∧
      slot.start d symbols + (slot.width symbols).bytes ≤ b.stop ∧
      slot.start d symbols % (slot.width symbols).bytes = 0 := by
  cases slot with
  | scalar name =>
    obtain ⟨b, found, fits⟩ := keeps.cells _ declared
    have start : Slot.start d symbols (.scalar name) = b.start := DataSection.startOf_of_block? found
    rw [start]
    exact ⟨b, found, Nat.le_refl _, Nat.le_of_eq fits.room.symm, fits.aligned⟩
  | element array i =>
    obtain ⟨s, member, rfl, isArray, below⟩ := declared
    obtain ⟨b, found, fits⟩ := keeps.cells s member
    have type : arrayType symbols s.name = s.type := by
      rw [arrayType, find?_of_distinct keeps.distinct member]
      rfl
    have start := DataSection.startOf_of_block? found
    -- An array without elements takes the room of one, so the last element ends within the block in any case.
    have room : b.stop = b.start + max 1 s.length.toNat * s.type.size := by
      have kind : s.kind = .array := by simpa [Symbol.isArray] using isArray
      rw [fits.room, Symbol.sizeBytes, kind]
      rfl
    have fitting : (i + 1) * s.type.size ≤ max 1 s.length.toNat * s.type.size :=
      Nat.mul_le_mul_right _ (by omega)
    refine ⟨b, found, ?_, ?_, ?_⟩
    · simp only [Slot.start, start, Nat.le_add_right]
    · simp only [Slot.start, width, type, start, room]
      rw [Nat.add_mul, Nat.one_mul] at fitting
      show b.start + i * s.type.size + s.type.size ≤ _
      omega
    · simp only [Slot.start, width, type, start]
      show (b.start + i * s.type.size) % s.type.size = 0
      rw [Nat.add_mul_mod_self_right, fits.aligned]

theorem stop_le (keeps : d.Keeps symbols) (declared : slot.Declared symbols) :
    slot.start d symbols + (slot.width symbols).bytes ≤ 2 ^ 32 := by
  obtain ⟨b, found, _, upper, _⟩ := inside keeps declared
  calc slot.start d symbols + (slot.width symbols).bytes ≤ b.stop := upper
    _ ≤ d.size := (bounds_of_mem_assemble (List.mem_of_find?_eq_some found)).2.2
    _ ≤ 2 ^ 32 := keeps.small

/-- Different slots have no byte in common. -/
theorem apart (keeps : d.Keeps symbols) (first : slot.Declared symbols)
    (second : other.Declared symbols) (differs : slot ≠ other) :
    slot.start d symbols + (slot.width symbols).bytes ≤ other.start d symbols ∨
      other.start d symbols + (other.width symbols).bytes ≤ slot.start d symbols := by
  obtain ⟨b, found, lower, upper, -⟩ := inside keeps first
  obtain ⟨b', found', lower', upper', -⟩ := inside keeps second
  by_cases same : slot.name = other.name
  · -- Names are declared once, so both are elements of one array.
    cases slot with
    | scalar name =>
      cases other with
      | scalar other => exact absurd (congrArg scalar same) differs
      | element array j =>
        obtain ⟨s, member, rfl, isArray, -⟩ := second
        obtain rfl := List.inj_on_of_nodup_map keeps.distinct first member same
        cases isArray
    | element array i =>
      cases other with
      | scalar name =>
        obtain ⟨s, member, rfl, isArray, -⟩ := first
        obtain rfl := List.inj_on_of_nodup_map keeps.distinct second member same.symm
        cases isArray
      | element array' j =>
        obtain rfl : array = array' := same
        have distinct : i ≠ j := fun equal => differs (congrArg (element array) equal)
        simp only [start, width]
        show d.startOf array + i * (arrayType symbols array).size + (arrayType symbols array).size ≤ _ ∨
          d.startOf array + j * (arrayType symbols array).size + (arrayType symbols array).size ≤ _
        rcases Nat.lt_or_gt_of_ne distinct with less | greater
        · have scaled := Nat.mul_le_mul_right (arrayType symbols array).size (Nat.succ_le_of_lt less)
          rw [Nat.succ_mul] at scaled
          omega
        · have scaled := Nat.mul_le_mul_right (arrayType symbols array).size (Nat.succ_le_of_lt greater)
          rw [Nat.succ_mul] at scaled
          omega
  · have labels : b.directive.label ≠ b'.directive.label := by
      have label := List.find?_some found
      have label' := List.find?_some found'
      simp only [beq_iff_eq] at label label'
      rw [label, label']
      simpa using same
    have blocks := apart_of_mem_assemble (List.mem_of_find?_eq_some found)
      (List.mem_of_find?_eq_some found') labels
    omega

end Slot

/-! ## What statements mean -/

namespace Contents

variable (symbols : List Symbol) (σ : Contents)

/-- The value of an operand: a number, or what a declared integer holds. -/
def value? (operand : String) : Option Word :=
  match Operand.ofString operand with
  | .immediate value => (Text.integer? value.toList).map (BitVec.ofInt 32)
  | .name name => if intSymbol name ∈ symbols then some (σ (.scalar name)) else none
  | _ => none

/-- The value of an index that lies within the bounds of an array. -/
def index? (array index : String) : Option Nat := do
  let s ← symbols.find? (·.name == array)
  let i ← σ.value? symbols index
  if s.isArray = true ∧ 0 ≤ i.toInt ∧ i.toInt < s.length then some i.toNat else none

end Contents

/-- The slot to which a statement assigns, and what it holds then.  An element keeps of a value what its
    width allows. -/
def Stmt.assigns? (symbols : List Symbol) (σ : Contents) : Stmt → Option (Slot × Word)
  | .arrayStore array index value => do
    let i ← σ.index? symbols array index
    let v ← σ.value? symbols value
    some (.element array i, (arrayType symbols array).width.narrow v)
  | .arrayLoad target array index => do
    let i ← σ.index? symbols array index
    if intSymbol target ∈ symbols then some (.scalar target, σ (.element array i)) else none
  | .assign target (some source) none none => do
    let v ← σ.value? symbols source
    if intSymbol target ∈ symbols then some (.scalar target, v) else none
  | _ => none

/-- What the slots hold behind statements. -/
def Contents.after? (symbols : List Symbol) : Contents → List Stmt → Option Contents
  | σ, [] => some σ
  | σ, s :: rest => do
    let (slot, v) ← s.assigns? symbols σ
    after? symbols (Function.update σ slot v) rest

/-! ## What memory shows -/

/-- Memory shows at every slot what it holds, if the section begins at `base`. -/
def DataSection.Shows (d : DataSection) (base : Word) (symbols : List Symbol) (σ : Contents)
    (m : Memory) : Prop :=
  ∀ slot : Slot, slot.Declared symbols →
    m.read (slot.width symbols) (slot.address d base symbols) = σ slot

section

variable {d : DataSection} {base : Word} {symbols : List Symbol} {σ : Contents} {m : Memory}

/-- Accesses to slots are aligned. -/
theorem Slot.Declared.admits {slot : Slot} (declared : slot.Declared symbols)
    (keeps : d.Keeps symbols) (aligned : base.toNat % 4 = 0) :
    (slot.width symbols).Admits (slot.address d base symbols) := by
  obtain ⟨b, _, _, _, multiple⟩ := slot.inside keeps declared
  have small := Slot.stop_le keeps declared
  unfold Width.Admits Slot.address
  cases width : slot.width symbols with
  | byte => exact Nat.mod_one _
  | word =>
    rw [width] at multiple small
    simp only [Width.bytes] at multiple small ⊢
    bv_omega

/-- A write to the bytes of a slot shows there and nowhere else. -/
theorem DataSection.Shows.write (shows : d.Shows base symbols σ m) (keeps : d.Keeps symbols)
    {slot : Slot} (declared : slot.Declared symbols) (v : Word) :
    d.Shows base symbols (Function.update σ slot ((slot.width symbols).narrow v))
      (m.write (slot.width symbols) (slot.address d base symbols) v) := by
  intro other declared'
  by_cases same : other = slot
  · subst same
    rw [Memory.read_write_self, Function.update_self]
  · have apart := Memory.apart_of_offsets base (Slot.stop_le keeps declared')
      (Slot.stop_le keeps declared) (Slot.apart keeps declared' declared same)
    rw [Function.update_of_ne same, ← shows other declared']
    exact Memory.read_write_apart apart

/-- The bytes of a slot are none of those of another directive. -/
theorem Slot.Declared.outside {slot : Slot} (declared : slot.Declared symbols) (keeps : d.Keeps symbols)
    {b : Block} (member : b ∈ assemble 0 d.directives) (other : b.directive.label ≠ some slot.name)
    {i : Nat} (lower : b.start ≤ i) (upper : i < b.stop) :
    ¬ (base + BitVec.ofNat 32 i - slot.address d base symbols).toNat < (slot.width symbols).bytes := by
  obtain ⟨own, found, start, stop, -⟩ := slot.inside keeps declared
  have label : own.directive.label = some slot.name := by simpa using List.find?_some found
  have blocks := apart_of_mem_assemble member (List.mem_of_find?_eq_some found) (label ▸ other)
  have small : b.stop ≤ 2 ^ 32 := Nat.le_trans (bounds_of_mem_assemble member).2.2 keeps.small
  have single : i + 1 ≤ 2 ^ 32 := by omega
  have apart := Memory.apart_of_offsets base single (Slot.stop_le keeps declared) (by omega)
  apply apart
  simp

/-! ## Code -/

/-- Tables under which the code of a statement on declared symbols is settled. -/
structure Tables.Serves (t : Tables) (symbols : List Symbol) : Prop where
  standard : t.Standard
  cells : ∀ s ∈ symbols, t.symbols.cell? s.name = some s
  named : ∀ name, intSymbol name ∈ symbols → isVariableName name = true

variable {t : Tables} {c : Core} {operand array index : String}

/-- The machine has the same values for operands. -/
theorem Tables.Serves.value_eq (serves : t.Serves symbols) (keeps : d.Keeps symbols)
    (aligned : base.toNat % 4 = 0) (shows : d.Shows base symbols σ c.memory) {v : Word}
    (value : σ.value? symbols operand = some v) :
    t.value (d.address base) c operand = v ∧ t.Admits (d.address base) operand ∧ t.Stored operand ∧
      Text.stripped operand = operand := by
  unfold Contents.value? at value
  unfold Tables.value Tables.Admits Tables.Stored
  split at value
  next constant sort =>
    obtain ⟨n, number, rfl⟩ := Option.map_eq_some_iff.mp value
    have stripped := stripped_of_immediate sort
    rw [stripped, sort]
    refine ⟨?_, trivial, fun name wrong => (by cases wrong), rfl⟩
    simp only [Tables.valueAs, number, Option.getD_some]
  next name sort =>
    obtain rfl := Operand.eq_of_ofString_name sort
    split at value
    next declared =>
      obtain rfl := Option.some.inj value
      have cell : t.symbols.cell? name = some (intSymbol name) := serves.cells _ declared
      rw [stripped_of_isVariableName (serves.named name declared), sort]
      refine ⟨?_, fun s found _ => ?_, fun other same => ?_, rfl⟩
      · simp only [Tables.valueAs, cell]
        exact shows (.scalar name) declared
      · obtain rfl := Option.some.inj (cell.symm.trans found)
        have slot : Slot.Declared symbols (.scalar name) := declared
        exact slot.admits keeps aligned
      · cases same
        rw [cell]
        rfl
    next => cases value
  next => cases value

/-- The machine computes the address of an element. -/
theorem Tables.Serves.address_eq (serves : t.Serves symbols) (keeps : d.Keeps symbols)
    (aligned : base.toNat % 4 = 0) (shows : d.Shows base symbols σ c.memory) {i : Nat}
    (within : σ.index? symbols array index = some i) :
    Slot.Declared symbols (.element array i) ∧ t.Admits (d.address base) index ∧
      t.symbols.elementType array = arrayType symbols array ∧
      d.address base array + t.value (d.address base) c index *
        BitVec.ofNat 32 (t.symbols.elementSize array) =
      Slot.address d base symbols (.element array i) := by
  simp only [Contents.index?, Option.bind_eq_bind, Option.bind_eq_some_iff] at within
  obtain ⟨s, found, w, value, within⟩ := within
  split at within
  next bounds =>
    obtain rfl := Option.some.inj within
    obtain ⟨isArray, lower, upper⟩ := bounds
    obtain rfl : s.name = array := by simpa using List.find?_some found
    have member := List.mem_of_find?_eq_some found
    obtain ⟨value, admits, -⟩ := serves.value_eq keeps aligned shows value
    have entry := SymbolTable.lookup?_of_cell? (serves.cells s member)
    have type : arrayType symbols s.name = s.type := by
      rw [arrayType, found]
      rfl
    have size : t.symbols.elementSize s.name = s.type.size := by
      rw [SymbolTable.elementSize, entry]
      rfl
    refine ⟨⟨s, member, rfl, isArray, ?_⟩, admits, ?_, ?_⟩
    -- The bounds are those of the signed index; between them it is the unsigned one.
    · rw [BitVec.toInt_eq_toNat_cond] at lower upper
      omega
    · simp [SymbolTable.elementType, entry, isArray, type]
    · rw [value, size, Slot.address, Slot.start, type, DataSection.address, BitVec.ofNat_add,
        BitVec.ofNat_mul, BitVec.ofNat_toNat, BitVec.setWidth_eq, BitVec.add_assoc]
  next => cases within

/-- The code of a statement writes to the slot to which the statement assigns, and nothing else. -/
theorem Tables.Serves.runs_assigns (serves : t.Serves symbols) (keeps : d.Keeps symbols)
    (aligned : base.toNat % 4 = 0) (shows : d.Shows base symbols σ c.memory) {s : Stmt} {slot : Slot}
    {v : Word} (assigns : s.assigns? symbols σ = some (slot, v)) (p : Pass) :
    slot.Declared symbols ∧
      ∃ e w, Core.run (d.address base) (t.codeFrom p s) c = some e ∧
        e.memory = c.memory.write (slot.width symbols) (slot.address d base symbols) w ∧
        (slot.width symbols).narrow w = v := by
  have cells : ∀ {name}, intSymbol name ∈ symbols → t.symbols.cell? name = some (intSymbol name) :=
    fun declared => serves.cells _ declared
  have scalars : ∀ {name}, intSymbol name ∈ symbols → Width.word.Admits (d.address base name) := by
    intro name declared
    have slot : Slot.Declared symbols (.scalar name) := declared
    exact slot.admits keeps aligned
  unfold Stmt.assigns? at assigns
  split at assigns
  next array index value =>
    simp only [Option.bind_eq_bind, Option.bind_eq_some_iff, Option.some.injEq, Prod.mk.injEq] at assigns
    obtain ⟨i, within, w, value, rfl, rfl⟩ := assigns
    obtain ⟨declared, admits, type, address⟩ := serves.address_eq keeps aligned shows within
    obtain ⟨value, admits', stored, -⟩ := serves.value_eq keeps aligned shows value
    have element := declared.admits keeps aligned
    rw [Slot.width, ← type] at element
    obtain ⟨e, ran, memory⟩ := runs_arrayStore serves.standard.draws serves.standard.rolesApart admits admits'
      stored address element
    refine ⟨declared, e, w, ran, ?_, rfl⟩
    rw [memory, value, type]
    rfl
  next target array index =>
    simp only [Option.bind_eq_bind, Option.bind_eq_some_iff] at assigns
    obtain ⟨i, within, assigns⟩ := assigns
    split at assigns
    next declaredTarget =>
      cases assigns
      obtain ⟨declared, admits, type, address⟩ := serves.address_eq keeps aligned shows within
      have element := declared.admits keeps aligned
      rw [Slot.width, ← type] at element
      obtain ⟨e, ran, -, memory⟩ := runs_arrayLoad serves.standard.draws serves.standard.rolesApart
        (admitsAs_of_cell (cells declaredTarget) (scalars declaredTarget)) admits address element
      rw [assigned_of_cell (cells declaredTarget) rfl] at memory
      refine ⟨declaredTarget, e, _, ran, memory, ?_⟩
      rw [type]
      exact shows _ declared
    next => cases assigns
  next target source =>
    simp only [Option.bind_eq_bind, Option.bind_eq_some_iff] at assigns
    obtain ⟨w, value, assigns⟩ := assigns
    split at assigns
    next declaredTarget =>
      cases assigns
      obtain ⟨value, admits, -, stripped⟩ := serves.value_eq keeps aligned shows value
      obtain ⟨e, ran, -, memory⟩ := runs_copyCode serves.standard.draws
        (admitsAs_of_cell (cells declaredTarget) (scalars declaredTarget)) stripped admits c
      rw [value, assigned_of_cell (cells declaredTarget) rfl] at memory
      exact ⟨declaredTarget, e, _, ran, memory, rfl⟩
    next => cases assigns
  next => cases assigns

/-- Statements one after the other. -/
theorem runs_after {steps : List TraceStep} (tables : TraceStep → Tables)
    (serves : ∀ s ∈ steps, (tables s).Serves symbols)
    (code : ∀ s ∈ steps, s.nodes.map Node.bare = (tables s).codeFrom s.before s.stmt)
    (keeps : d.Keeps symbols) (aligned : base.toNat % 4 = 0) {σ' : Contents}
    (shows : d.Shows base symbols σ c.memory)
    (interpreted : σ.after? symbols (steps.map TraceStep.stmt) = some σ') :
    ∃ e, Core.run (d.address base) (steps.flatMap TraceStep.nodes) c = some e ∧
      d.Shows base symbols σ' e.memory := by
  induction steps generalizing σ c with
  | nil =>
    cases interpreted
    exact ⟨c, rfl, shows⟩
  | cons s rest ih =>
    simp only [List.map_cons, Contents.after?, Option.bind_eq_bind, Option.bind_eq_some_iff] at interpreted
    obtain ⟨⟨slot, v⟩, assigns, interpreted⟩ := interpreted
    obtain ⟨declared, e, w, ran, memory, rfl⟩ :=
      (serves s List.mem_cons_self).runs_assigns keeps aligned shows assigns s.before
    rw [← code s List.mem_cons_self, Core.run_map_bare] at ran
    -- What the statement writes is in the memory now, so the rest starts from the contents after it.
    have shows' := shows.write keeps declared w
    rw [← memory] at shows'
    obtain ⟨e', ran', shows'⟩ := ih (fun s' member => serves s' (List.mem_cons_of_mem s member))
      (fun s' member => code s' (List.mem_cons_of_mem s member)) shows' interpreted
    exact ⟨e', Core.run_append_some ran ran', shows'⟩

end

/-! ## Programs -/

theorem Width.narrow_byte {v : Word} (below : v.toNat < 128) : Width.byte.narrow v = v := by
  have positive : (v.setWidth 8).msb = false := by
    rw [BitVec.msb_eq_false_iff_two_mul_lt, BitVec.toNat_setWidth]
    omega
  rw [narrow, BitVec.signExtend_eq_setWidth_of_msb_false positive]
  apply BitVec.eq_of_toNat_eq
  rw [BitVec.toNat_setWidth, BitVec.toNat_setWidth]
  omega

/-- Declarations of integers and of arrays. -/
inductive Stmt.Introduces : Stmt → Prop where
  | integer {name : String} {typeName : Option String} (isGlobal : Bool)
      (named : isVariableName name = true) (type : ValueType.ofGivenName typeName = .int) :
      Introduces (.declare name typeName isGlobal)
  | array (name : String) (length : Int) (typeName : Option String) (isGlobal : Bool) :
      Introduces (.declareArray name length typeName isGlobal)

theorem Stmt.Introduces.codeFrom {s : Stmt} (introduces : s.Introduces) (t : Tables) (p : Pass) :
    t.codeFrom p s = [] := by
  cases introduces <;> rfl

/-- A program that begins with declarations of integers and arrays under different names. -/
structure Program.Opens (program : Program) (declarations : List Stmt) : Prop where
  first : declarations <+: program.map Line.stmt
  introduces : ∀ s ∈ declarations, s.Introduces
  distinct : ((declarations.filterMap Stmt.entry?).map Symbol.name).Nodup

namespace Program.Opens

variable {config : Config} {program : Program} {declarations : List Stmt} {q : Pass}
  (opens : program.Opens declarations)

include opens

theorem named {name : String} (declared : intSymbol name ∈ declarations.filterMap Stmt.entry?) :
    isVariableName name = true := by
  obtain ⟨s, member, entry⟩ := List.mem_filterMap.mp declared
  cases opens.introduces s member with
  | integer isGlobal named type =>
    obtain rfl := congrArg Symbol.name (Option.some.inj entry)
    exact named
  | array => cases entry

/-- The declared symbols stay what they are, whatever comes behind them. -/
theorem find? {s : Symbol} (declared : s ∈ declarations.filterMap Stmt.entry?) (later : List Stmt) :
    ((declarations ++ later).filterMap Stmt.entry?).find? (·.name == s.name) = some s := by
  rw [List.filterMap_append, List.find?_append, find?_of_distinct opens.distinct declared]
  rfl

theorem keeps (ran : (Lower.lines program).run (Pass.ready config program) = .ok () q)
    (small : q.data.size < 2 ^ 31) : q.data.Keeps (declarations.filterMap Stmt.entry?) where
  distinct := opens.distinct
  cells s declared := by
    obtain ⟨later, parts⟩ := opens.first
    have listed : program.filterMap (·.stmt.entry?) = (declarations ++ later).filterMap Stmt.entry? := by
      rw [parts, List.filterMap_map]
      rfl
    apply block?_of_cell? ran
    rw [(cells_lines ran).2 s.name, listed, opens.find? declared]
  small := by omega

/-- The first steps are the declarations. -/
theorem take_trace (ran : (Lower.lines program).run (Pass.ready config program) = .ok () q) :
    ((traceFrom (Pass.ready config program) program).take declarations.length).map TraceStep.stmt =
      declarations := by
  have all : (traceFrom (Pass.ready config program) program).map TraceStep.stmt =
      program.map Line.stmt := by
    rw [← congrArg (·.map Line.stmt) (chain_traceFrom ran).2, List.map_map]
    rfl
  rw [List.map_take, all]
  exact (List.prefix_iff_eq_take.mp opens.first).symm

/-- Declarations have no code. -/
theorem flatMap_take (ran : (Lower.lines program).run (Pass.ready config program) = .ok () q)
    (code : ∀ s ∈ traceFrom (Pass.ready config program) program,
      s.nodes.map Node.bare = (q.tablesAt s).codeFrom s.before s.stmt) :
    ((traceFrom (Pass.ready config program) program).take declarations.length).flatMap TraceStep.nodes =
      [] := by
  rw [List.flatMap_eq_nil_iff]
  intro s member
  have introduces : s.stmt.Introduces := by
    apply opens.introduces
    rw [← opens.take_trace ran]
    exact List.mem_map_of_mem member
  have bare := code s (List.mem_of_mem_take member)
  rw [introduces.codeFrom] at bare
  exact List.map_eq_nil_iff.mp bare

theorem serves (ran : (Lower.lines program).run (Pass.ready config program) = .ok () q)
    (scratch : config.scratch = defaultScratch) (address : config.address = defaultAddress) :
    ∀ s ∈ (traceFrom (Pass.ready config program) program).drop declarations.length,
      (q.tablesAt s).Serves (declarations.filterMap Stmt.entry?) := by
  have chain := (chain_traceFrom ran).1
  obtain ⟨settings, draws, literals⟩ := chain.settings
  intro s member
  obtain ⟨before, after, parts⟩ := List.append_of_mem member
  rw [← settings] at scratch address
  refine ⟨⟨draws, literals.trans scratch, scratch, address⟩, fun e declared => ?_, fun name => opens.named⟩
  rw [← List.take_append_drop declarations.length (traceFrom _ program), parts, ← List.append_assoc]
    at chain
  have listed : (((traceFrom (Pass.ready config program) program).take declarations.length ++ before) ++
      [s]).filterMap (·.stmt.entry?) =
      (declarations ++ (before ++ [s]).map TraceStep.stmt).filterMap Stmt.entry? := by
    conv_rhs => rw [← opens.take_trace ran]
    rw [← List.map_append, List.filterMap_map, List.append_assoc]
    rfl
  show s.after.symbols.cell? e.name = some e
  rw [chain.cell?_after, listed, opens.find? declared]

end Program.Opens

/-- The code of a program that begins with declarations of integers and arrays.  As long as the statements
    behind them assign to slots, and indices are within bounds, the code runs without a misaligned
    access, memory shows what the slots hold, and each statement changes the bytes of the slot to which it
    assigns and no byte of another directive.  Of a value below 128 a byte keeps everything. -/
theorem lowerProgram_arrays {config : Config} {program : Program} {listing : String} {p : Pass}
    {declarations : List Stmt} {base : Word} (lowered : lowerProgram config program = (.ok listing, p))
    (opens : program.Opens declarations) (scratch : config.scratch = defaultScratch)
    (address : config.address = defaultAddress) (aligned : base.toNat % 4 = 0)
    (small : p.data.size < 2 ^ 31) :
    let symbols := declarations.filterMap Stmt.entry?
    let steps := (traceProgram config program).1.drop declarations.length
    p.text = steps.flatMap TraceStep.nodes ++ exitNodes config ∧
    (∀ before s after, steps = before ++ s :: after → ∀ c σ σ' slot v,
      p.data.Shows base symbols σ c.memory →
      σ.after? symbols (before.map TraceStep.stmt) = some σ' →
      s.stmt.assigns? symbols σ' = some (slot, v) →
      ∃ c₁ c₂, Core.run (p.data.address base) (before.flatMap TraceStep.nodes) c = some c₁ ∧
        Core.run (p.data.address base) s.nodes c₁ = some c₂ ∧
        p.data.Shows base symbols σ' c₁.memory ∧
        p.data.Shows base symbols (Function.update σ' slot v) c₂.memory ∧
        (∀ x, ¬ (x - slot.address p.data base symbols).toNat < (slot.width symbols).bytes →
          c₂.memory x = c₁.memory x) ∧
        ∀ b ∈ assemble 0 p.data.directives, b.directive.label ≠ some slot.name →
          ∀ i, b.start ≤ i → i < b.stop →
            c₂.memory (base + BitVec.ofNat 32 i) = c₁.memory (base + BitVec.ofNat 32 i)) ∧
    (∀ m, ∃ σ, p.data.Shows base symbols σ m) ∧
    ∀ v : Word, v.toNat < 128 → Width.byte.narrow v = v := by
  intro symbols steps
  obtain ⟨q, ran, -, final⟩ := lowerProgram_iff.mp ⟨listing, lowered⟩
  have data : p.data = q.data := by rw [final]
  have chain := (chain_traceFrom ran).1
  have serves := opens.serves ran scratch address
  have keeps : p.data.Keeps symbols := data ▸ opens.keeps ran (data ▸ small)
  have code : ∀ s ∈ traceFrom (Pass.ready config program) program,
      s.nodes.map Node.bare = (q.tablesAt s).codeFrom s.before s.stmt := chain.laid
  refine ⟨?_, ?_, ?_, fun v => Width.narrow_byte⟩
  · have text : p.text = q.text ++ exitNodes config := by
      rw [final]
      exact congrArg (q.text ++ exitNodes ·) chain.growth.config
    have all : q.text = (traceFrom (Pass.ready config program) program).flatMap TraceStep.nodes := chain.text
    rw [text, all, ← List.take_append_drop declarations.length (traceFrom _ program), List.flatMap_append,
      opens.flatMap_take ran code]
    rfl
  · intro before s after parts c σ σ' slot v shows interpreted assigns
    have inSteps : ∀ s' ∈ before ++ s :: after,
        s' ∈ (traceFrom (Pass.ready config program) program).drop declarations.length := by
      intro s' member
      rw [← parts] at member
      exact member
    have inTrace := fun s' member => List.mem_of_mem_drop (inSteps s' member)
    obtain ⟨c₁, ranBefore, shows₁⟩ := runs_after q.tablesAt
      (fun s' member => serves s' (inSteps s' (List.mem_append_left _ member)))
      (fun s' member => code s' (inTrace s' (List.mem_append_left _ member)))
      keeps aligned shows interpreted
    have here : s ∈ before ++ s :: after := by simp
    obtain ⟨declared, c₂, w, ranHere, memory, rfl⟩ :=
      (serves s (inSteps s here)).runs_assigns keeps aligned shows₁ assigns s.before
    rw [← code s (inTrace s here), Core.run_map_bare] at ranHere
    have outside : ∀ x, ¬ (x - slot.address p.data base symbols).toNat < (slot.width symbols).bytes →
        c₂.memory x = c₁.memory x := by
      intro x far
      rw [memory, Memory.write_outside far]
    refine ⟨c₁, c₂, ranBefore, ranHere, shows₁, ?_, outside, ?_⟩
    · rw [memory]
      exact shows₁.write keeps declared w
    · intro b member other i lower upper
      exact outside _ (declared.outside keeps member other lower upper)
  · exact fun m => ⟨fun slot => m.read (slot.width symbols) (slot.address p.data base symbols),
      fun _ _ => rfl⟩

/-- A letter is stored between words and loaded again, after an index has been in the place where it goes. -/
def copiesLetter : Program :=
  Program.ofStmts
    [.declareArray "c" 3 (some "char") false,
      .declare "x" (some "int") false,
      .declareArray "a" 2 (some "int") false,
      .arrayStore "c" "1" "65",
      .assign "x" (some "1") none none,
      .arrayStore "a" "x" "-7",
      .arrayLoad "x" "c" "x"]

theorem copiesLetter_arrays :
    ∃ listing p, lowerProgram (Config.standard false) copiesLetter = (.ok listing, p) ∧
      copiesLetter.Opens ((copiesLetter.map Line.stmt).take 3) ∧ p.data.size < 2 ^ 31 ∧
      ∃ before s, (traceProgram (Config.standard false) copiesLetter).1.drop 3 = before ++ [s] ∧
      ∃ c d, Core.run (p.data.address 0x10010000) (before.flatMap TraceStep.nodes)
          ⟨fun _ => 0, fun _ => 0⟩ = some c ∧
        Core.run (p.data.address 0x10010000) s.nodes c = some d ∧
        d.memory.read .word (p.data.address 0x10010000 "x") = 65 := by
  let declarations := (copiesLetter.map Line.stmt).take 3
  let symbols := declarations.filterMap Stmt.entry?
  let zero : Contents := fun _ => 0
  have opens : copiesLetter.Opens declarations := by
    refine ⟨by decide +kernel, fun s member => ?_, by decide +kernel⟩
    have listed : s ∈ [Stmt.declareArray "c" 3 (some "char") false, .declare "x" (some "int") false,
        .declareArray "a" 2 (some "int") false] := member
    simp only [List.mem_cons, List.not_mem_nil, or_false] at listed
    rcases listed with rfl | rfl | rfl
    · exact .array _ _ _ _
    · exact .integer _ (by decide +kernel) (by decide +kernel)
    · exact .array _ _ _ _
  have runs : (lowerProgram (Config.standard false) copiesLetter).1.isOk = true ∧
      (lowerProgram (Config.standard false) copiesLetter).2.data.size < 2 ^ 31 ∧
      ((traceProgram (Config.standard false) copiesLetter).1.drop 3).map TraceStep.stmt =
        [.arrayStore "c" "1" "65", .assign "x" (some "1") none none, .arrayStore "a" "x" "-7"] ++
          [.arrayLoad "x" "c" "x"] := by
    decide +kernel
  have means : (zero.after? symbols [.arrayStore "c" "1" "65", .assign "x" (some "1") none none,
      .arrayStore "a" "x" "-7"]).bind (fun σ => Stmt.assigns? symbols σ (.arrayLoad "x" "c" "x")) =
      some (.scalar "x", 65) := by
    decide +kernel
  obtain ⟨σ, interpreted, assigns⟩ := Option.bind_eq_some_iff.mp means
  obtain ⟨succeeds, small, stmts⟩ := runs
  obtain ⟨before, last, parts, first, single⟩ := List.map_eq_append_iff.mp stmts
  obtain ⟨s, rfl, stmt⟩ := List.map_eq_singleton_iff.mp single
  rw [← first] at interpreted
  rw [← stmt] at assigns
  cases lowered : lowerProgram (Config.standard false) copiesLetter with
  | mk result p =>
    rw [lowered] at succeeds small
    cases result with
    | error => cases succeeds
    | ok listing =>
      let base : Word := 0x10010000
      have aligned : base.toNat % 4 = 0 := by decide
      have shows : p.data.Shows base symbols zero (fun _ => 0) :=
        fun slot _ => Memory.read_zero (slot.width symbols) _
      obtain ⟨-, runs, -⟩ := lowerProgram_arrays lowered opens rfl rfl aligned small
      obtain ⟨c, d, ran, ran', -, shows', -⟩ :=
        runs before s [] parts ⟨fun _ => 0, fun _ => 0⟩ zero σ _ _ shows interpreted assigns
      have declared : Slot.Declared symbols (.scalar "x") := by decide +kernel
      have letter := shows' (.scalar "x") declared
      rw [Function.update_self] at letter
      exact ⟨listing, p, rfl, opens, small, before, s, parts, c, d, ran, ran', letter⟩

end MipsLowering
