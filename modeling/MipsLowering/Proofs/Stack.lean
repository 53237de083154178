import Mathlib.Algebra.Ring.Int.Defs
import Mathlib.Order.Lattice
import MipsLowering.Proofs.ArrayCode

/-! # Arguments on the stack

A call fetches its arguments one after the other and pushes each of them as one word, so that the last of
them ends up where the stack pointer points to.  Every argument is pushed with the value that it has when
the call begins, although others are fetched and pushed before it: names have registers of their own
(`Tables.Separates`), and the stack does not grow into what is still to be loaded (`Tables.Accepts`).
`Tables.runs_pushes` says what lies on the stack in the end, and `Tables.runs_release` what is left of it
behind the call. -/

namespace MipsLowering

-- The class of an operand is only used through the theorems about it.
seal Operand.ofString

theorem Memory.Apart.mono {a b b' : Word} {m n n' : Nat} (apart : Memory.Apart a m b n)
    (inside : ∀ x : Word, (x - b').toNat < n' → (x - b).toNat < n) : Memory.Apart a m b' n' :=
  fun x first second => apart x first (inside x second)

/-- The next word below a word. -/
theorem Width.admits_sub_four {a : Word} (aligned : Width.word.Admits a) : Width.word.Admits (a - 4) := by
  unfold Admits bytes at aligned ⊢
  bv_omega

namespace Tables

variable {t : Tables} {place : String → Word} {c d : Core} {operand : String} {operands : List String}

/-! ## What an operand depends on -/

/-- The stretch of memory from which an operand of a given class is loaded. -/
def sourceAs? (t : Tables) (place : String → Word) : Operand → Option (Width × Word)
  | .float value => some (.word, place (t.literal .float value))
  | .name name =>
    ((t.symbols.cell? name).filter fun s => !s.isArray).map fun s => (s.type.width, place name)
  | _ => none

def source? (t : Tables) (place : String → Word) (operand : String) : Option (Width × Word) :=
  t.sourceAs? place (Operand.ofString (Text.stripped operand))

theorem sourceAs?_of_cell {name : String} {s : Symbol} (cell : t.symbols.cell? name = some s)
    (scalar : s.isArray = false) : t.sourceAs? place (.name name) = some (s.type.width, place name) := by
  simp [sourceAs?, cell, scalar]

theorem admits_of_source?
    (aligned : ∀ width a, t.source? place operand = some (width, a) → width.Admits a) :
    t.Admits place operand := by
  unfold source? at aligned
  unfold Admits
  cases sort : Operand.ofString (Text.stripped operand) with
  | immediate | text => trivial
  | float written => exact aligned _ _ (by rw [sort]; rfl)
  | name name =>
    intro s cell scalar
    apply aligned
    rw [sort]
    exact sourceAs?_of_cell cell scalar

/-- An operand keeps its value as long as nothing changes where it is loaded from or, if it is in a
    register only, in that register. -/
theorem value_eq_of_source?
    (memory : ∀ width a, t.source? place operand = some (width, a) →
      d.memory.read width a = c.memory.read width a)
    (registers : ∀ name ∈ Stmt.namesIn operand, t.symbols.cell? name = none →
      d.reg (t.register name) = c.reg (t.register name)) :
    t.value place d operand = t.value place c operand := by
  unfold source? at memory
  unfold Stmt.namesIn at registers
  unfold value
  cases sort : Operand.ofString (Text.stripped operand) with
  | immediate | text => rfl
  | float written => exact memory _ _ (by rw [sort]; rfl)
  | name name =>
    rw [sort] at memory registers
    cases cell : t.symbols.cell? name with
    | none => simpa [valueAs, cell] using registers name (List.mem_singleton_self name) cell
    | some s =>
      cases array : s.isArray with
      | true => simp [valueAs, cell, array]
      | false => simpa [valueAs, cell, array] using memory _ _ (sourceAs?_of_cell cell array)

/-! ## Registers -/

/-- The names of operands have registers of their own, and the register for literals is none that a push
    needs. -/
structure Separates (t : Tables) (operands : List String) : Prop where
  draws : t.registers.DrawsOn t.config
  scratch : t.registers.scratch = t.config.scratch
  apart : t.registers.Apart
  bound : ∀ operand ∈ operands, ∀ name ∈ Stmt.namesIn operand, name ∈ t.registers.names
  stack : t.config.scratch0 ≠ stackPointer
  zero : t.config.scratch0 ≠ zeroRegister

namespace Separates

theorem tail {operand : String} {rest : List String} (separates : t.Separates (operand :: rest)) :
    t.Separates rest :=
  { separates with bound := fun other member => separates.bound other (List.mem_cons_of_mem _ member) }

variable (separates : t.Separates operands)

include separates

theorem literalRegister : t.registers.literalRegister (some t.config.scratch0) = t.config.scratch0 := by
  simp [RegisterFile.literalRegister, separates.scratch, Config.scratch0]

theorem lookup? (member : operand ∈ operands) {name : String} (named : name ∈ Stmt.namesIn operand) :
    t.registers.lookup? name = some (t.register name) := by
  obtain ⟨r, bound⟩ : ∃ r, t.registers.lookup? name = some r := by
    apply Option.isSome_iff_exists.mp
    exact RegisterFile.lookup?_isSome.mpr (separates.bound operand member name named)
  rw [bound, register, bound, Option.getD_some]

theorem register_ne_scratch0 (member : operand ∈ operands) {name : String}
    (named : name ∈ Stmt.namesIn operand) : t.register name ≠ t.config.scratch0 := by
  intro same
  have pooled := separates.draws.mem_pool (separates.lookup? member named)
  rw [same] at pooled
  exact t.config.not_mem_pool_of_scratch t.config.scratch0_mem pooled

theorem register_ne_stackPointer (name : String) : t.register name ≠ stackPointer :=
  register_ne separates.draws (by simp [Settings.isSpecial, reservedRegisters, stackPointer]) (by decide)
    name

theorem fetch_fst_ne_stackPointer (operand : String) :
    (t.fetch operand (some t.config.scratch0)).1 ≠ stackPointer := by
  unfold fetch
  rw [separates.literalRegister]
  cases Operand.ofString (Text.stripped operand) with
  | immediate | float | text => exact separates.stack
  | name name => exact separates.register_ne_stackPointer name

/-- The fetch of an operand takes no other operand out of its register. -/
theorem kept {other : String} (member : operand ∈ operands) (member' : other ∈ operands)
    (gets : c.Gets (t.fetch operand (some t.config.scratch0)).1 (t.value place c operand) d) :
    ∀ name ∈ Stmt.namesIn other, t.symbols.cell? name = none →
      d.reg (t.register name) = c.reg (t.register name) := by
  intro name named absent
  by_cases same : t.register name = (t.fetch operand (some t.config.scratch0)).1
  · have value := gets.value
    have apart := separates.register_ne_scratch0 member' named
    unfold fetch at same value
    rw [separates.literalRegister] at same value
    unfold Tables.value at value
    cases sort : Operand.ofString (Text.stripped operand) with
    | immediate | float | text =>
      rw [sort] at same
      exact absurd same apart
    | name own =>
      -- Then it is the same name, and fetching it leaves it where it is.
      rw [sort] at same value
      have namesOwn : own ∈ Stmt.namesIn operand := by simp [Stmt.namesIn, sort, Operand.names]
      obtain rfl : own = name := by
        apply separates.apart own name (t.register own)
        · exact separates.lookup? member namesOwn
        · rw [separates.lookup? member' named]
          exact congrArg some same
      simpa [fetchAs, valueAs, absent] using value
  · exact gets.others _ same

end Separates

/-! ## Pushes -/

/-- A core on which the stack has room for operands: it does not reach what they are loaded from. -/
structure Accepts (t : Tables) (place : String → Word) (c : Core) (operands : List String) : Prop where
  aligned : Width.word.Admits (c.reg stackPointer)
  room : 4 * operands.length ≤ 2 ^ 32
  sources : ∀ operand ∈ operands, ∀ width a, t.source? place operand = some (width, a) →
    width.Admits a ∧ Memory.Apart a width.bytes
      (c.reg stackPointer - BitVec.ofNat 32 (4 * operands.length)) (4 * operands.length)

end Tables

/-- Values have been pushed: they lie above the stack pointer, the last one lowest, and nothing else in
    memory has changed. -/
structure Core.Stacks (c : Core) (values : List Word) (d : Core) : Prop where
  pointer : d.reg stackPointer = c.reg stackPointer - BitVec.ofNat 32 (4 * values.length)
  words : ∀ (j : Nat) (inside : j < values.length),
    d.memory.read .word (d.reg stackPointer + BitVec.ofNat 32 (4 * (values.length - 1 - j))) = values[j]
  others : ∀ x : Word, ¬ (x - d.reg stackPointer).toNat < 4 * values.length → d.memory x = c.memory x

/-- One more value below those that are there already is the first of those that are pushed. -/
theorem Core.Stacks.cons {c e d : Core} {v : Word} {values : List Word} (room : 4 * (values.length + 1) ≤ 2 ^ 32)
    (pointer : e.reg stackPointer = c.reg stackPointer - 4)
    (memory : e.memory = c.memory.write .word (c.reg stackPointer - 4) v) (pushed : e.Stacks values d) :
    c.Stacks (v :: values) d where
  pointer := by
    rw [pushed.pointer, pointer, List.length_cons]
    bv_omega
  words j inside := by
    have below := pushed.pointer
    rw [pointer] at below
    cases j with
    | zero =>
      -- The first word is above all that comes later.
      have place : d.reg stackPointer + BitVec.ofNat 32 (4 * ((v :: values).length - 1 - 0)) =
          c.reg stackPointer - 4 := by
        rw [below, List.length_cons]
        bv_omega
      have kept : d.memory.read .word (c.reg stackPointer - 4) =
          e.memory.read .word (c.reg stackPointer - 4) := by
        apply Memory.read_congr
        intro x within
        apply pushed.others
        rw [below]
        simp only [Width.bytes] at within
        bv_omega
      rw [place, kept, memory, Memory.read_write_self]
      rfl
    | succ j =>
      have shifted : (v :: values).length - 1 - (j + 1) = values.length - 1 - j := by
        rw [List.length_cons]
        omega
      rw [shifted]
      exact pushed.words j (Nat.lt_of_succ_lt_succ inside)
  others x outside := by
    have below := pushed.pointer
    rw [pointer] at below
    rw [below, List.length_cons] at outside
    rw [pushed.others x (by rw [below]; bv_omega), memory]
    apply Memory.write_outside
    simp only [Width.bytes]
    bv_omega

namespace Tables

variable {t : Tables} {place : String → Word} {c d : Core} {operand : String} {operands : List String}

/-- A push brings the value of its operand to the top of the stack. -/
theorem runs_push (separates : t.Separates operands) (member : operand ∈ operands)
    (size : t.config.wordSize = 4) (admits : t.Admits place operand)
    (aligned : Width.word.Admits (c.reg stackPointer)) :
    ∃ d, Core.run place ((t.pushCode operand).map Op.node) c = some d ∧
      d.reg stackPointer = c.reg stackPointer - 4 ∧
      d.memory = c.memory.write .word (c.reg stackPointer - 4) (t.value place c operand) ∧
      ∀ other ∈ operands, ∀ name ∈ Stmt.namesIn other, t.symbols.cell? name = none →
        d.reg (t.register name) = c.reg (t.register name) := by
  have notZero : t.registers.literalRegister (some t.config.scratch0) ≠ zeroRegister := by
    rw [separates.literalRegister]
    exact separates.zero
  have notStack := separates.fetch_fst_ne_stackPointer operand
  obtain ⟨e, ran, gets⟩ := runs_fetch separates.draws notZero admits c
  have pointer : e.reg stackPointer = c.reg stackPointer := gets.others _ notStack.symm
  let lowered := e.setReg stackPointer (c.reg stackPointer - 4)
  have lowers : e.exec place (.aluImm .addiu stackPointer stackPointer (-t.config.wordSize)) =
      some lowered := by
    have four : BitVec.ofInt 32 (-4) = -4 := by decide
    rw [Core.exec, pointer, size, ImmOp.eval, four, ← BitVec.sub_eq_add_neg]
  have top : lowered.reg stackPointer = c.reg stackPointer - 4 := e.reg_setReg_self _ (by decide)
  have fetched : lowered.reg (t.fetch operand (some t.config.scratch0)).1 = t.value place c operand :=
    (e.reg_setReg_of_ne _ notStack).trans gets.value
  let written := c.memory.write .word (c.reg stackPointer - 4) (t.value place c operand)
  have stores : lowered.exec place (.store .word (t.fetch operand (some t.config.scratch0)).1
      (.base stackPointer)) = some ⟨lowered.registers, written⟩ := by
    rw [Core.exec, Core.locate, top, if_pos (Width.admits_sub_four aligned), fetched, e.memory_setReg, gets.memory]
  refine ⟨⟨lowered.registers, written⟩, ?_, top, rfl, ?_⟩
  · unfold pushCode
    rw [List.map_append]
    apply Core.run_append_some ran
    rw [Core.run_op_cons lowers]
    exact Core.run_op stores
  · intro other member' name named absent
    have notPointer := separates.register_ne_stackPointer name
    exact (e.reg_setReg_of_ne _ notPointer).trans (separates.kept member member' gets name named absent)

theorem Accepts.admits (accepts : t.Accepts place c operands) (member : operand ∈ operands) :
    t.Admits place operand :=
  admits_of_source? fun width a loaded => (accepts.sources operand member width a loaded).1

/-- Behind a push there is room for the rest. -/
theorem Accepts.tail {rest : List String} (accepts : t.Accepts place c (operand :: rest))
    (pointer : d.reg stackPointer = c.reg stackPointer - 4) : t.Accepts place d rest := by
  have room := accepts.room
  rw [List.length_cons] at room
  refine ⟨?_, by omega, ?_⟩
  · rw [pointer]
    exact Width.admits_sub_four accepts.aligned
  · intro other member width a loaded
    obtain ⟨admits, apart⟩ := accepts.sources other (List.mem_cons_of_mem _ member) width a loaded
    refine ⟨admits, apart.mono fun x inside => ?_⟩
    rw [pointer] at inside
    rw [List.length_cons]
    bv_omega

/-- The arguments are pushed in their order, each with the value that it has before the first of them is
    pushed. -/
theorem runs_pushes (separates : t.Separates operands) (size : t.config.wordSize = 4)
    (accepts : t.Accepts place c operands) :
    ∃ d, Core.run place ((operands.flatMap t.pushCode).map Op.node) c = some d ∧
      c.Stacks (operands.map (t.value place c)) d := by
  induction operands generalizing c with
  | nil => exact ⟨c, rfl, by simp, by simp, fun _ _ => rfl⟩
  | cons operand rest ih =>
    obtain ⟨e, ranFirst, pointer, memory, registers⟩ := runs_push separates List.mem_cons_self size
      (accepts.admits List.mem_cons_self) accepts.aligned
    obtain ⟨d, ranRest, pushed⟩ := ih separates.tail (accepts.tail pointer)
    have room := accepts.room
    rw [List.length_cons] at room
    -- What is pushed first does not show in the values of the others.
    have values : rest.map (t.value place e) = rest.map (t.value place c) := by
      apply List.map_congr_left
      intro other member
      have later : other ∈ operand :: rest := List.mem_cons_of_mem _ member
      apply value_eq_of_source?
      · intro width a loaded
        rw [memory]
        apply Memory.read_write_apart
        obtain ⟨_, apart⟩ := accepts.sources other later width a loaded
        apply apart.mono
        intro x inside
        rw [List.length_cons]
        simp only [Width.bytes] at inside
        bv_omega
      · exact registers other later
    refine ⟨d, ?_, ?_⟩
    · rw [List.flatMap_cons, List.map_append]
      exact Core.run_append_some ranFirst ranRest
    · rw [values] at pushed
      exact Core.Stacks.cons (by simpa using room) pointer memory pushed

/-! ## Behind the call -/

/-- The line that releases `n` words of the stack, if there is anything to release. -/
def releaseLines (n wordSize : Int) : List Node :=
  if n ≤ 0 then [] else [(Op.aluImm .addiu stackPointer stackPointer (n * wordSize)).node]

theorem releaseCode_eq {n : Int} {is : List Instr}
    (popped : Lower.popCode n t.config.wordSize = .ok is) :
    t.releaseCode (some n) = releaseLines n t.config.wordSize := by
  unfold releaseCode releaseLines
  rw [Option.getD_some, popped]
  rcases Lower.popCode_cases popped with ⟨nothing, rfl⟩ | ⟨positive, rfl⟩
  · rw [if_pos nothing]
    rfl
  · rw [if_neg (Int.not_le.mpr positive)]
    rfl

theorem runs_release (n : Int) (c : Core) :
    ∃ d, Core.run place (releaseLines n 4) c = some d ∧
      d.reg stackPointer = c.reg stackPointer + BitVec.ofInt 32 (4 * max n 0) := by
  unfold releaseLines
  split
  next nothing =>
    refine ⟨c, rfl, ?_⟩
    rw [max_eq_right nothing]
    simp
  next positive =>
    refine ⟨_, Core.run_op rfl, ?_⟩
    rw [Core.reg_setReg_self _ _ (by decide), ImmOp.eval, max_eq_left (by omega), mul_comm]

/-- The result is taken without a change to a register. -/
theorem runs_result {target : Option String}
    (aligned : ∀ name, Stmt.given target = some name → ∀ width a,
      t.sourceAs? place (.name name) = some (width, a) → width.Admits a) (c : Core) :
    ∃ d, Core.run place (t.resultCode target) c = some d ∧ ∀ r, d.reg r = c.reg r := by
  unfold resultCode
  cases given : Stmt.given target with
  | none => exact ⟨c, rfl, fun _ => rfl⟩
  | some name =>
    simp only [store]
    cases cell : t.symbols.cell? name with
    | none => exact ⟨c, rfl, fun _ => rfl⟩
    | some s =>
      simp only
      split
      · exact ⟨c, rfl, fun _ => rfl⟩
      next scalar =>
        have admits := aligned name given _ _ (sourceAs?_of_cell cell (by simpa using scalar))
        exact ⟨_, Core.run_op (if_pos admits), fun _ => rfl⟩

/-- A call that releases more words than it has pushed leaves the stack pointer above the place where it
    was. -/
theorem pointer_behind_call (pointer : Word) (n : Int) (queued : Nat) :
    pointer - BitVec.ofNat 32 (4 * min n.toNat queued) + BitVec.ofInt 32 (4 * max n 0) =
      pointer + BitVec.ofInt 32 (4 * max 0 (n - queued)) := by
  have parts : BitVec.ofInt 32 (4 * max n 0) =
      BitVec.ofInt 32 (4 * max 0 (n - queued)) + BitVec.ofNat 32 (4 * min n.toNat queued) := by
    rw [← BitVec.ofInt_natCast, ← BitVec.ofInt_add]
    congr 1
    omega
  rw [parts]
  bv_omega

theorem pointer_behind_call_eq_iff (pointer : Word) {n : Int} {queued : Nat} (low : n - queued < 2 ^ 30) :
    pointer + BitVec.ofInt 32 (4 * max 0 (n - queued)) = pointer ↔ n ≤ queued := by
  constructor
  · intro same
    have zero : (BitVec.ofInt 32 (4 * max 0 (n - queued))).toNat = 0 := by bv_omega
    rw [BitVec.toNat_ofInt] at zero
    omega
  · intro enough
    rw [max_eq_left (by omega)]
    simp

end Tables

end MipsLowering
