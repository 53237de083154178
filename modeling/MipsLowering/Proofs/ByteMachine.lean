import Mathlib.Algebra.Group.Nat.Defs
import MipsLowering.Proofs.Operands
import MipsLowering.Proofs.Registers
import MipsLowering.Proofs.SettledCode

/-! # The machine, byte by byte

For the machine of `MipsLowering.Proofs.Machine` a cell is known by its label, and what lies behind a base
register is out of reach.  Here memory is a map from addresses to bytes: an access reaches any of them,
words have their low byte first, and a word that does not begin at a multiple of four cannot be
accessed.

* `Memory.read` and `Memory.write` move a byte or a word, and `Memory.Apart` says that two ranges of
  addresses have nothing in common.
* `Core` is what registers and memory hold, and `Core.run` runs lines that are passed from the first to the
  last; jumps, calls and the console are left to those who need them.
* `Tables.value` is the value of an operand, and `Tables.runs_fetch` says that the code that fetches an
  operand gets it. -/

namespace MipsLowering

/-- The number that digits of any script with an optional minus sign denote. -/
def Text.integer? (cs : List Char) : Option Int :=
  if Lexeme.isInteger cs then
    match cs with
    | '-' :: digits => some (-(natOfDigits digits : Int))
    | digits => some (natOfDigits digits : Int)
  else none

/-! ## Memory -/

abbrev Memory := Word → BitVec 8

namespace Memory

variable (m : Memory)

/-- The byte or the word at an address.  A byte comes with its sign. -/
def read : Width → Word → Word
  | .byte, a => (m a).signExtend 32
  | .word, a => m (a + 3) ++ m (a + 2) ++ m (a + 1) ++ m a

def write (width : Width) (a v : Word) : Memory :=
  fun x => if (x - a).toNat < width.bytes then v.extractLsb' (8 * (x - a).toNat) 8 else m x

/-- The `m` bytes from `a` on and the `n` bytes from `b` on have nothing in common. -/
def Apart (a : Word) (m : Nat) (b : Word) (n : Nat) : Prop :=
  ∀ x : Word, (x - a).toNat < m → ¬ (x - b).toNat < n

variable {m} {m' : Memory} {width other : Width} {a b v : Word}

theorem write_outside {x : Word} (outside : ¬ (x - a).toNat < width.bytes) : m.write width a v x = m x :=
  if_neg outside

theorem read_congr (same : ∀ x : Word, (x - a).toNat < width.bytes → m x = m' x) :
    m.read width a = m'.read width a := by
  cases width with
  | byte =>
    have byte : m a = m' a := same a (by simp [Width.bytes])
    simp only [read, byte]
  | word =>
    have bytes : ∀ i : Word, i.toNat < 4 → m (a + i) = m' (a + i) := by
      intro i below
      apply same
      show (a + i - a).toNat < 4
      bv_omega
    have first : m a = m' a := by simpa using bytes 0 (by decide)
    simp only [read, first, bytes 1 (by decide), bytes 2 (by decide), bytes 3 (by decide)]

/-- A write does not show in what is read elsewhere. -/
theorem read_write_apart (apart : Apart b other.bytes a width.bytes) :
    (m.write width a v).read other b = m.read other b :=
  read_congr fun x inside => write_outside (apart x inside)

/-- What is read back is what a cell of the width can keep. -/
theorem read_write_self : (m.write width a v).read width a = width.narrow v := by
  cases width with
  | byte =>
    have byte : m.write .byte a v a = v.setWidth 8 := by
      rw [BitVec.setWidth_eq_extractLsb' (by decide)]
      simp [write, Width.bytes]
    simp only [read, byte, Width.narrow]
  | word =>
    have bytes : ∀ i : Word, i.toNat < 4 →
        m.write .word a v (a + i) = v.extractLsb' (8 * i.toNat) 8 := by
      intro i below
      have distance : (a + i - a).toNat = i.toNat := by bv_omega
      simp only [write, distance, Width.bytes, below, if_true]
    have first : m.write .word a v a = v.extractLsb' 0 8 := by simpa using bytes 0 (by decide)
    calc (m.write .word a v).read .word a
        = v.extractLsb' 24 8 ++ v.extractLsb' 16 8 ++ v.extractLsb' 8 8 ++ v.extractLsb' 0 8 := by
          simp only [read, first, bytes 1 (by decide), bytes 2 (by decide), bytes 3 (by decide)]
          rfl
      _ = v := by
          rw [BitVec.extractLsb'_append_extractLsb'_eq_extractLsb' (by rfl : 24 = 16 + 8),
            BitVec.extractLsb'_append_extractLsb'_eq_extractLsb' (by rfl : 16 = 8 + 8),
            BitVec.extractLsb'_append_extractLsb'_eq_extractLsb' (by rfl : 8 = 0 + 8)]
          exact BitVec.extractLsb'_eq_self

theorem read_zero (width : Width) (a : Word) : read (fun _ => 0) width a = 0 := by
  cases width with
  | byte => rfl
  | word =>
    show (0#8 ++ 0#8 ++ 0#8 ++ 0#8 : BitVec 32) = 0
    decide

/-- Ranges at different offsets of one base. -/
theorem apart_of_offsets (base : Word) {i j m n : Nat} (first : i + m ≤ 2 ^ 32) (second : j + n ≤ 2 ^ 32)
    (disjoint : i + m ≤ j ∨ j + n ≤ i) :
    Apart (base + BitVec.ofNat 32 i) m (base + BitVec.ofNat 32 j) n := by
  intro x inside
  bv_omega

end Memory

/-! ## Lines -/

/-- What registers and memory hold. -/
structure Core where
  registers : Register → Word
  memory : Memory

namespace Core

/-- The content of a register; one of them always holds zero. -/
def reg (c : Core) (r : Register) : Word :=
  if r = zeroRegister then 0 else c.registers r

def setReg (c : Core) (r : Register) (value : Word) : Core :=
  { c with registers := fun other => if other = r then value else c.registers other }

/-- The address at which an access takes place, if labels are at the addresses `place`. -/
def locate (c : Core) (place : String → Word) : Address → Word
  | .label name => place name
  | .base register => c.reg register

@[simp] theorem reg_setReg_self (c : Core) {r : Register} (value : Word) (notZero : r ≠ zeroRegister) :
    (c.setReg r value).reg r = value := by
  simp [reg, setReg, notZero]

@[simp] theorem reg_setReg_of_ne (c : Core) {r other : Register} (value : Word) (differs : other ≠ r) :
    (c.setReg r value).reg other = c.reg other := by
  simp [reg, setReg, differs]

@[simp] theorem memory_setReg (c : Core) (r : Register) (value : Word) :
    (c.setReg r value).memory = c.memory :=
  rfl

end Core

/-- Whether an access can take place at an address. -/
def Width.Admits (width : Width) (a : Word) : Prop :=
  a.toNat % width.bytes = 0

instance (width : Width) (a : Word) : Decidable (width.Admits a) :=
  inferInstanceAs (Decidable (_ = _))

namespace Core

variable (place : String → Word)

/-- What an operation does, if the machine goes on behind it. -/
def exec (c : Core) : Op → Option Core
  | .alu op dest left right => some (c.setReg dest (op.eval (c.reg left) (c.reg right)))
  | .aluImm op dest source value => some (c.setReg dest (op.eval (c.reg source) value))
  | .li dest value => (Text.integer? value.toList).map fun n => c.setReg dest (BitVec.ofInt 32 n)
  | .la dest label => some (c.setReg dest (place label))
  | .move dest source => some (c.setReg dest (c.reg source))
  | .load width dest address =>
    if width.Admits (c.locate place address) then
      some (c.setReg dest (c.memory.read width (c.locate place address)))
    else none
  | .store width source address =>
    if width.Admits (c.locate place address) then
      some { c with memory := c.memory.write width (c.locate place address) (c.reg source) }
    else none
  | _ => none

/-- What lines do that are passed one after the other. -/
def run : List Node → Core → Option Core
  | [], c => some c
  | .instr i :: rest, c => (c.exec place i.op).bind (run rest)
  | .label _ :: rest, c | .comment _ :: rest, c => run rest c
  | .directive _ :: _, _ => none

variable {place} {c d e : Core}

theorem run_append (first second : List Node) (c : Core) :
    run place (first ++ second) c = (run place first c).bind (run place second) := by
  induction first generalizing c with
  | nil => rfl
  | cons node rest ih =>
    cases node with
    | instr i =>
      simp only [List.cons_append, run, Option.bind_assoc]
      exact congrArg ((c.exec place i.op).bind ·) (funext ih)
    | label name | comment text => exact ih c
    | directive d => rfl

theorem run_append_some {first second : List Node} (ran : run place first c = some d)
    (ran' : run place second d = some e) : run place (first ++ second) c = some e := by
  rw [run_append, ran]
  exact ran'

/-- Comments behind instructions do not matter. -/
theorem run_map_bare (nodes : List Node) (c : Core) :
    run place (nodes.map Node.bare) c = run place nodes c := by
  induction nodes generalizing c with
  | nil => rfl
  | cons node rest ih =>
    cases node with
    | instr i =>
      show (c.exec place i.op).bind (run place (rest.map Node.bare)) = _
      exact congrArg ((c.exec place i.op).bind ·) (funext ih)
    | label name | comment text => exact ih c
    | directive d => rfl

theorem run_op_cons {op : Op} {rest : List Op} (ran : c.exec place op = some d) :
    run place ((op :: rest).map Op.node) c = run place (rest.map Op.node) d := by
  show (c.exec place op).bind (run place (rest.map Op.node)) = _
  rw [ran]
  rfl

theorem run_op {op : Op} (ran : c.exec place op = some d) : run place [op.node] c = some d :=
  @run_op_cons place c d op [] ran

/-- Nothing has changed but one register, which has got a value. -/
structure Gets (c : Core) (r : Register) (v : Word) (d : Core) : Prop where
  memory : d.memory = c.memory
  value : d.reg r = v
  others : ∀ other, other ≠ r → d.reg other = c.reg other

theorem gets_setReg (c : Core) {r : Register} (v : Word) (notZero : r ≠ zeroRegister) :
    c.Gets r v (c.setReg r v) :=
  ⟨rfl, c.reg_setReg_self v notZero, fun _ differs => c.reg_setReg_of_ne v differs⟩

end Core

/-! ## Operands -/

theorem Lexeme.isInteger_toString (n : Nat) : isInteger (toString n).toList = true := by
  have digits : ∀ c ∈ (toString n).toList, c.isDigit = true := by
    intro c member
    have digit : c ∈ Nat.toDigits 10 n := by simpa using member
    exact Nat.isDigit_of_mem_toDigits (by decide) (by decide) digit
  have unsigned : dropMinus (toString n).toList = (toString n).toList := by
    unfold dropMinus
    split
    next rest same => exact absurd (digits '-' (same ▸ List.mem_cons_self)) (by decide)
    next => rfl
  rw [isInteger, unsigned, isNumeral, Bool.and_eq_true, List.all_eq_true]
  refine ⟨by simp, fun c member => Text.isDecimal_of_isDigit (digits c member)⟩

/-- The numerals of immediate operands can be read. -/
theorem Text.integer?_of_immediate {s value : String} (sort : Operand.ofString s = .immediate value) :
    ∃ n, Text.integer? value.toList = some n := by
  have known : ∀ cs : List Char, Lexeme.isInteger cs = true → ∃ n, Text.integer? cs = some n := by
    intro cs integer
    unfold Text.integer?
    rw [if_pos integer]
    split
    · exact ⟨_, rfl⟩
    · exact ⟨_, rfl⟩
  obtain ⟨literal, rfl⟩ := immediate_spec sort
  apply known
  unfold Lexeme.immediate
  split
  · decide
  next notTrue =>
    split
    · decide
    next notFalse =>
      split
      next c _ => exact Lexeme.isInteger_toString c.toNat
      next notChar =>
        simpa [Lexeme.isBoolean, Lexeme.isCharLiteral, notTrue, notFalse, notChar] using literal

namespace Tables

variable (t : Tables)

/-- The value of an operand of a given class. -/
def valueAs (place : String → Word) (c : Core) : Operand → Word
  | .immediate value => BitVec.ofInt 32 ((Text.integer? value.toList).getD 0)
  | .float value => c.memory.read .word (place (t.literal .float value))
  | .text value => place (t.literal .string value)
  | .name name =>
    match t.symbols.cell? name with
    | none => c.reg (t.register name)
    | some s => if s.isArray then place name else c.memory.read s.type.width (place name)

/-- The value of an operand: a number, what a name holds in its cell or in its register, or the address
    of an array or a text. -/
def value (place : String → Word) (c : Core) (operand : String) : Word :=
  t.valueAs place c (Operand.ofString (Text.stripped operand))

/-- The addresses from which an operand of a given class is loaded can be accessed. -/
def AdmitsAs (place : String → Word) : Operand → Prop
  | .float value => Width.word.Admits (place (t.literal .float value))
  | .name name => ∀ s, t.symbols.cell? name = some s → s.isArray = false →
      s.type.width.Admits (place name)
  | _ => True

def Admits (place : String → Word) (operand : String) : Prop :=
  t.AdmitsAs place (Operand.ofString (Text.stripped operand))

variable {t} {place : String → Word}

/-- The register of a name has no other part. -/
theorem register_ne (draws : t.registers.DrawsOn t.config) {r : Register}
    (special : t.config.isSpecial r = true) (named : r ≠ "") (name : String) : t.register name ≠ r := by
  rintro rfl
  unfold register at special named
  cases bound : t.registers.lookup? name with
  | none => simp [bound] at named
  | some r =>
    rw [bound] at special
    rw [Option.getD_some, t.config.isSpecial_of_mem_pool (draws.mem_pool bound)] at special
    cases special

theorem register_ne_zeroRegister (draws : t.registers.DrawsOn t.config) (name : String) :
    t.register name ≠ zeroRegister :=
  register_ne draws (by simp [Settings.isSpecial, reservedRegisters, zeroRegister]) (by decide) name

/-- The code that loads a name brings its value into the register of the name and changes nothing else. -/
theorem runs_load (draws : t.registers.DrawsOn t.config) {name : String}
    (admits : t.AdmitsAs place (.name name)) (c : Core) :
    ∃ d, Core.run place ((t.load name (t.register name)).map Op.node) c = some d ∧
      c.Gets (t.register name) (t.valueAs place c (.name name)) d := by
  have pooled := register_ne_zeroRegister draws name
  simp only [valueAs, load]
  cases cell : t.symbols.cell? name with
  | none => exact ⟨c, rfl, rfl, rfl, fun _ _ => rfl⟩
  | some s =>
    simp only
    split
    · exact ⟨_, Core.run_op_cons rfl, c.gets_setReg _ pooled⟩
    next scalar =>
      have admitted := admits s cell (by simpa using scalar)
      exact ⟨_, Core.run_op_cons (if_pos admitted), c.gets_setReg _ pooled⟩

/-- The code that fetches an operand brings its value into a register and changes nothing else. -/
theorem runs_fetch (draws : t.registers.DrawsOn t.config) {operand : String}
    {wanted : Option Register} (notZero : t.registers.literalRegister wanted ≠ zeroRegister)
    (admits : t.Admits place operand) (c : Core) :
    ∃ d, Core.run place ((t.fetch operand wanted).2.map Op.node) c = some d ∧
      c.Gets (t.fetch operand wanted).1 (t.value place c operand) d := by
  unfold Admits at admits
  unfold fetch value
  cases sort : Operand.ofString (Text.stripped operand) with
  | immediate constant =>
    obtain ⟨n, number⟩ := Text.integer?_of_immediate sort
    refine ⟨_, Core.run_op_cons (by rw [Core.exec, number, Option.map_some]), ?_⟩
    simp only [valueAs, number, Option.getD_some]
    exact c.gets_setReg _ notZero
  | float written =>
    rw [sort] at admits
    exact ⟨_, Core.run_op_cons (if_pos admits), c.gets_setReg _ notZero⟩
  | text written => exact ⟨_, Core.run_op_cons rfl, c.gets_setReg _ notZero⟩
  | name name =>
    rw [sort] at admits
    exact runs_load draws admits c

end Tables

end MipsLowering
