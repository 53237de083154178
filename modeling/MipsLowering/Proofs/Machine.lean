import Mathlib.Logic.Function.Iterate
import MipsLowering.Program
import MipsLowering.Proofs.Word

/-! # The machine

A machine that runs the text section of a listing.  Registers hold words, every scalar or float of the
data section is one cell known by its label, and the console is a stream of inputs and a list of
outputs.  The place that the machine has come to is the rest of the listing from there on, so a jump
goes on with the listing from its label.

* `Image` is what is loaded: the entry label, the text section and the data section.
* `Content` is what registers, cells and console hold, and `Image.exec` what one operation does to it.
* `Image.step` is one step of the machine, and `Image.runBlock` runs a stretch of the listing up to its
  end or the first jump out of it; `runBlock_steps` says that the machine does the same step by step.

The elements of arrays and the stack are not modelled: an access through a base register gets the
machine stuck. -/

namespace MipsLowering

/-- The number that ASCII digits denote. -/
def Text.natural? (cs : List Char) : Option Nat :=
  if !cs.isEmpty && cs.all Char.isDigit then some (natOfDigits cs) else none

/-- The number that ASCII digits with an optional minus sign denote. -/
def Text.decimal? : List Char → Option Int
  | '-' :: digits => (natural? digits).map fun n : Nat => -(n : Int)
  | digits => (natural? digits).map fun n : Nat => (n : Int)

/-! ## What the machine holds -/

/-- What the console shows. -/
inductive Output where
  | int (value : Int)
  | float (bits : Word)
  | text (address : Word)
  | char (code : Word)
  deriving Repr, DecidableEq

/-- A cell of the data section.  It is only read and written at its own width. -/
structure Cell where
  width : Width
  value : Word
  deriving Repr, DecidableEq

structure Content where
  registers : Register → Word
  /-- The register that takes quotients. -/
  lo : Word
  floats : Register → Word
  cells : String → Option Cell
  /-- The integers still to be typed. -/
  input : Nat → Word
  out : List Output

namespace Content

/-- The content of a register; one of them always holds zero. -/
def reg (c : Content) (r : Register) : Word :=
  if r = zeroRegister then 0 else c.registers r

def setReg (c : Content) (r : Register) (value : Word) : Content :=
  { c with registers := fun other => if other = r then value else c.registers other }

def setLo (c : Content) (value : Word) : Content :=
  { c with lo := value }

def setCell (c : Content) (name : String) (cell : Cell) : Content :=
  { c with cells := fun other => if other = name then some cell else c.cells other }

def print (c : Content) (output : Output) : Content :=
  { c with out := c.out ++ [output] }

@[simp] theorem reg_zeroRegister (c : Content) : c.reg zeroRegister = 0 := by
  simp [reg]

@[simp] theorem reg_setReg_self (c : Content) {r : Register} (value : Word)
    (notZero : r ≠ zeroRegister) : (c.setReg r value).reg r = value := by
  simp [reg, setReg, notZero]

@[simp] theorem reg_setReg_of_ne (c : Content) {r other : Register} (value : Word)
    (differs : other ≠ r) : (c.setReg r value).reg other = c.reg other := by
  simp [reg, setReg, differs]

@[simp] theorem cells_setReg (c : Content) (r : Register) (value : Word) :
    (c.setReg r value).cells = c.cells :=
  rfl

@[simp] theorem out_setReg (c : Content) (r : Register) (value : Word) :
    (c.setReg r value).out = c.out :=
  rfl

/-- The later of two writes to a register counts. -/
@[simp] theorem setReg_setReg (c : Content) (r : Register) (first second : Word) :
    (c.setReg r first).setReg r second = c.setReg r second := by
  simp only [setReg, Content.mk.injEq, and_true]
  funext other
  by_cases same : other = r <;> simp [same]

@[simp] theorem reg_setLo (c : Content) (value : Word) (r : Register) :
    (c.setLo value).reg r = c.reg r :=
  rfl

@[simp] theorem cells_setLo (c : Content) (value : Word) : (c.setLo value).cells = c.cells :=
  rfl

@[simp] theorem out_setLo (c : Content) (value : Word) : (c.setLo value).out = c.out :=
  rfl

@[simp] theorem reg_setCell (c : Content) (name : String) (cell : Cell) (r : Register) :
    (c.setCell name cell).reg r = c.reg r :=
  rfl

@[simp] theorem cells_setCell_self (c : Content) (name : String) (cell : Cell) :
    (c.setCell name cell).cells name = some cell := by
  simp [setCell]

@[simp] theorem cells_setCell_of_ne (c : Content) {name other : String} (cell : Cell)
    (differs : other ≠ name) : (c.setCell name cell).cells other = c.cells other := by
  simp [setCell, differs]

@[simp] theorem out_setCell (c : Content) (name : String) (cell : Cell) :
    (c.setCell name cell).out = c.out :=
  rfl

end Content

/-- What lies outside of the listing and is not settled by it. -/
structure World where
  /-- Where the loader puts a label of the data section. -/
  address : String → Word
  /-- The bits of a float. -/
  floatBits : String → Word
  /-- What a division by zero leaves as the quotient of a dividend. -/
  byZero : Word → Word
  /-- What a function that the listing does not define does before it returns. -/
  outside : String → Content → Content
  /-- The integers that are typed at the console. -/
  input : Nat → Word

/-- The cell that a directive lays out, if it is a scalar or a float. -/
def World.cellOf (w : World) : Storage → Option Cell
  | .word => some ⟨.word, 0⟩
  | .byte => some ⟨.byte, 0⟩
  | .float value => some ⟨.word, w.floatBits value⟩
  | _ => none

/-- A program as it is loaded. -/
structure Image where
  entry : String
  text : List Node
  data : List Directive

/-- The program that a pass has laid out. -/
def Pass.image (p : Pass) : Image :=
  ⟨p.config.entryLabel, p.text, p.data.directives⟩

/-! ## Operations -/

/-- Where the machine goes after an operation. -/
inductive Flow where
  | next
  | jump (label : String)
  /-- To the line of the text section with this number. -/
  | line (number : Nat)
  | exit
  deriving Repr, DecidableEq

namespace Image

/-- The listing from a label on.  The entry label stands for the beginning unless the text section has
    a line for it. -/
def from? (m : Image) (label : String) : Option (List Node) :=
  if Node.label label ∈ m.text then some (m.text.dropWhile (· != .label label))
  else if label = m.entry then some m.text
  else none

/-- The service that the result register asks for. -/
def service (c : Content) : Option (Content × Flow) :=
  match (c.reg resultRegister).toNat with
  | 1 => some (c.print (.int (c.reg argumentRegister).toInt), .next)
  | 2 => some (c.print (.float (c.floats floatArgumentRegister)), .next)
  | 4 => some (c.print (.text (c.reg argumentRegister)), .next)
  | 5 => some ({ c.setReg resultRegister (c.input 0) with input := fun n => c.input (n + 1) }, .next)
  | 10 => some (c, .exit)
  | 11 => some (c.print (.char (c.reg argumentRegister)), .next)
  | _ => none

/-- What an operation does, if it can be done; `rest` is the listing behind it. -/
def exec (m : Image) (w : World) (rest : List Node) (c : Content) : Op → Option (Content × Flow)
  | .alu op dest left right => some (c.setReg dest (op.eval (c.reg left) (c.reg right)), .next)
  | .aluImm op dest source value => some (c.setReg dest (op.eval (c.reg source) value), .next)
  | .div left right =>
    some (c.setLo (quotient w.byZero (c.reg left) (c.reg right)), .next)
  | .mflo dest => some (c.setReg dest c.lo, .next)
  | .li dest value =>
    (Text.decimal? value.toList).map fun n => (c.setReg dest (BitVec.ofInt 32 n), .next)
  | .la dest label => some (c.setReg dest (w.address label), .next)
  | .move dest source => some (c.setReg dest (c.reg source), .next)
  | .load width dest (.label name) =>
    match c.cells name with
    | some cell => if cell.width = width then some (c.setReg dest cell.value, .next) else none
    | none => none
  | .store width source (.label name) =>
    match c.cells name with
    | some cell =>
      if cell.width = width then
        some (c.setCell name ⟨width, width.narrow (c.reg source)⟩, .next)
      else none
    | none => none
  | .load _ _ (.base _) | .store _ _ (.base _) => none
  | .mtc1 source dest =>
    some ({ c with floats := fun other => if other = dest then c.reg source else c.floats other },
      .next)
  | .bnez register label =>
    some (c, if c.reg register = 0 then .next else .jump label)
  | .beq left right label =>
    some (c, if c.reg left = c.reg right then .jump label else .next)
  | .j label => some (c, .jump label)
  | .jal label =>
    match m.from? label with
    | some _ => some (c.setReg linkRegister (m.text.length - rest.length), .jump label)
    | none => some (w.outside label c, .next)
  | .jr register => some (c, .line (c.reg register).toNat)
  | .syscall => service c
  | .other _ _ => none

end Image

/-! ## Steps -/

/-- Whether the machine goes on, and if not why. -/
inductive Status where
  | running
  /-- The program has asked to end. -/
  | exited
  /-- The end of the listing was passed. -/
  | ranOff
  /-- There is something that cannot be done. -/
  | stuck
  deriving Repr, DecidableEq

/-- A machine at work: what it holds, and the listing from where it stands. -/
structure Machine where
  content : Content
  rest : List Node
  status : Status

namespace Image

/-- The machine after an operation; `rest` is the listing behind it. -/
def arrive (m : Image) (c : Content) (rest : List Node) : Flow → Machine
  | .next => ⟨c, rest, .running⟩
  | .jump label =>
    match m.from? label with
    | some there => ⟨c, there, .running⟩
    | none => ⟨c, [], .stuck⟩
  | .line number => ⟨c, m.text.drop number, .running⟩
  | .exit => ⟨c, [], .exited⟩

/-- One step of a machine.  Labels and remarks are passed over. -/
def step (m : Image) (w : World) (s : Machine) : Machine :=
  match s.status, s.rest with
  | .running, [] => { s with status := .ranOff }
  | .running, .instr i :: rest =>
    match m.exec w rest s.content i.op with
    | some (c, flow) => m.arrive c rest flow
    | none => { s with status := .stuck }
  | .running, .label _ :: rest | .running, .comment _ :: rest => { s with rest := rest }
  | .running, .directive _ :: _ => { s with status := .stuck }
  | _, _ => s

/-- A machine that has stopped stays as it is. -/
theorem step_of_stopped (m : Image) (w : World) {s : Machine} (stopped : s.status ≠ .running) :
    m.step w s = s := by
  unfold step
  split
  next running _ => exact absurd running stopped
  next running _ => exact absurd running stopped
  next running _ => exact absurd running stopped
  next running _ => exact absurd running stopped
  next running _ => exact absurd running stopped
  next => rfl

/-- The machine before its first step: registers hold zero, and cells what their directives say. -/
def boot (m : Image) (w : World) : Machine where
  content :=
    { registers := fun _ => 0
      lo := 0
      floats := fun _ => 0
      cells := fun name => (m.data.find? (·.label == some name)).bind fun d => w.cellOf d.storage
      input := w.input
      out := [] }
  rest := m.text
  status := .running

/-- The machine after a number of steps. -/
def run (m : Image) (w : World) (n : Nat) : Machine :=
  (m.step w)^[n] (m.boot w)

/-! ## Blocks

A block is a stretch of the listing that is entered at its first line. -/

/-- What a block does, and how it is left: at its end, or by a jump or an exit.  The listing goes on
    with `tail` behind the block. -/
def runBlock (m : Image) (w : World) (tail : List Node) : List Node → Content → Option (Content × Flow)
  | [], c => some (c, .next)
  | .instr i :: block, c =>
    match m.exec w (block ++ tail) c i.op with
    | some (d, .next) => m.runBlock w tail block d
    | outcome => outcome
  | .label _ :: block, c | .comment _ :: block, c => m.runBlock w tail block c
  | .directive _ :: _, _ => none

end Image

/-- Whether an operation leaves the console alone. -/
def Op.isQuiet : Op → Bool
  | .syscall | .jal _ => false
  | _ => true

/-- Whether a line leaves the console alone. -/
def Node.isQuiet : Node → Bool
  | .instr i => i.op.isQuiet
  | _ => true

/-- Whether the machine always goes on behind an operation. -/
def Op.isStraight : Op → Bool
  | .bnez .. | .beq .. | .j _ | .jal _ | .jr _ | .syscall => false
  | _ => true

/-- Whether an operation returns to a caller. -/
def Op.isReturn : Op → Bool
  | .jr _ => true
  | _ => false

/-- A line without its comment. -/
def Node.bare : Node → Node
  | .instr i => .instr ⟨i.op, none⟩
  | node => node

/-- The line for an operation. -/
def Op.node (op : Op) : Node :=
  .instr ⟨op, none⟩

@[simp] theorem Node.bare_instr (i : Instr) : (Node.instr i).bare = i.op.node :=
  rfl

@[simp] theorem Node.bare_label (name : String) : (Node.label name).bare = .label name :=
  rfl

@[simp] theorem Node.bare_comment (text : String) : (Node.comment text).bare = .comment text :=
  rfl

@[simp] theorem Node.map_bare_annotate (comment : String) (nodes : List Node) :
    (Node.annotate comment nodes).map Node.bare = nodes.map Node.bare := by
  induction nodes with
  | nil => rfl
  | cons node rest ih => cases node <;> simp [Node.annotate, Node.bare, Instr.commented, ih]

namespace Image

variable (m : Image) (w : World)

@[simp] theorem runBlock_nil (tail : List Node) (c : Content) :
    m.runBlock w tail [] c = some (c, .next) :=
  rfl

theorem runBlock_node (tail block : List Node) (op : Op) (c : Content) :
    m.runBlock w tail (op.node :: block) c =
      match m.exec w (block ++ tail) c op with
      | some (d, .next) => m.runBlock w tail block d
      | outcome => outcome :=
  rfl

@[simp] theorem runBlock_label (tail block : List Node) (name : String) (c : Content) :
    m.runBlock w tail (.label name :: block) c = m.runBlock w tail block c :=
  rfl

/-- Behind a first part that is left at its end, the second part runs. -/
theorem runBlock_append (tail first second : List Node) (c : Content) :
    m.runBlock w tail (first ++ second) c =
      match m.runBlock w (second ++ tail) first c with
      | some (d, .next) => m.runBlock w tail second d
      | outcome => outcome := by
  induction first generalizing c with
  | nil => rfl
  | cons node first ih =>
    cases node with
    | instr i =>
      -- The listing behind `i` is the same one, however the block is cut.
      simp only [List.cons_append, runBlock, List.append_assoc]
      cases m.exec w (first ++ (second ++ tail)) c i.op with
      | none => rfl
      | some outcome =>
        obtain ⟨d, flow⟩ := outcome
        cases flow with
        | next => exact ih d
        | jump _ | line _ | exit => rfl
    | label _ | comment _ => exact ih c
    | directive _ => rfl

theorem runBlock_append_of_next {tail first second : List Node} {c d : Content}
    (ran : m.runBlock w (second ++ tail) first c = some (d, .next)) :
    m.runBlock w tail (first ++ second) c = m.runBlock w tail second d := by
  rw [runBlock_append, ran]

/-- Of the listing behind it an operation uses no more than the length. -/
theorem exec_congr_length {rest other : List Node} (same : rest.length = other.length)
    (c : Content) (op : Op) : m.exec w rest c op = m.exec w other c op := by
  cases op <;> simp only [exec, same]

/-- Comments do not matter. -/
theorem runBlock_map_bare (tail block : List Node) (c : Content) :
    m.runBlock w tail (block.map Node.bare) c = m.runBlock w tail block c := by
  induction block generalizing c with
  | nil => rfl
  | cons node block ih =>
    cases node with
    | instr i =>
      simp only [List.map_cons, Node.bare, runBlock]
      -- As many lines follow with comments as without.
      rw [exec_congr_length m w (by simp : (block.map Node.bare ++ tail).length = (block ++ tail).length)]
      simp only [ih]
    | label _ | comment _ => exact ih c
    | directive _ => rfl

/-- What every operation of a block keeps is kept by the block. -/
theorem runBlock_invariant {tail block : List Node} {P : Content → Prop}
    (keeps : ∀ i, .instr i ∈ block → ∀ rest c d flow, P c → m.exec w rest c i.op = some (d, flow) → P d)
    {c d : Content} {flow : Flow} (start : P c) (ran : m.runBlock w tail block c = some (d, flow)) :
    P d := by
  induction block generalizing c with
  | nil =>
    cases ran
    exact start
  | cons node block ih =>
    have later : ∀ i, .instr i ∈ block → ∀ rest c d flow, P c → m.exec w rest c i.op = some (d, flow) →
        P d := fun i member => keeps i (List.mem_cons_of_mem node member)
    cases node with
    | instr i =>
      simp only [runBlock] at ran
      split at ran
      next e done => exact ih later (keeps i List.mem_cons_self _ _ _ _ start done) ran
      next => exact keeps i List.mem_cons_self _ _ _ _ start ran
    | label _ | comment _ => exact ih later start ran
    | directive _ => cases ran

theorem exec_load {rest : List Node} {c d : Content} {width : Width} {dest : Register}
    {address : Address} {flow : Flow}
    (done : m.exec w rest c (.load width dest address) = some (d, flow)) :
    ∃ name cell, address = .label name ∧ c.cells name = some cell ∧ d = c.setReg dest cell.value ∧
      flow = .next := by
  cases address with
  | label name =>
    simp only [exec] at done
    split at done
    next cell present =>
      split at done
      · cases done
        exact ⟨name, cell, rfl, present, rfl, rfl⟩
      · cases done
    next => cases done
  | base register => cases done

theorem exec_store {rest : List Node} {c d : Content} {width : Width} {source : Register}
    {address : Address} {flow : Flow}
    (done : m.exec w rest c (.store width source address) = some (d, flow)) :
    ∃ name, address = .label name ∧ d = c.setCell name ⟨width, width.narrow (c.reg source)⟩ ∧
      flow = .next := by
  cases address with
  | label name =>
    simp only [exec] at done
    split at done
    · split at done
      · cases done
        exact ⟨name, rfl, rfl, rfl⟩
      · cases done
    · cases done
  | base register => cases done

theorem exec_straight {rest : List Node} {c d : Content} {op : Op} {flow : Flow}
    (straight : op.isStraight = true) (done : m.exec w rest c op = some (d, flow)) : flow = .next := by
  cases op with
  | load width dest address =>
    obtain ⟨name, cell, rfl, _, rfl, rfl⟩ := exec_load m w done
    rfl
  | store width source address =>
    obtain ⟨name, rfl, rfl, rfl⟩ := exec_store m w done
    rfl
  | li dest value =>
    obtain ⟨n, _, same⟩ := Option.map_eq_some_iff.mp done
    cases same; rfl
  | bnez | beq | j | jal | jr | syscall => cases straight
  | other mnemonic operands => cases done
  | _ => cases done; rfl

/-- A block that begins with a straight operation and can be run is run behind that operation. -/
theorem runBlock_straight {tail block : List Node} {op : Op} {c e : Content} {flow : Flow}
    (straight : op.isStraight = true)
    (ran : m.runBlock w tail (op.node :: block) c = some (e, flow)) :
    ∃ d, m.exec w (block ++ tail) c op = some (d, .next) ∧
      m.runBlock w tail block d = some (e, flow) := by
  rw [runBlock_node] at ran
  split at ran
  next d done => exact ⟨d, done, ran⟩
  next stopped =>
    obtain rfl := exec_straight m w straight ran
    exact absurd ran (stopped e)

/-- Straight operations are run to their end. -/
theorem runBlock_append_straight {tail block : List Node} {ops : List Op} {c e : Content} {flow : Flow}
    (straight : ∀ op ∈ ops, op.isStraight = true)
    (ran : m.runBlock w tail (ops.map Op.node ++ block) c = some (e, flow)) :
    ∃ d, m.runBlock w (block ++ tail) (ops.map Op.node) c = some (d, .next) ∧
      m.runBlock w tail block d = some (e, flow) := by
  induction ops generalizing c with
  | nil => exact ⟨c, rfl, ran⟩
  | cons op ops ih =>
    rw [List.map_cons, List.cons_append] at ran
    obtain ⟨d, done, ran⟩ := runBlock_straight m w (straight op List.mem_cons_self) ran
    obtain ⟨d', ran, later⟩ := ih (fun op' member => straight op' (List.mem_cons_of_mem op member)) ran
    refine ⟨d', ?_, later⟩
    rw [List.append_assoc] at done
    rw [List.map_cons, runBlock_node, done]
    exact ran

/-- A quiet operation prints nothing. -/
theorem exec_out {rest : List Node} {c d : Content} {op : Op} {flow : Flow}
    (quiet : op.isQuiet = true) (done : m.exec w rest c op = some (d, flow)) : d.out = c.out := by
  cases op with
  | load width dest address =>
    obtain ⟨name, cell, rfl, _, rfl, rfl⟩ := exec_load m w done
    rfl
  | store width source address =>
    obtain ⟨name, rfl, rfl, rfl⟩ := exec_store m w done
    rfl
  | li dest value =>
    obtain ⟨n, _, same⟩ := Option.map_eq_some_iff.mp done
    cases same; rfl
  | jal label => cases quiet
  | syscall => cases quiet
  | other mnemonic operands => cases done
  | _ => cases done; rfl

/-- The machine runs a block step by step, and if only the last line of the block can print, then
    nothing is printed before the last of these steps. -/
theorem runBlock_steps {tail block : List Node} {c d : Content} {flow : Flow}
    (ran : m.runBlock w tail block c = some (d, flow)) :
    ∃ n ≤ block.length, (m.step w)^[n] ⟨c, block ++ tail, .running⟩ = m.arrive d tail flow ∧
      (block ≠ [] → 0 < n) ∧
      ((∀ node ∈ block.dropLast, node.isQuiet = true) →
        ∀ i < n, ((m.step w)^[i] ⟨c, block ++ tail, .running⟩).content.out = c.out) := by
  induction block generalizing c with
  | nil =>
    cases ran
    exact ⟨0, Nat.le_refl 0, rfl, fun nonempty => absurd rfl nonempty,
      fun _ i below => absurd below (Nat.not_lt_zero i)⟩
  | cons node block ih =>
    have quietRest : (∀ other ∈ (node :: block).dropLast, other.isQuiet = true) →
        ∀ other ∈ block.dropLast, other.isQuiet = true := by
      intro quiet other member
      apply quiet
      -- Without its last line nothing is left of a block of one line.
      cases block with
      | nil => cases member
      | cons first rest => exact List.mem_cons_of_mem node member
    -- One step over `node` to the rest of the block, and the steps over that rest.
    have goOn : ∀ e : Content,
        m.step w ⟨c, node :: block ++ tail, .running⟩ = ⟨e, block ++ tail, .running⟩ →
        ((∀ other ∈ (node :: block).dropLast, other.isQuiet = true) → block ≠ [] → e.out = c.out) →
        m.runBlock w tail block e = some (d, flow) →
        ∃ n ≤ (node :: block).length,
          (m.step w)^[n] ⟨c, node :: block ++ tail, .running⟩ = m.arrive d tail flow ∧
          (node :: block ≠ [] → 0 < n) ∧
          ((∀ other ∈ (node :: block).dropLast, other.isQuiet = true) → ∀ i < n,
            ((m.step w)^[i] ⟨c, node :: block ++ tail, .running⟩).content.out = c.out) := by
      intro e stepped sameOut ranRest
      obtain ⟨n, short, arrived, _, silent⟩ := ih ranRest
      refine ⟨n + 1, Nat.succ_le_succ short, ?_, fun _ => Nat.succ_pos n, ?_⟩
      · rw [Function.iterate_succ_apply, stepped, arrived]
      · intro quiet i below
        cases i with
        | zero => rfl
        | succ i =>
          have inside : i < n := Nat.lt_of_succ_lt_succ below
          rw [Function.iterate_succ_apply, stepped, silent (quietRest quiet) i inside]
          apply sameOut quiet
          rintro rfl
          exact absurd (Nat.lt_of_lt_of_le inside short) (Nat.not_lt_zero i)
    cases node with
    | instr i =>
      simp only [runBlock] at ran
      split at ran
      next e done =>
        apply goOn e _ _ ran
        · simp only [step, List.cons_append, done, arrive]
        · intro quiet nonempty
          apply exec_out m w (quiet (.instr i) _) done
          rw [List.dropLast_cons_of_ne_nil nonempty]
          exact List.mem_cons_self
      next notNext =>
        -- The block is left here, so this is its only step.
        refine ⟨1, Nat.succ_le_succ (Nat.zero_le _), ?_, fun _ => Nat.one_pos, ?_⟩
        · simp only [Function.iterate_one, step, List.cons_append, ran]
          cases flow with
          | next => exact absurd ran (notNext d)
          | jump _ | line _ | exit => rfl
        · intro _ j below
          obtain rfl : j = 0 := by omega
          rfl
    | label _ | comment _ => exact goOn c rfl (fun _ _ => rfl) ran
    | directive _ => cases ran

/-- In a block that cannot be run the machine gets stuck. -/
theorem runBlock_stuck {tail block : List Node} {c : Content}
    (fails : m.runBlock w tail block c = none) :
    ∃ n ≤ block.length, ((m.step w)^[n] ⟨c, block ++ tail, .running⟩).status = .stuck := by
  induction block generalizing c with
  | nil => cases fails
  | cons node block ih =>
    -- The machine gets stuck behind `node`, or at `node` itself.
    have goOn : ∀ e : Content,
        m.step w ⟨c, node :: block ++ tail, .running⟩ = ⟨e, block ++ tail, .running⟩ →
        m.runBlock w tail block e = none →
        ∃ n ≤ (node :: block).length,
          ((m.step w)^[n] ⟨c, node :: block ++ tail, .running⟩).status = .stuck := by
      intro e stepped failsRest
      obtain ⟨n, short, stuck⟩ := ih failsRest
      exact ⟨n + 1, Nat.succ_le_succ short, by rw [Function.iterate_succ_apply, stepped, stuck]⟩
    have here : m.step w ⟨c, node :: block ++ tail, .running⟩ =
          ⟨c, node :: block ++ tail, .stuck⟩ →
        ∃ n ≤ (node :: block).length,
          ((m.step w)^[n] ⟨c, node :: block ++ tail, .running⟩).status = .stuck := fun stepped =>
      ⟨1, Nat.succ_le_succ (Nat.zero_le _), by rw [Function.iterate_one, stepped]⟩
    cases node with
    | instr i =>
      simp only [runBlock] at fails
      split at fails
      next e done =>
        apply goOn e _ fails
        simp only [step, List.cons_append, done, arrive]
      next =>
        apply here
        simp only [step, List.cons_append, fails]
    | label _ | comment _ => exact goOn c rfl fails
    | directive _ => exact here rfl

/-- Only a return goes to a line by its number. -/
theorem exec_line {rest : List Node} {c d : Content} {op : Op} {number : Nat}
    (done : m.exec w rest c op = some (d, .line number)) : op.isReturn = true := by
  -- What is not straight leads to a label, unless it returns.
  cases straight : op.isStraight with
  | true => cases exec_straight m w straight done
  | false =>
    cases op with
    | jr register => rfl
    | bnez register label | beq left right label =>
      simp only [exec, Option.some.injEq, Prod.mk.injEq] at done
      split at done <;> cases done.2
    | j label => cases done
    | jal label =>
      simp only [exec] at done
      split at done <;> cases done
    | syscall =>
      simp only [exec, service] at done
      split at done <;> cases done
    | _ => cases straight

/-- Without a return a block is left at its end, by a jump, or by the end of the program. -/
theorem runBlock_flow {tail block : List Node}
    (stays : ∀ i, .instr i ∈ block → i.op.isReturn = false) {c d : Content} {flow : Flow}
    (ran : m.runBlock w tail block c = some (d, flow)) (number : Nat) : flow ≠ .line number := by
  induction block generalizing c with
  | nil =>
    cases ran
    simp
  | cons node block ih =>
    have later : ∀ i, .instr i ∈ block → i.op.isReturn = false := fun i member =>
      stays i (List.mem_cons_of_mem node member)
    cases node with
    | instr i =>
      simp only [runBlock] at ran
      split at ran
      next e done => exact ih later ran
      next =>
        rintro rfl
        cases (exec_line m w ran).symm.trans (stays i List.mem_cons_self)
    | label _ | comment _ => exact ih later ran
    | directive _ => cases ran

end Image

end MipsLowering
