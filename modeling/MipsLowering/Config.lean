import MipsLowering.Assembly.Op
import MipsLowering.Text.Order

/-!
# Configuration

Which registers play which part, and a few switches.  Settings are accepted only if the parts can be
kept: a pool that is not empty, two registers each for literals and for addresses, and no pool
register that also has another part.
-/

namespace MipsLowering

/-! ## Registers with a fixed part -/

/-- Takes the number of a console service and the value of a function. -/
def resultRegister : Register := "$v0"

/-- Takes the argument of a console service. -/
def argumentRegister : Register := "$a0"

/-- Takes the argument of the console service that writes a float. -/
def floatArgumentRegister : Register := "$f12"

/-- Points to the word on top of the stack. -/
def stackPointer : Register := "$sp"

/-- Takes the return address of a call. -/
def linkRegister : Register := "$ra"

/-- The registers that no pool may hold, whatever the settings. -/
def reservedRegisters : List Register :=
  ["$at", "$v0", "$a0", "$sp", "$ra", "$zero"]

/-- The saved and temporary registers. -/
def defaultPool : List Register :=
  ["$s0", "$s1", "$s2", "$s3", "$s4", "$s5", "$s6", "$s7",
    "$t0", "$t1", "$t2", "$t3", "$t4", "$t5", "$t6", "$t7", "$t8", "$t9"]

/-- The registers that take literals by default. -/
def defaultScratch : List Register :=
  ["$v1", "$a1"]

/-- The registers that take addresses and indices by default. -/
def defaultAddress : List Register :=
  ["$a3", "$a2"]

/-! ## Settings -/

/-- The settings of a pass, accepted or not. -/
structure Settings where
  /-- The registers bound to names, in the order in which they are handed out. -/
  pool : List Register := defaultPool
  /-- The registers that take literals; the first two are used. -/
  scratch : List Register := defaultScratch
  /-- The registers that take an element's address and its index; the first two are used. -/
  address : List Register := defaultAddress
  /-- The number of bytes that an argument takes on the stack. -/
  wordSize : Int := 4
  /-- Whether the listing ends with the service that ends the program. -/
  emitExit : Bool := true
  /-- Whether the first instruction of a statement carries the source line. -/
  annotate : Bool := true
  /-- The label at which the program begins. -/
  entryLabel : String := "main"
  /-- Whether a label that is used and not defined is a fault. -/
  strictLabels : Bool := false
  deriving Repr, DecidableEq

/-- The reasons for which settings are refused. -/
inductive ConfigFault where
  | emptyPool
  | noScratch
  | fewScratch
  | fewAddress
  /-- Pool registers that have another part too. -/
  | overlap (registers : List Register)
  | wordSize
  deriving Repr, DecidableEq

/-- The message for refused settings. -/
def ConfigFault.message : ConfigFault → String
  | .emptyPool => "register pool must contain at least one register"
  | .noScratch => "at least one scratch register is required"
  | .fewScratch => "two scratch registers are required"
  | .fewAddress => "two address registers are required"
  | .overlap registers =>
    "registers " ++ Text.commaList registers ++ " cannot be both pooled and reserved"
  | .wordSize => "word_size must be positive"

namespace Settings

/-- Whether a register has a part other than that of a pool register. -/
def isSpecial (s : Settings) (r : Register) : Bool :=
  s.scratch.contains r || s.address.contains r || reservedRegisters.contains r

/-- The pool registers that have another part too. -/
def clashes (s : Settings) : List Register :=
  Text.sorted (Text.distinct (s.pool.filter s.isSpecial))

/-- The first reason for which settings are refused. -/
def fault? (s : Settings) : Option ConfigFault :=
  if s.pool.isEmpty then some .emptyPool
  else if s.scratch.length < 2 then some .fewScratch
  else if s.address.length < 2 then some .fewAddress
  else if !s.clashes.isEmpty then some (.overlap s.clashes)
  else if s.wordSize ≤ 0 then some .wordSize
  else none

end Settings

/-! ## Accepted settings -/

/-- Settings that have been accepted. -/
structure Config extends Settings where
  accepted : toSettings.fault? = none

/-- The settings, if they are accepted. -/
def Settings.check (s : Settings) : Except ConfigFault Config :=
  match h : s.fault? with
  | none => .ok ⟨s, h⟩
  | some fault => .error fault

namespace Config

/-- The default settings, strict about labels or not. -/
def standard (strictLabels : Bool) : Config where
  strictLabels := strictLabels
  accepted := by cases strictLabels <;> decide

/-- The register that takes a literal first operand. -/
def scratch0 (c : Config) : Register :=
  c.scratch.getD 0 ""

/-- The register that takes a literal second operand. -/
def scratch1 (c : Config) : Register :=
  c.scratch.getD 1 ""

/-- The register that takes an element's address. -/
def addressRegister (c : Config) : Register :=
  c.address.getD 0 ""

/-- The register that takes an element's index. -/
def indexRegister (c : Config) : Register :=
  c.address.getD 1 ""

end Config

end MipsLowering
