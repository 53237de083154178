import MipsLowering.Config

/-!
# Registers bound to names

Names take the registers of the pool in order of first use and keep them.  When the pool is used up,
every further name shares the last register; nothing is moved to memory instead.  The first name that
finds the pool used up is to be reported.
-/

namespace MipsLowering

/-- A pool of registers, the registers for literals, and what has been bound so far. -/
structure RegisterFile where
  pool : List Register
  scratch : List Register
  /-- The names with their registers, in the order in which they were bound. -/
  bindings : List (String × Register)
  /-- The place in the pool of the register that is handed out next. -/
  cursor : Nat
  /-- Whether a name that found the pool used up has been reported. -/
  reported : Bool
  deriving Repr, DecidableEq

namespace RegisterFile

/-- A register file with nothing bound. -/
def ofRegisters (pool scratch : List Register) : RegisterFile where
  pool := pool
  scratch := scratch
  bindings := []
  cursor := 0
  reported := false

/-- A register file with nothing bound, if there are registers of both sorts. -/
def make (pool scratch : List Register) : Except ConfigFault RegisterFile :=
  if pool.isEmpty then .error .emptyPool
  else if scratch.isEmpty then .error .noScratch
  else .ok (ofRegisters pool scratch)

/-- The names that are bound, in the order in which they were. -/
def names (f : RegisterFile) : List String :=
  f.bindings.map Prod.fst

/-- The register of a name that is bound. -/
def lookup? (f : RegisterFile) (name : String) : Option Register :=
  f.bindings.lookup name

/-- Whether every register of the pool is bound. -/
def isExhausted (f : RegisterFile) : Bool :=
  f.pool.length ≤ f.cursor

/-- The register to which the next name is bound: the next of the pool or, if there is none, its last. -/
def nextRegister (f : RegisterFile) : Register :=
  if f.isExhausted then f.pool.getLastD "" else f.pool.getD f.cursor ""

/-- Binds one more name.  The cursor moves on, or stays behind the pool and the name counts as reported. -/
def bind (f : RegisterFile) (name : String) : RegisterFile :=
  let bindings := f.bindings ++ [(name, f.nextRegister)]
  if f.isExhausted then { f with bindings := bindings, reported := true }
  else { f with bindings := bindings, cursor := f.cursor + 1 }

/-- The number of different registers that are bound. -/
def used (f : RegisterFile) : Nat :=
  (Text.distinct (f.bindings.map Prod.snd)).length

/-- The register for a literal: the one asked for or, if none is, the first scratch register. -/
def literalRegister (f : RegisterFile) (wanted : Option Register) : Register :=
  match wanted with
  | some r => if r.isEmpty then f.scratch.getD 0 "" else r
  | none => f.scratch.getD 0 ""

end RegisterFile

end MipsLowering
