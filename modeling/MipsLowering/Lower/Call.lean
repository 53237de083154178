import MipsLowering.Pass

/-!
# Calls

Arguments travel on the stack.  They are queued without code; a call pushes the last of them, as many
as it takes, in the order in which they were queued, and releases the stack when it is back.  The
value of a function is in the result register.
-/

namespace MipsLowering.Lower

open Emit

/-- The code that pushes a register as one word; what it moves the stack pointer by has to be written. -/
def pushCode (register : Register) (wordSize : Int) : List Instr :=
  [⟨.aluImm .addiu stackPointer stackPointer (-wordSize), none⟩,
    ⟨.store .word register (.base stackPointer), some ("push " ++ register)⟩]

/-- The code that releases the words of `count` arguments, unless their size cannot be written. -/
def popCode (count wordSize : Int) : Except Text.NumeralFault (List Instr) :=
  if count ≤ 0 then .ok []
  else if !Text.isWritable (count * wordSize) then .error .write
  else
    .ok [⟨.aluImm .addiu stackPointer stackPointer (count * wordSize),
      some ("pop " ++ toString count ++ if count == 1 then " argument" else " arguments")⟩]

/-- Queues an argument. -/
def param (operand : String) : Emit Unit :=
  modify fun p => { p with params := p.params ++ [operand] }

/-- The number of arguments that a call passes: its count if it has one, and otherwise all that are
    queued. -/
def argumentCount (function : String) (count : Option Int) (target rawCount : Option String) :
    Emit Int := do
  let queued := (← get).params.length
  match count, rawCount with
  | some n, _ =>
    if n > queued then
      warn (.missingArguments function n queued)
    return n
  | none, some raw =>
    diagnose (.argumentCount raw (Stmt.call function count target rawCount).text queued)
    return queued
  | none, none => return queued

/-- Pushes a register, unless the size of a word cannot be written. -/
def push (register : Register) (wordSize : Int) : Emit Unit :=
  if Text.isWritable (-wordSize) then code (pushCode register wordSize)
  else throw (.numeral .write)

/-- Pushes arguments in order. -/
def pushAll : List String → Emit Unit
  | [] => pure ()
  | argument :: rest => do
    let config := (← get).config
    let register ← materialize argument (some config.scratch0)
    push register config.wordSize
    pushAll rest

/-- Lowers a call. -/
def call (function : String) (count : Option Int) (target rawCount : Option String) :
    Emit Unit := do
  let n ← argumentCount function count target rawCount
  let queue := (← get).params
  pushAll (queue.drop (queue.length - n.toNat))
  reference function
  opNote (.jal function) ("call " ++ function)
  code (← ofNumeral (popCode n (← get).config.wordSize))
  modify fun p => { p with params := [] }
  match Stmt.given target with
  | none => return
  | some name =>
    declare name .int
    storeBack name resultRegister

/-- Lowers a return. -/
def ret (value : Option String) : Emit Unit := do
  match Stmt.given value with
  | none => pure ()
  | some operand =>
    match Operand.ofString operand with
    | .immediate constant => op (.li resultRegister constant)
    | _ =>
      let register ← materialize operand (some resultRegister)
      if register != resultRegister then
        op (.move resultRegister register)
  op (.jr linkRegister)

end MipsLowering.Lower
