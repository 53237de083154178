import MipsLowering.Operator
import MipsLowering.Pass

/-!
# Arrays

Every access computes the address of its element: the base, plus the index times the size of an
element.  Nothing checks that the index lies within the array.
-/

namespace MipsLowering.Lower

open Emit

/-- Leaves the address of an element in the address register, and returns that register. -/
def elementAddress (array index : String) : Emit Register := do
  let config := (← get).config
  let size := (← get).symbols.elementSize array
  opNote (.la config.addressRegister array) ("&" ++ array)
  let register ← materialize index (some config.indexRegister)
  op (.li config.scratch0 (toString size))
  opNote (.alu .mul config.indexRegister register config.scratch0)
    ("offset = " ++ index ++ " * " ++ toString size)
  op (.alu .addu config.addressRegister config.addressRegister config.indexRegister)
  return config.addressRegister

/-- Lowers a write to an element. -/
def arrayStore (array index value : String) : Emit Unit := do
  let address ← elementAddress array index
  let register ← materialize value (some (← get).config.scratch0)
  let type := (← get).symbols.elementType array
  opNote (.store type.width register (.base address)) (array ++ "[" ++ index ++ "] = " ++ value)

/-- Lowers a read of an element. -/
def arrayLoad (target array index : String) : Emit Unit := do
  let type := (← get).symbols.elementType array
  note target type
  let dest ← registerFor target
  let address ← elementAddress array index
  opNote (.load type.width dest (.base address)) (target ++ " = " ++ array ++ "[" ++ index ++ "]")
  storeBack target dest

/-- Lowers a fill with zeros: a loop that steps through the elements up to the last index. -/
def zeroFill (array start stop : String) : Emit Unit := do
  let config := (← get).config
  let size := (← get).symbols.elementSize array
  let cursor := config.addressRegister
  let index := config.indexRegister
  opNote (.la cursor array) ("&" ++ array)
  let first ← materialize start (some index)
  if first != index then
    op (.move index first)
  op (.li config.scratch0 (toString size))
  op (.alu .mul config.scratch0 index config.scratch0)
  opNote (.alu .addu cursor cursor config.scratch0) ("&" ++ array ++ "[" ++ start ++ "]")
  let last ← materialize stop (some config.scratch1)
  let loop ← freshLabel "arr_pad" ["", "_end"]
  let exit := loop ++ "_end"
  reference loop
  reference exit
  label loop
  op (.beq index last exit)
  op (.store ((← get).symbols.elementType array).width zeroRegister (.base cursor))
  op (.aluImm .addiu cursor cursor size)
  op (.aluImm .addiu index index 1)
  op (.j loop)
  label exit

end MipsLowering.Lower
