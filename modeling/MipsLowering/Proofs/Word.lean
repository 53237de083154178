import MipsLowering.Operator

/-! # Words and the meaning of operators

The machine computes on words of 32 bits.  This module says what each machine operation does to words
(`AluOp.eval`, `ImmOp.eval`) and, apart from that, what each operator of the source means
(`BinaryOp.eval`, `UnaryOp.eval`).  That the code of an operator computes its meaning is shown in
`MipsLowering.Proofs.Templates`. -/

namespace MipsLowering

abbrev Word := BitVec 32

/-- The word for a truth value. -/
def truth (b : Bool) : Word :=
  if b then 1 else 0

@[simp] theorem truth_ne_zero {b : Bool} : truth b ≠ 0 ↔ b = true := by
  cases b <;> decide

/-! ## Machine operations -/

/-- Sums, differences and products wrap around. -/
def AluOp.eval : AluOp → Word → Word → Word
  | .add, a, b | .addu, a, b => a + b
  | .sub, a, b => a - b
  | .mul, a, b => a * b
  | .and, a, b => a &&& b
  | .or, a, b => a ||| b
  | .slt, a, b => truth (a.slt b)
  | .sltu, a, b => truth (a.ult b)

def ImmOp.eval : ImmOp → Word → Int → Word
  | .addiu, a, value => a + BitVec.ofInt 32 value
  | .sltiu, a, value => truth (a.ult (BitVec.ofInt 32 value))
  | .xori, a, value => a ^^^ BitVec.ofInt 32 value

/-- The signed quotient, rounded toward zero.  What a division by zero leaves is not settled by the
    machine; it is `byZero` of the dividend. -/
def quotient (byZero : Word → Word) (a b : Word) : Word :=
  if b = 0 then byZero a else a.sdiv b

/-- What a cell of a given width keeps of a word: a byte cell keeps the low byte, with its sign. -/
def Width.narrow : Width → Word → Word
  | .byte, a => (a.setWidth 8).signExtend 32
  | .word, a => a

/-! ## Operators of the source -/

/-- The meaning of an operator with two operands.  Comparisons are signed and give 1 or 0.  Conjunction
    and disjunction work on every bit, which for operands 0 and 1 is the logical operation. -/
def BinaryOp.eval (byZero : Word → Word) : BinaryOp → Word → Word → Word
  | .add, a, b => a + b
  | .sub, a, b => a - b
  | .mul, a, b => a * b
  | .div, a, b => quotient byZero a b
  | .and, a, b => a &&& b
  | .or, a, b => a ||| b
  | .eq, a, b => truth (a == b)
  | .ne, a, b => truth (a != b)
  | .lt, a, b => truth (decide (a.toInt < b.toInt))
  | .le, a, b => truth (decide (a.toInt ≤ b.toInt))
  | .gt, a, b => truth (decide (b.toInt < a.toInt))
  | .ge, a, b => truth (decide (b.toInt ≤ a.toInt))

/-- The meaning of an operator with one operand.  The complement flips the lowest bit. -/
def UnaryOp.eval : UnaryOp → Word → Word
  | .neg, a => -a
  | .not, a => a ^^^ 1

/-! ## Comparisons by subtraction and negation -/

/-- Without sign, only zero is below 1. -/
theorem ult_one_sub (a b : Word) : (a - b).ult (BitVec.ofInt 32 1) = (a == b) := by
  rw [Bool.eq_iff_iff, beq_iff_eq, BitVec.ult, decide_eq_true_eq]
  constructor
  · intro below
    have zero : a - b = 0 := by
      apply BitVec.eq_of_toNat_eq
      simpa using below
    simpa using BitVec.sub_eq_iff_eq_add.mp zero
  · rintro rfl
    simp

theorem sltiu_sub (a b : Word) : ImmOp.sltiu.eval (a - b) 1 = truth (a == b) := by
  simp only [ImmOp.eval, ult_one_sub]

/-- Without sign, zero is below every other word. -/
theorem sltu_sub (a b : Word) : AluOp.sltu.eval 0 (a - b) = truth (a != b) := by
  have below : (0 : Word).ult (a - b) = !(a - b).ult (BitVec.ofInt 32 1) := by
    rw [Bool.eq_iff_iff, BitVec.ult, BitVec.ult]
    simp
    omega
  simp only [AluOp.eval, below, ult_one_sub]
  rfl

/-- "At most" is the negation of the reverse comparison. -/
theorem xori_slt (a b : Word) :
    ImmOp.xori.eval (AluOp.slt.eval a b) 1 = truth (decide (b.toInt ≤ a.toInt)) := by
  have flipped : ∀ t : Bool, ImmOp.xori.eval (truth t) 1 = truth !t := by
    intro t
    cases t <;> decide
  simp only [AluOp.eval, flipped, BitVec.slt, ← decide_not, Int.not_lt]

end MipsLowering
