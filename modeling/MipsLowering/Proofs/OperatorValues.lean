import MipsLowering.Proofs.Templates

/-! # What operators compute

Every operator is a function on integers.  Its code applies that function to the signed values of the operands,
and the destination takes the low 32 bits of the result.  It does so whichever of the registers coincide, and
changes no other register.  A quotient asks for a divisor other than zero, and the logical operators for the truth
values 0 and 1. -/

namespace MipsLowering

/-! ## Operators on integers -/

/-- The integer for a truth value. -/
def indicator (p : Prop) [Decidable p] : Int :=
  if p then 1 else 0

/-- The value of an operator with two operands.  Quotients are rounded toward zero. -/
def BinaryOp.onIntegers : BinaryOp → Int → Int → Int
  | .add, a, b => a + b
  | .sub, a, b => a - b
  | .mul, a, b => a * b
  | .div, a, b => a.tdiv b
  | .and, a, b => indicator (a ≠ 0 ∧ b ≠ 0)
  | .or, a, b => indicator (a ≠ 0 ∨ b ≠ 0)
  | .eq, a, b => indicator (a = b)
  | .ne, a, b => indicator (a ≠ b)
  | .lt, a, b => indicator (a < b)
  | .le, a, b => indicator (a ≤ b)
  | .gt, a, b => indicator (a > b)
  | .ge, a, b => indicator (a ≥ b)

/-- The value of an operator with one operand. -/
def UnaryOp.onIntegers : UnaryOp → Int → Int
  | .neg, a => -a
  | .not, a => indicator (a = 0)

/-- A word that is a truth value. -/
def IsTruthValue (a : Word) : Prop :=
  a = 0 ∨ a = 1

/-- The operands on which an operator has a value. -/
def BinaryOp.Accepts : BinaryOp → Word → Word → Prop
  | .div, _, b => b ≠ 0
  | .and, a, b | .or, a, b => IsTruthValue a ∧ IsTruthValue b
  | _, _, _ => True

/-- The operands on which an operator has a value. -/
def UnaryOp.Accepts : UnaryOp → Word → Prop
  | .neg, _ => True
  | .not, a => IsTruthValue a

/-! ## Operators on words -/

theorem truth_decide (p : Prop) [Decidable p] : truth (decide p) = BitVec.ofInt 32 (indicator p) := by
  by_cases holds : p
  · simp [truth, indicator, holds]
  · simp [truth, indicator, holds]

theorem beq_eq_decide_toInt (a b : Word) : (a == b) = decide (a.toInt = b.toInt) := by
  rw [Bool.eq_iff_iff, beq_iff_eq, decide_eq_true_eq, BitVec.toInt_inj]

/-- On words an operator keeps the low 32 bits of its value on integers. -/
theorem BinaryOp.eval_eq_onIntegers (op : BinaryOp) (byZero : Word → Word) {a b : Word}
    (accepts : op.Accepts a b) :
    op.eval byZero a b = BitVec.ofInt 32 (op.onIntegers a.toInt b.toInt) := by
  cases op with
  | add => exact BitVec.eq_of_toInt_eq (by rw [eval, BitVec.toInt_add, BitVec.toInt_ofInt, onIntegers])
  | sub => exact BitVec.eq_of_toInt_eq (by rw [eval, BitVec.toInt_sub, BitVec.toInt_ofInt, onIntegers])
  | mul => exact BitVec.eq_of_toInt_eq (by rw [eval, BitVec.toInt_mul, BitVec.toInt_ofInt, onIntegers])
  | div =>
    apply BitVec.eq_of_toInt_eq
    rw [eval, quotient, if_neg accepts, BitVec.toInt_sdiv, BitVec.toInt_ofInt, onIntegers]
  | and | or =>
    -- Bits are combined one by one, which is right of truth values only.
    rw [eval]
    rcases accepts with ⟨rfl | rfl, rfl | rfl⟩ <;> decide
  | eq => rw [eval, beq_eq_decide_toInt, truth_decide, onIntegers]
  | ne =>
    have differs : (a != b) = decide (a.toInt ≠ b.toInt) := by
      rw [bne, beq_eq_decide_toInt, decide_not]
    rw [eval, differs, truth_decide, onIntegers]
  | lt | le | gt | ge => rw [eval, truth_decide, onIntegers]

theorem UnaryOp.eval_eq_onIntegers (op : UnaryOp) {a : Word} (accepts : op.Accepts a) :
    op.eval a = BitVec.ofInt 32 (op.onIntegers a.toInt) := by
  cases op with
  | neg => exact BitVec.eq_of_toInt_eq (by rw [eval, BitVec.toInt_neg, BitVec.toInt_ofInt, onIntegers])
  | not => rcases accepts with rfl | rfl <;> decide

/-! ## Code -/

/-- From `c` to `d` a register takes a value.  Other registers, the memory and the console stay as they are. -/
structure Content.Takes (c : Content) (dest : Register) (value : Word) (d : Content) : Prop where
  value : d.reg dest = value
  others : ∀ other, other ≠ dest → d.reg other = c.reg other
  floats : d.floats = c.floats
  cells : d.cells = c.cells
  input : d.input = c.input
  out : d.out = c.out

theorem Content.takes_setReg (c : Content) {dest : Register} (notZero : dest ≠ zeroRegister) (value lo : Word) :
    c.Takes dest value ((c.setReg dest value).setLo lo) where
  value := by simp [notZero]
  others other differs := by simp [differs]
  floats := rfl
  cells := rfl
  input := rfl
  out := rfl

/-- The code of every operator leaves the operator's value on the operands, as they were before, in the
    destination, and changes no other register.  The destination may be one of the operands, the operands may be
    the same, and either may be the register that holds zero. -/
theorem run_code_takes_value (m : Image) (w : World) (tail : List Node) (c : Content) {dest : Register}
    (notZero : dest ≠ zeroRegister) :
    (∀ (op : BinaryOp) (left right : Register), op.Accepts (c.reg left) (c.reg right) →
      ∃ d, m.runBlock w tail ((op.code dest left right).map Node.instr) c = some (d, .next) ∧
        c.Takes dest (BitVec.ofInt 32 (op.onIntegers (c.reg left).toInt (c.reg right).toInt)) d) ∧
    ∀ (op : UnaryOp) (source : Register), op.Accepts (c.reg source) →
      ∃ d, m.runBlock w tail ((op.code dest source).map Node.instr) c = some (d, .next) ∧
        c.Takes dest (BitVec.ofInt 32 (op.onIntegers (c.reg source).toInt)) d := by
  -- What is known of the code is stated without its comments, which have no effect.
  have bare : ∀ is : List Instr, (is.map Node.instr).map Node.bare = is.map (·.op.node) := by simp
  refine ⟨fun op left right accepts => ?_, fun op source accepts => ?_⟩
  · obtain ⟨lo, ran⟩ := op.run_code m w tail left right notZero c
    rw [op.eval_eq_onIntegers w.byZero accepts] at ran
    refine ⟨_, ?_, c.takes_setReg notZero _ lo⟩
    rw [← Image.runBlock_map_bare, bare, ran]
  · have ran := op.run_code m w tail dest source c
    rw [op.eval_eq_onIntegers accepts] at ran
    refine ⟨_, ?_, c.takes_setReg notZero _ c.lo⟩
    rw [← Image.runBlock_map_bare, bare, ran]
    rfl

/-- Nothing lies outside of the listing, and zeros are typed at the console. -/
def World.idle : World :=
  ⟨fun _ => 0, fun _ => 0, fun _ => 0, fun _ c => c, fun _ => 0⟩

/-- One register holds the least integer, and all others hold zero. -/
def leastInteger : Content :=
  { registers := fun r => if r = "$t0" then BitVec.intMin 32 else 0
    lo := 0
    floats := fun _ => 0
    cells := fun _ => none
    input := fun _ => 0
    out := [] }

/-- The least integer is divided by itself in its own register.  It is below zero, though the difference of the
    two is no integer of 32 bits.  The complement of zero is taken in place. -/
theorem run_code_takes_value_leastInteger :
    (∃ d, Image.runBlock ⟨"main", [], []⟩ .idle [] ((BinaryOp.div.code "$t0" "$t0" "$t0").map Node.instr)
        leastInteger = some (d, .next) ∧ leastInteger.Takes "$t0" 1 d) ∧
    (∃ d, Image.runBlock ⟨"main", [], []⟩ .idle [] ((BinaryOp.gt.code "$t0" zeroRegister "$t0").map Node.instr)
        leastInteger = some (d, .next) ∧ leastInteger.Takes "$t0" 1 d) ∧
    ∃ d, Image.runBlock ⟨"main", [], []⟩ .idle [] ((UnaryOp.not.code "$t1" "$t1").map Node.instr) leastInteger =
      some (d, .next) ∧ leastInteger.Takes "$t1" 1 d := by
  have first : "$t0" ≠ zeroRegister := by decide
  have second : "$t1" ≠ zeroRegister := by decide
  refine ⟨?_, ?_, ?_⟩
  · exact (run_code_takes_value ⟨"main", [], []⟩ .idle [] leastInteger first).1 .div "$t0" "$t0"
      (show leastInteger.reg "$t0" ≠ 0 by decide)
  · exact (run_code_takes_value ⟨"main", [], []⟩ .idle [] leastInteger first).1 .gt zeroRegister "$t0" trivial
  · exact (run_code_takes_value ⟨"main", [], []⟩ .idle [] leastInteger second).2 .not "$t1" (.inl (by decide))

end MipsLowering
