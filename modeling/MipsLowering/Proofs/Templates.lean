import MipsLowering.Proofs.SettledCode

/-! # The code of operators and services

The code of an operator leaves the operator's value in its destination and changes nothing else but
LO.  The destination may be one of the operands, and the operands may be the same: every template
reads its operands in its first instruction, and the second one, if there is one, works on what the
first has left. -/

namespace MipsLowering

open Image

variable (m : Image) (w : World) (tail : List Node)

/-- The second instruction of a template, on what the first one has left. -/
theorem run_flip (op : ImmOp) {dest : Register} (notZero : dest ≠ zeroRegister) (c : Content)
    (value : Word) :
    m.runBlock w tail [(Op.aluImm op dest dest 1).node] (c.setReg dest value) =
      some (c.setReg dest (op.eval value 1), .next) := by
  simp [runBlock_node, exec, notZero]

/-- The code of an operator with two operands, whichever of its registers coincide. -/
theorem BinaryOp.run_code (op : BinaryOp) {dest : Register} (left right : Register)
    (notZero : dest ≠ zeroRegister) (c : Content) :
    ∃ lo, m.runBlock w tail ((op.code dest left right).map (·.op.node)) c =
      some ((c.setReg dest (op.eval w.byZero (c.reg left) (c.reg right))).setLo lo, .next) := by
  cases op with
  | add | sub | mul | and | or | lt | gt => exact ⟨c.lo, rfl⟩
  | div => exact ⟨quotient w.byZero (c.reg left) (c.reg right), rfl⟩
  | eq =>
    refine ⟨c.lo, ?_⟩
    have ran := run_flip m w tail .sltiu notZero c (c.reg left - c.reg right)
    rw [sltiu_sub] at ran
    exact ran
  | ne =>
    refine ⟨c.lo, ?_⟩
    have ran : m.runBlock w tail [(Op.alu .sltu dest zeroRegister dest).node]
        (c.setReg dest (c.reg left - c.reg right)) =
        some (c.setReg dest (AluOp.sltu.eval 0 (c.reg left - c.reg right)), .next) := by
      simp [runBlock_node, exec, notZero]
    rw [sltu_sub] at ran
    exact ran
  | le =>
    refine ⟨c.lo, ?_⟩
    have ran := run_flip m w tail .xori notZero c (AluOp.slt.eval (c.reg right) (c.reg left))
    rw [xori_slt] at ran
    exact ran
  | ge =>
    refine ⟨c.lo, ?_⟩
    have ran := run_flip m w tail .xori notZero c (AluOp.slt.eval (c.reg left) (c.reg right))
    rw [xori_slt] at ran
    exact ran

/-- The code of an operator with one operand. -/
theorem UnaryOp.run_code (op : UnaryOp) (dest source : Register) (c : Content) :
    m.runBlock w tail ((op.code dest source).map (·.op.node)) c =
      some (c.setReg dest (op.eval (c.reg source)), .next) := by
  cases op with
  | neg => simp [UnaryOp.code, aluCode, runBlock_node, exec, AluOp.eval, UnaryOp.eval]
  | not => rfl

theorem run_bnez (register : Register) (target : String) (c : Content) :
    m.runBlock w tail [(Op.bnez register target).node] c =
      some (c, if c.reg register = 0 then .next else .jump target) := by
  by_cases zero : c.reg register = 0
  · simp only [runBlock_node, exec, zero, if_true, runBlock_nil]
  · simp only [runBlock_node, exec, zero, if_false]

/-- The code that asks for a service. -/
theorem run_service (service : Lower.Service) (c : Content) :
    m.runBlock w tail [(Tables.serviceCode service).node, Op.syscall.node] c =
      Image.service (c.setReg resultRegister (BitVec.ofInt 32 service.number)) := by
  have numbered : Text.decimal? (toString service.number).toList = some (service.number : Int) := by
    cases service <;> decide
  simp only [Tables.serviceCode, runBlock_node, exec, numbered, Option.map_some, runBlock_nil]
  rcases Image.service _ with _ | ⟨d, _ | _ | _ | _⟩ <;> rfl

end MipsLowering
