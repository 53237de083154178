import MipsLowering.Proofs.OperatorValues

/-! # Sums and differences that trap

On the machine of `MipsLowering.Proofs.Machine` sums and differences wrap around.  A real machine raises an
exception where the signed result of `add` or `sub` does not fit into 32 bits, and the operation changes nothing.
`Image.trapBlock` runs a block on such a machine.

Only the first instruction of an operator's code can trap (`BinaryOp.code_eq_cons`).  So the code either traps
there or does what it does on the machine that wraps around (`BinaryOp.trapBlock_code`).  Comparisons of order
have no sum and no difference and never trap.  Equality and inequality are decided by a difference, and trap
where it does not fit (`relation_traps_iff`). -/

namespace MipsLowering

/-! ## A machine that traps -/

/-- Whether an operation traps on two words: the signed result of `add` or `sub` does not fit. -/
def AluOp.traps : AluOp → Word → Word → Bool
  | .add, a, b => a.saddOverflow b
  | .sub, a, b => a.ssubOverflow b
  | _, _, _ => false

def Op.traps (c : Content) : Op → Bool
  | .alu op _ left right => op.traps (c.reg left) (c.reg right)
  | _ => false

/-- Whether an operation traps on no words at all. -/
def Op.isSafe : Op → Bool
  | .alu .add _ _ _ | .alu .sub _ _ _ => false
  | _ => true

theorem Op.traps_of_isSafe {op : Op} (safe : op.isSafe = true) (c : Content) : op.traps c = false := by
  cases op with
  | alu o dest left right =>
    cases o with
    | add | sub => cases safe
    | _ => rfl
  | _ => rfl

/-- How a block ends on a machine that traps. -/
inductive Ending where
  /-- At its end, or by a jump or an exit. -/
  | left (c : Content) (flow : Flow)
  /-- By an exception; the operation that raised it has changed nothing. -/
  | trapped (c : Content)
  /-- There is something that cannot be done. -/
  | stuck

/-- The ending of a block that does not trap. -/
def Ending.ofOutcome : Option (Content × Flow) → Ending
  | some (c, flow) => .left c flow
  | none => .stuck

namespace Image

variable (m : Image) (w : World) (tail : List Node)

/-- What a block does on a machine that traps. -/
def trapBlock : List Node → Content → Ending
  | [], c => .left c .next
  | .instr i :: block, c =>
    if i.op.traps c then .trapped c
    else
      match m.exec w (block ++ tail) c i.op with
      | some (d, .next) => trapBlock block d
      | outcome => .ofOutcome outcome
  | .label _ :: block, c | .comment _ :: block, c => trapBlock block c
  | .directive _ :: _, _ => .stuck

/-- A block of which only the first instruction can trap either traps there or does the same on both machines. -/
theorem trapBlock_cons {i : Instr} {block : List Node}
    (later : ∀ d, m.trapBlock w tail block d = .ofOutcome (m.runBlock w tail block d)) (c : Content) :
    m.trapBlock w tail (.instr i :: block) c =
      if i.op.traps c then .trapped c else .ofOutcome (m.runBlock w tail (.instr i :: block) c) := by
  simp only [trapBlock, runBlock]
  split
  · rfl
  · rcases m.exec w (block ++ tail) c i.op with - | ⟨d, flow⟩
    · rfl
    · cases flow with
      | next => exact later d
      | jump | line | exit => rfl

/-- Without operations that can trap both machines do the same. -/
theorem trapBlock_of_isSafe {block : List Node} (safe : ∀ i, .instr i ∈ block → i.op.isSafe = true)
    (c : Content) : m.trapBlock w tail block c = .ofOutcome (m.runBlock w tail block c) := by
  induction block generalizing c with
  | nil => rfl
  | cons node block ih =>
    have later := ih fun i member => safe i (List.mem_cons_of_mem node member)
    cases node with
    | instr i => rw [m.trapBlock_cons w tail later, Op.traps_of_isSafe (safe i List.mem_cons_self), if_neg (by simp)]
    | label _ | comment _ => exact later c
    | directive _ => rfl

end Image

/-! ## The code of operators -/

/-- The operands on which the code of an operator traps.  Whether two values are equal is decided by their
    difference. -/
def BinaryOp.traps : BinaryOp → Word → Word → Bool
  | .add, a, b => a.saddOverflow b
  | .sub, a, b | .eq, a, b | .ne, a, b => a.ssubOverflow b
  | _, _, _ => false

theorem BinaryOp.code_eq_cons (op : BinaryOp) (dest left right : Register) :
    ∃ i rest, op.code dest left right = i :: rest ∧
      (∀ c, i.op.traps c = op.traps (c.reg left) (c.reg right)) ∧ ∀ j ∈ rest, j.op.isSafe = true := by
  cases op with
  | add | sub | mul | and | or | lt | gt => exact ⟨_, [], rfl, fun _ => rfl, List.forall_mem_nil _⟩
  | div | eq | ne | le | ge =>
    exact ⟨_, [_], rfl, fun _ => rfl, fun j member => by rw [List.mem_singleton.mp member]; rfl⟩

/-- The code of an operator traps in its first instruction, or leaves the operator's value in the destination. -/
theorem BinaryOp.trapBlock_code (m : Image) (w : World) (tail : List Node) (op : BinaryOp) {dest : Register}
    (left right : Register) (notZero : dest ≠ zeroRegister) (c : Content) :
    ∃ lo, m.trapBlock w tail ((op.code dest left right).map Node.instr) c =
      if op.traps (c.reg left) (c.reg right) then .trapped c
      else .left ((c.setReg dest (op.eval w.byZero (c.reg left) (c.reg right))).setLo lo) .next := by
  obtain ⟨lo, ran⟩ := op.run_code m w tail left right notZero c
  refine ⟨lo, ?_⟩
  have wraps : m.runBlock w tail ((op.code dest left right).map Node.instr) c =
      some ((c.setReg dest (op.eval w.byZero (c.reg left) (c.reg right))).setLo lo, .next) := by
    rw [← Image.runBlock_map_bare, List.map_map]
    exact ran
  obtain ⟨i, rest, code, first, safe⟩ := op.code_eq_cons dest left right
  have safeNodes : ∀ j, .instr j ∈ rest.map Node.instr → j.op.isSafe = true := by
    intro j member
    obtain ⟨j', inRest, same⟩ := List.mem_map.mp member
    cases same
    exact safe j inRest
  rw [code, List.map_cons] at wraps ⊢
  rw [m.trapBlock_cons w tail (m.trapBlock_of_isSafe w tail safeNodes), first, wraps]
  rfl

/-! ## Comparisons -/

/-- The spellings of the comparisons. -/
def relationSymbols : List String :=
  ["==", "!=", "<", "<=", ">", ">="]

/-- The operators with these spellings. -/
def BinaryOp.isRelation : BinaryOp → Bool
  | .eq | .ne | .lt | .le | .gt | .ge => true
  | _ => false

theorem exists_of_mem_relationSymbols {symbol : String} (relational : symbol ∈ relationSymbols) :
    ∃ op : BinaryOp, BinaryOp.ofSymbol? symbol = some op ∧ op.isRelation = true := by
  have all : ∀ symbol ∈ relationSymbols, ∃ op ∈ BinaryOp.ofSymbol? symbol, op.isRelation = true := by
    decide
  exact all symbol relational

/-- A comparison traps where its difference does not fit, and if it has one. -/
theorem BinaryOp.traps_of_isRelation {op : BinaryOp} (relational : op.isRelation = true) (a b : Word) :
    op.traps a b = true ↔
      (op = .eq ∨ op = .ne) ∧ ¬ (-2147483648 ≤ a.toInt - b.toInt ∧ a.toInt - b.toInt ≤ 2147483647) := by
  have fits : a.ssubOverflow b = true ↔
      ¬ (-2147483648 ≤ a.toInt - b.toInt ∧ a.toInt - b.toInt ≤ 2147483647) := by
    simp [BitVec.ssubOverflow]
    omega
  cases op with
  | eq | ne => simp [traps, fits]
  | lt | le | gt | ge => simp [traps]
  | _ => cases relational

/-- On a machine that traps, the code for the spelling of a comparison raises an exception exactly if it is one
    for equality or inequality and the difference of the signed values does not fit into 32 bits.  Otherwise it runs
    to its end and leaves 1 in the destination if the relation holds between the signed values, and 0 if it does
    not, whichever of the registers coincide. -/
theorem relation_traps_iff (m : Image) (w : World) (tail : List Node) (c : Content) {dest : Register}
    (notZero : dest ≠ zeroRegister) {symbol : String} (relational : symbol ∈ relationSymbols)
    (left right : Register) :
    ∃ op : BinaryOp, BinaryOp.ofSymbol? symbol = some op ∧
      let ending := m.trapBlock w tail ((op.code dest left right).map Node.instr) c
      let difference := (c.reg left).toInt - (c.reg right).toInt
      (ending = .trapped c ↔
        (op = .eq ∨ op = .ne) ∧ ¬ (-2147483648 ≤ difference ∧ difference ≤ 2147483647)) ∧
      (ending ≠ .trapped c → ∃ d, ending = .left d .next ∧
        c.Takes dest (BitVec.ofInt 32 (op.onIntegers (c.reg left).toInt (c.reg right).toInt)) d) := by
  obtain ⟨op, selected, isRelation⟩ := exists_of_mem_relationSymbols relational
  refine ⟨op, selected, ?_⟩
  obtain ⟨lo, ended⟩ := op.trapBlock_code m w tail left right notZero c
  have accepts : op.Accepts (c.reg left) (c.reg right) := by
    cases op with
    | eq | ne | lt | le | gt | ge => trivial
    | _ => cases isRelation
  rw [op.eval_eq_onIntegers w.byZero accepts] at ended
  intro ending difference
  rw [← BinaryOp.traps_of_isRelation isRelation]
  have cases : ending = _ := ended
  rw [cases]
  split
  next traps => simp [traps]
  next goesOn => simp [goesOn, c.takes_setReg notZero]

/-- Zero minus the least integer does not fit.  Zero is found to be above it, and is not found to differ from it. -/
theorem relation_traps_iff_leastInteger :
    (∃ d, Image.trapBlock ⟨"main", [], []⟩ .idle [] ((BinaryOp.gt.code "$t2" "$t1" "$t0").map Node.instr)
        leastInteger = .left d .next ∧ leastInteger.Takes "$t2" 1 d) ∧
      Image.trapBlock ⟨"main", [], []⟩ .idle [] ((BinaryOp.ne.code "$t2" "$t1" "$t0").map Node.instr)
        leastInteger = .trapped leastInteger := by
  have notZero : "$t2" ≠ zeroRegister := by decide
  obtain ⟨above, selectsAbove, trapsAbove, leftAbove⟩ :=
    relation_traps_iff ⟨"main", [], []⟩ .idle [] leastInteger notZero (by decide : ">" ∈ relationSymbols) "$t1" "$t0"
  obtain ⟨differs, selectsDiffers, trapsDiffers, -⟩ :=
    relation_traps_iff ⟨"main", [], []⟩ .idle [] leastInteger notZero (by decide : "!=" ∈ relationSymbols) "$t1" "$t0"
  obtain rfl : BinaryOp.gt = above := Option.some.inj selectsAbove
  obtain rfl : BinaryOp.ne = differs := Option.some.inj selectsDiffers
  exact ⟨leftAbove fun trapped => absurd (trapsAbove.mp trapped).1 (by decide),
    trapsDiffers.mpr ⟨.inr rfl, by decide⟩⟩

/-- Whether zero is equal to the least integer is not found out. -/
theorem equality_traps_leastInteger :
    BinaryOp.ofSymbol? "==" = some .eq ∧
      Image.trapBlock ⟨"main", [], []⟩ .idle [] ((BinaryOp.eq.code "$t2" "$t1" "$t0").map Node.instr)
        leastInteger = .trapped leastInteger :=
  ⟨rfl, rfl⟩

end MipsLowering
