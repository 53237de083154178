import Mathlib.Data.List.DropRight
import MipsLowering.Proofs.Ledger
import MipsLowering.Proofs.Stack
import MipsLowering.Proofs.Targets

/-! # Arguments of calls

Arguments are queued by statements of their own, and the next call takes them.  What is queued at a call is
what has been queued since the call before it (`Chain.params_eq`).  The call pushes the last of these
arguments, as many as it asks for, and drops the others, so that no argument is passed twice and none
reaches a later call (`Chain.passed_sublist`).

It asks for as many words of the stack to be released as it wants arguments, even if fewer are queued.  So
the stack pointer comes back to its place exactly if there are enough of them (`TraceStep.Passes.delivers`). -/

namespace MipsLowering

-- The class of an operand is only used through the theorems about it.
seal Operand.ofString

open scoped List

/-! ## The queue -/

namespace Stmt

/-- The operand that a statement queues. -/
def argument? : Stmt → Option String
  | .param operand => some operand
  | _ => none

def isCall : Stmt → Bool
  | .call .. => true
  | _ => false

/-- What has been queued since the last call. -/
def pending (history : List Stmt) : List String :=
  (history.rtakeWhile fun s => !s.isCall).filterMap argument?

/-- The arguments that a statement takes out of a queue to pass them on. -/
def takes (queue : List String) : Stmt → List String
  | .call _ count _ _ => Tables.pushed queue count
  | _ => []

theorem pending_concat (history : List Stmt) (s : Stmt) :
    pending (history ++ [s]) = if s.isCall then [] else pending history ++ s.argument?.toList := by
  unfold pending
  rw [List.rtakeWhile_concat]
  cases s.isCall with
  | true => rfl
  | false =>
    rw [Bool.not_false, if_pos rfl, List.filterMap_append, List.filterMap_cons]
    cases s.argument? <;> rfl

theorem mem_of_pending {history : List Stmt} {operand : String} (queued : operand ∈ pending history) :
    .param operand ∈ history := by
  obtain ⟨s, member, argument⟩ := List.mem_filterMap.mp queued
  have inHistory := (List.rtakeWhile_suffix _ history).subset member
  cases s with
  | param own =>
    cases argument
    exact inHistory
  | _ => cases argument

theorem takes_append_sublist (queue : List String) (s : Stmt) :
    s.takes queue ++ (if s.isCall then [] else queue ++ s.argument?.toList) <+
      queue ++ s.argument?.toList := by
  cases s with
  | call function count target rawCount =>
    show Tables.pushed queue count ++ [] <+ queue ++ []
    rw [List.append_nil, List.append_nil]
    exact List.drop_sublist _ queue
  | _ => exact .refl _

end Stmt

theorem Ledger.params_after (g : Ledger) (s : Stmt) :
    (g.after s).params = if s.isCall then [] else g.params ++ s.argument?.toList := by
  rw [after_eq]
  cases s <;> simp [record, loop, place, use, Stmt.isCall, Stmt.argument?]

/-- The arguments that a step passes to a function. -/
def TraceStep.passed (s : TraceStep) : List String :=
  s.stmt.takes s.before.params

theorem Lower.params_line {p q : Pass} {l : Line} (ran : (line l).run p = .ok () q)
    (opens : p.symbols.Open) :
    q.params = if l.stmt.isCall then [] else p.params ++ l.stmt.argument?.toList :=
  (congrArg Ledger.params (ledger_line ran opens).1).trans (p.ledger.params_after l.stmt)

namespace Chain

variable {p q : Pass} {steps : List TraceStep}

theorem params_eq (chain : Chain p steps q) (opens : p.symbols.Open) (history : List Stmt)
    (queued : p.params = Stmt.pending history) :
    q.params = Stmt.pending (history ++ steps.map TraceStep.stmt) ∧ q.symbols.Open := by
  induction chain generalizing history with
  | nil p => simpa using ⟨queued, opens⟩
  | @cons s rest q ran later ih =>
    have params : s.after.params = Stmt.pending (history ++ [s.stmt]) := by
      rw [Lower.params_line ran opens, queued, Stmt.pending_concat]
    obtain ⟨final, still⟩ := ih (Lower.ledger_line ran opens).2 _ params
    refine ⟨?_, still⟩
    rw [final, List.append_assoc]
    rfl

/-- What is passed is passed in the order in which it was queued, and only once. -/
theorem passed_sublist (chain : Chain p steps q) (opens : p.symbols.Open) :
    steps.flatMap TraceStep.passed <+ p.params ++ steps.filterMap (·.stmt.argument?) := by
  induction chain with
  | nil p => exact List.nil_sublist _
  | @cons s rest q ran later ih =>
    have step : s.passed ++ s.after.params <+ s.before.params ++ s.stmt.argument?.toList := by
      rw [Lower.params_line ran opens]
      exact Stmt.takes_append_sublist _ _
    have here : (s :: rest).filterMap (·.stmt.argument?) =
        s.stmt.argument?.toList ++ rest.filterMap (·.stmt.argument?) := by
      rw [List.filterMap_cons]
      cases s.stmt.argument? <;> rfl
    calc (s :: rest).flatMap TraceStep.passed
        = s.passed ++ rest.flatMap TraceStep.passed := List.flatMap_cons
      _ <+ s.passed ++ (s.after.params ++ rest.filterMap (·.stmt.argument?)) :=
          (List.Sublist.refl _).append (ih (Lower.ledger_line ran opens).2)
      _ = (s.passed ++ s.after.params) ++ rest.filterMap (·.stmt.argument?) :=
          (List.append_assoc _ _ _).symm
      _ <+ (s.before.params ++ s.stmt.argument?.toList) ++ rest.filterMap (·.stmt.argument?) :=
          step.append (.refl _)
      _ = s.before.params ++ (s :: rest).filterMap (·.stmt.argument?) := by
          rw [here, List.append_assoc]

end Chain

/-! ## The code of a call -/

/-- The function that an operation calls. -/
def Op.callee? : Op → Option String
  | .jal function => some function
  | _ => none

def Node.callee? : Node → Option String
  | .instr i => i.op.callee?
  | _ => none

/-- The tables by which a call fetches its arguments: its target may not have a cell yet. -/
def TraceStep.tables (s : TraceStep) : Tables :=
  ⟨s.after.config, s.before.symbols, s.after.registers, s.after.data⟩

/-- A call that wants `n` arguments pushes the last of those that are queued, jumps once, and releases `n`
    words. -/
structure TraceStep.Passes (s : TraceStep) (function : String) (n : Int) (target : Option String) :
    Prop where
  last : s.passed <:+ s.before.params
  number : s.passed.length = min n.toNat s.before.params.length
  emptied : s.after.params = []
  lines : ∃ remarks : List Node, (∀ node ∈ remarks, ∃ text, node = .comment text) ∧
    s.nodes.map Node.bare = remarks ++ (s.passed.flatMap s.tables.pushCode).map Op.node ++
      (Op.jal function).node ::
        (Tables.releaseLines n s.after.config.wordSize ++ (s.after.tablesAt s).resultCode target)
  once : s.nodes.filterMap Node.callee? = [function]

theorem Tables.queueRemark_comments (function : String) (count : Option Int)
    (target rawCount : Option String) (queued : Nat) :
    ∀ node ∈ queueRemark function count target rawCount queued, ∃ text, node = .comment text := by
  unfold queueRemark
  split
  · simp
  · simp

theorem Node.callees_map_bare (nodes : List Node) :
    (nodes.map bare).filterMap callee? = nodes.filterMap callee? := by
  have bared : ∀ node : Node, node.bare.callee? = node.callee? := fun node => by cases node <;> rfl
  rw [List.filterMap_map]
  exact congrArg (nodes.filterMap ·) (funext bared)

theorem Node.target?_of_callee? {node : Node} {function : String} (calls : node.callee? = some function) :
    node.target? = some function := by
  cases node with
  | instr i =>
    simp only [callee?, target?] at calls ⊢
    cases op : i.op with
    | jal label => rwa [op] at calls
    | _ => simp [op, Op.callee?] at calls
  | label | comment | directive => cases calls

theorem Node.callees_sublist (nodes : List Node) : nodes.filterMap callee? <+ targets nodes := by
  induction nodes with
  | nil => exact .slnil
  | cons node rest ih =>
    rw [targets_cons]
    cases calls : node.callee? with
    | none =>
      rw [List.filterMap_cons_none calls]
      exact ih.trans (List.sublist_append_right _ _)
    | some function =>
      rw [List.filterMap_cons_some calls, target?_of_callee? calls]
      exact ih.cons_cons function

/-- Lines with a single jump that call a function at all call what they jump to, once. -/
theorem Node.callees_eq {nodes : List Node} {function : String} (jump : targets nodes = [function])
    (call : nodes.filterMap callee? ≠ []) : nodes.filterMap callee? = [function] := by
  have fewer := callees_sublist nodes
  rw [jump] at fewer
  exact (List.sublist_singleton.mp fewer).resolve_left call

/-- The code of a call, and that the names among its arguments have registers. -/
theorem TraceStep.passes {s : TraceStep} {function : String} {count : Option Int}
    {target rawCount : Option String} (stmt : s.stmt = .call function count target rawCount)
    (ran : (Lower.line s.line).run s.before = .ok () s.after) (opens : s.before.symbols.Open) :
    s.Passes function (count.getD s.before.params.length) target ∧
      ∀ operand ∈ s.passed, ∀ name ∈ Stmt.namesIn operand, name ∈ s.after.registers.names := by
  have single : Chain s.before [s] s.after := .cons ran (.nil _)
  obtain ⟨r, own, lowered, after, -⟩ := Lower.run_line_ok ran
  rw [show s.line.stmt = _ from stmt] at lowered
  obtain ⟨-, grows, -, ⟨is, popped⟩, bound⟩ := Lower.grows_call lowered
  have config : s.after.config = s.before.config := single.growth.config
  have passed : s.passed = Tables.pushed s.before.params count := by
    rw [TraceStep.passed, stmt]
    rfl
  have code := single.laid s List.mem_cons_self
  rw [stmt] at code
  have release := Tables.releaseCode_eq (t := s.after.tablesAt s)
    (show Lower.popCode (count.getD s.before.params.length) s.after.config.wordSize = .ok is from
      config ▸ popped)
  -- The settled code of a call, with the release written out.
  have lines : s.nodes.map Node.bare =
      Tables.queueRemark function count target rawCount s.before.params.length ++
        (s.passed.flatMap s.tables.pushCode).map Op.node ++
        (Op.jal function).node ::
          (Tables.releaseLines (count.getD s.before.params.length) s.after.config.wordSize ++
            (s.after.tablesAt s).resultCode target) := by
    rw [code, passed]
    show Tables.passCode _ _ _ _ _ _ _ = _
    rw [Tables.passCode, release]
    simp only [List.append_assoc, List.singleton_append]
    rfl
  -- There is one call among the jumps of the code, and it is the only line that calls.
  refine ⟨⟨?_, ?_, ?_, ⟨_, Tables.queueRemark_comments _ _ _ _ _, lines⟩, ?_⟩, ?_⟩
  · rw [passed]
    exact List.drop_suffix _ _
  · rw [passed, Tables.pushed, List.length_drop]
    omega
  · rw [Lower.params_line ran opens, show s.line.stmt = _ from stmt]
    rfl
  · apply Node.callees_eq
    · rw [← Node.targets_map_bare, code]
      exact (s.after.tablesAt s).targets_passCode _ _ _ _ _ _
    · rw [← Node.callees_map_bare, lines]
      simp [Node.callee?, Op.callee?, Op.node]
  · intro operand member name named
    rw [after]
    rw [passed] at member
    exact bound operand member name named

/-! ## Calls on the machine -/

/-- A core on which the code of a call runs up to the jump and on from it: words have four bytes, registers
    are not shared, and the cells of arguments and target are at addresses where they can be accessed, out
    of reach of the stack. -/
structure TraceStep.Ready (s : TraceStep) (target : Option String) (place : String → Word) (c : Core) :
    Prop where
  size : s.after.config.wordSize = 4
  apart : s.after.registers.Apart
  stack : s.after.config.scratch0 ≠ stackPointer
  zero : s.after.config.scratch0 ≠ zeroRegister
  accepts : s.tables.Accepts place c s.passed
  result : ∀ name, Stmt.given target = some name → ∀ width a,
    (s.after.tablesAt s).sourceAs? place (.name name) = some (width, a) → width.Admits a

/-- The arguments of a call are on the stack at the jump.  If the function returns with the same stack
    pointer, then it is back in its place, or above it by as many words as there were too few arguments. -/
def TraceStep.Delivers (s : TraceStep) (function : String) (n : Int) (place : String → Word) (c : Core) :
    Prop :=
  ∃ (front back : List Node) (d : Core),
    s.nodes.map Node.bare = front ++ (Op.jal function).node :: back ∧
    Core.run place front c = some d ∧
    c.Stacks (s.passed.map (s.tables.value place c)) d ∧
    ∀ d' : Core, d'.reg stackPointer = d.reg stackPointer →
      ∃ e, Core.run place back d' = some e ∧
        e.reg stackPointer =
          c.reg stackPointer + BitVec.ofInt 32 (4 * max 0 (n - s.before.params.length)) ∧
        (n - s.before.params.length < 2 ^ 30 →
          (e.reg stackPointer = c.reg stackPointer ↔ n ≤ s.before.params.length))

theorem Core.run_comments {place : String → Word} {nodes : List Node}
    (comments : ∀ node ∈ nodes, ∃ text, node = .comment text) (c : Core) : run place nodes c = some c := by
  induction nodes with
  | nil => rfl
  | cons node rest ih =>
    obtain ⟨text, rfl⟩ := comments node List.mem_cons_self
    exact ih fun other member => comments other (List.mem_cons_of_mem _ member)

theorem TraceStep.Passes.delivers {s : TraceStep} {function : String} {n : Int} {target : Option String}
    {place : String → Word} {c : Core} (passes : s.Passes function n target)
    (ready : s.Ready target place c) (separates : s.tables.Separates s.passed) :
    s.Delivers function n place c := by
  obtain ⟨remarks, comments, lines⟩ := passes.lines
  obtain ⟨d, ran, pushed⟩ := Tables.runs_pushes separates ready.size ready.accepts
  refine ⟨_, _, d, lines, Core.run_append_some (Core.run_comments comments c) ran, pushed, ?_⟩
  intro d' kept
  rw [ready.size]
  obtain ⟨e, released, pointer⟩ := @Tables.runs_release place n d'
  obtain ⟨f, stored, registers⟩ := Tables.runs_result ready.result e
  have back : f.reg stackPointer =
      c.reg stackPointer + BitVec.ofInt 32 (4 * max 0 (n - s.before.params.length)) := by
    rw [registers, pointer, kept, pushed.pointer, List.length_map, passes.number]
    exact Tables.pointer_behind_call _ _ _
  refine ⟨f, Core.run_append_some released stored, back, fun low => ?_⟩
  rw [back]
  exact Tables.pointer_behind_call_eq_iff _ low

/-- Calls and their arguments in a program whose lines are lowered without a fault: what is queued at each
    place, what the code of a call is and does, and that no argument is passed on more than once. -/
theorem traceProgram_passes_arguments {config : Config} {program : Program}
    (sound : ∀ step ∈ (traceProgram config program).1, step.fault = none) :
    let trace := (traceProgram config program).1
    (∀ earlier s later, trace = earlier ++ s :: later →
      s.before.params = Stmt.pending (earlier.map TraceStep.stmt) ∧
      (s.stmt.isCall = false → s.stmt.argument? = none → s.after.params = s.before.params)) ∧
    (∀ s ∈ trace, ∀ function count target rawCount, s.stmt = .call function count target rawCount →
      let n := count.getD s.before.params.length
      s.Passes function n target ∧
        ∀ place c, s.Ready target place c → s.Delivers function n place c) ∧
    trace.flatMap TraceStep.passed <+ program.filterMap (·.stmt.argument?) := by
  obtain ⟨q, ran⟩ := run_lines_of_trace sound
  obtain ⟨chain, lines⟩ := chain_traceFrom ran
  have opens := Pass.ready_opens config program
  intro trace
  refine ⟨fun earlier s later parts => ?_, fun s member function count target rawCount stmt => ?_, ?_⟩
  · rw [show traceFrom _ _ = earlier ++ s :: later from parts] at chain
    obtain ⟨before, ranHere, -⟩ := chain.around
    obtain ⟨queued, still⟩ := before.params_eq opens [] rfl
    refine ⟨queued, fun noCall noArgument => ?_⟩
    rw [Lower.params_line ranHere still]
    simp [noCall, noArgument]
  · obtain ⟨earlier, later, parts⟩ := List.append_of_mem member
    rw [show traceFrom _ _ = earlier ++ s :: later from parts] at chain
    obtain ⟨before, ranHere, -⟩ := chain.around
    obtain ⟨-, still⟩ := before.params_eq opens [] rfl
    obtain ⟨passes, bound⟩ := TraceStep.passes stmt ranHere still
    obtain ⟨-, draws, scratch⟩ := (before.concat ranHere).settings
    refine ⟨passes, fun place c ready => passes.delivers ready ?_⟩
    exact ⟨draws, scratch, ready.apart, bound, ready.stack, ready.zero⟩
  · have listed : program.filterMap (·.stmt.argument?) =
        trace.filterMap (·.stmt.argument?) := by
      rw [← lines, List.filterMap_map]
      rfl
    rw [listed]
    exact chain.passed_sublist opens

/-- A call that leaves an argument in the queue, and passes one from memory, one from a register and a
    number that is no integer. -/
def passesThree : Program :=
  Program.ofStmts
    [.declare "x" (some "int") false,
      .assign "t" (some "4") none none,
      .param "9",
      .param "x",
      .param "t",
      .param "1.5",
      .call "f" (some 3) (some "r") none]

/-- Where the cells of this program are. -/
def passesThreePlace (name : String) : Word :=
  if name = "x" then 0x10010000 else if name = "r" then 0x10010004 else 0x10010008

/-- A core on which its names and its literal have different values. -/
def passesThreeCore : Core where
  registers r := if r = stackPointer then 0x7ffffffc else if r = "$s0" then 4 else 0
  memory := Memory.write (Memory.write (fun _ => 0) .word 0x10010000 5) .word 0x10010008 0x3fc00000

theorem passesThree_passes_arguments :
    (∀ step ∈ (traceProgram (Config.standard false) passesThree).1, step.fault = none) ∧
    ∃ s ∈ (traceProgram (Config.standard false) passesThree).1,
      s.stmt = .call "f" (some 3) (some "r") none ∧ s.before.params = ["9", "x", "t", "1.5"] ∧
      s.Ready (some "r") passesThreePlace passesThreeCore ∧
      ∃ front back d, s.nodes.map Node.bare = front ++ (Op.jal "f").node :: back ∧
        Core.run passesThreePlace front passesThreeCore = some d ∧
        d.reg stackPointer = 0x7ffffff0 ∧
        d.memory.read .word 0x7ffffff8 = 5 ∧
        d.memory.read .word 0x7ffffff4 = 4 ∧
        d.memory.read .word 0x7ffffff0 = 0x3fc00000 ∧
        ∀ d' : Core, d'.reg stackPointer = d.reg stackPointer →
          ∃ e, Core.run passesThreePlace back d' = some e ∧ e.reg stackPointer = 0x7ffffffc := by
  let steps := (traceProgram (Config.standard false) passesThree).1
  have sound : ∀ step ∈ steps, step.fault = none := by decide +kernel
  obtain ⟨s, at6⟩ : ∃ s, steps[6]? = some s := Option.isSome_iff_exists.mp (by decide +kernel)
  have facts : (steps[6]?.map fun s => (s.stmt, s.before.params, s.passed)) =
      some (.call "f" (some 3) (some "r") none, ["9", "x", "t", "1.5"], ["x", "t", "1.5"]) := by
    decide +kernel
  have reads : (steps[6]?.map fun s => (s.passed.map (s.tables.source? passesThreePlace),
        s.passed.map (s.tables.value passesThreePlace passesThreeCore),
        (s.after.tablesAt s).sourceAs? passesThreePlace (.name "r"))) =
      some ([some (.word, 0x10010000), none, some (.word, 0x10010008)], [5, 4, 0x3fc00000],
        some (.word, 0x10010004)) := by
    decide +kernel
  have settings : steps[6]?.all (fun s => s.after.config.wordSize = 4 ∧ s.after.registers.Sound ∧
      s.after.registers.names.length ≤ s.after.registers.pool.length ∧ s.after.registers.pool.Nodup ∧
      s.after.config.scratch0 ≠ stackPointer ∧ s.after.config.scratch0 ≠ zeroRegister) = true := by
    decide +kernel
  rw [at6] at facts reads settings
  simp only [Option.map_some, Option.some.injEq, Prod.mk.injEq] at facts reads
  obtain ⟨stmt, queued, passed⟩ := facts
  obtain ⟨sources, values, result⟩ := reads
  obtain ⟨size, known, enough, distinct, stack, zero⟩ := of_decide_eq_true settings
  have pointer : passesThreeCore.reg stackPointer = 0x7ffffffc := by decide
  have ready : s.Ready (some "r") passesThreePlace passesThreeCore := by
    refine ⟨size, known.apart enough distinct, stack, zero, ⟨by decide, ?_, ?_⟩, ?_⟩
    · rw [passed]
      decide
    · intro operand member width a loaded
      have listed : some (width, a) ∈ s.passed.map (s.tables.source? passesThreePlace) :=
        List.mem_map.mpr ⟨operand, member, loaded⟩
      rw [sources] at listed
      rw [passed, pointer]
      simp only [List.mem_cons, Option.some.injEq, Prod.mk.injEq, List.not_mem_nil, or_false, reduceCtorEq,
        false_or] at listed
      obtain ⟨rfl, rfl⟩ | ⟨rfl, rfl⟩ := listed
      · refine ⟨by decide, fun x inside => ?_⟩
        simp only [Width.bytes, List.length_cons, List.length_nil] at inside ⊢
        bv_omega
      · refine ⟨by decide, fun x inside => ?_⟩
        simp only [Width.bytes, List.length_cons, List.length_nil] at inside ⊢
        bv_omega
    · intro name given width a loaded
      cases given
      rw [result] at loaded
      cases loaded
      decide
  obtain ⟨-, calls, -⟩ := traceProgram_passes_arguments sound
  have member := List.mem_of_getElem? at6
  obtain ⟨-, delivers⟩ := calls s member "f" (some 3) (some "r") none stmt
  obtain ⟨front, back, d, lines, ran, pushed, behind⟩ := delivers _ _ ready
  rw [values] at pushed
  have lowered : d.reg stackPointer = 0x7ffffff0 := by
    rw [pushed.pointer, pointer]
    decide
  have words := pushed.words
  rw [lowered] at words
  refine ⟨sound, s, member, stmt, queued, ready, front, back, d, lines, ran, lowered,
    words 0 (by decide), words 1 (by decide), words 2 (by decide), fun d' kept => ?_⟩
  obtain ⟨e, ran', -, back⟩ := behind d' kept
  refine ⟨e, ran', ?_⟩
  rw [queued] at back
  exact ((back (by decide)).mpr (by decide)).trans pointer

end MipsLowering
