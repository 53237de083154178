import Mathlib.Tactic.Ring
import MipsLowering.Proofs.Arguments
import MipsLowering.Proofs.Faults

/-! # Calls among the arguments of calls

A call whose arguments are calls comes behind them, and some of its arguments may have been queued before
them.  But every call takes the last arguments of the queue and drops the others, whichever call they are
meant for.
So a call gets what was queued since the call before it, and no more.  If it asks for as many arguments at
most, then it gets the last ones that no call has asked for yet, and the stack is balanced.  If it asks for
more, then it gets fewer of them and releases too much (`TraceStep.Passes.stackShift_eq`). -/

namespace MipsLowering

-- The class of an operand is only used through the theorems about it.
seal Operand.ofString

/-! ## Arguments that no call has asked for -/

namespace Stmt

/-- The number of arguments that a call asks for, if it gives one. -/
def asks? : Stmt → Option Int
  | .call _ count _ _ => count
  | _ => none

/-- What is left of the arguments that no call has asked for.  A call asks for the last ones. -/
def leave (unclaimed : List String) (s : Stmt) : List String :=
  (unclaimed ++ s.argument?.toList).rdrop (s.asks?.getD 0).toNat

/-- The arguments that no call has asked for yet. -/
def unclaimed (history : List Stmt) : List String :=
  history.foldl leave []

/-- By how many arguments those that were queued outnumber those that calls have asked for. -/
def outstanding (history : List Stmt) : Int :=
  (history.filterMap argument?).length - (history.filterMap asks?).sum

/-- What is in the queue has been asked for by no call. -/
theorem pending_suffix_unclaimed (history : List Stmt) : pending history <:+ unclaimed history := by
  induction history using List.reverseRecOn with
  | nil => exact List.suffix_refl _
  | append_singleton history s ih =>
    rw [pending_concat, unclaimed, List.foldl_append]
    cases s with
    | call => exact List.nil_suffix
    -- Both lists grow by the same argument.
    | param operand =>
      obtain ⟨front, whole⟩ := ih
      refine ⟨front, ?_⟩
      simp [leave, argument?, asks?, isCall, ← List.append_assoc, whole, unclaimed]
    | _ => simpa [leave, argument?, asks?, isCall, unclaimed] using ih

theorem pushed_eq_rtake (history : List Stmt) (n : Int) :
    Tables.pushed (pending history) (some n) =
      (unclaimed history).rtake (min n.toNat (pending history).length) := by
  obtain ⟨front, whole⟩ := pending_suffix_unclaimed history
  rw [← whole, List.rtake, List.length_append, Tables.pushed, Option.getD_some]
  rw [show front.length + (pending history).length - min n.toNat (pending history).length =
    front.length + ((pending history).length - n.toNat) by omega, List.drop_append]
  simp

end Stmt

/-! ## The stack pointer -/

/-- By how much an operation moves the stack pointer. -/
def Op.stackShift : Op → Int
  | .aluImm .addiu dest source amount => if dest = stackPointer ∧ source = stackPointer then amount else 0
  | _ => 0

def Node.stackShift : Node → Int
  | .instr i => i.op.stackShift
  | _ => 0

/-- By how much lines move the stack pointer in all. -/
def stackShift (nodes : List Node) : Int :=
  (nodes.map Node.stackShift).sum

@[simp] theorem stackShift_nil : stackShift [] = 0 :=
  rfl

@[simp] theorem stackShift_append (nodes nodes' : List Node) :
    stackShift (nodes ++ nodes') = stackShift nodes + stackShift nodes' := by
  simp [stackShift]

@[simp] theorem stackShift_cons (node : Node) (nodes : List Node) :
    stackShift (node :: nodes) = node.stackShift + stackShift nodes := by
  simp [stackShift]

theorem stackShift_eq_zero {nodes : List Node} (still : ∀ node ∈ nodes, node.stackShift = 0) :
    stackShift nodes = 0 :=
  List.sum_eq_zero (List.forall_mem_map.mpr still)

theorem stackShift_map_bare (nodes : List Node) : stackShift (nodes.map Node.bare) = stackShift nodes := by
  have bared : Node.stackShift ∘ Node.bare = Node.stackShift := by
    funext node
    cases node <;> rfl
  rw [stackShift, List.map_map, bared, stackShift]

namespace Tables

variable (t : Tables)

theorem stackShift_fetch (operand : String) (wanted : Option Register) :
    stackShift ((t.fetch operand wanted).2.map Op.node) = 0 := by
  unfold fetch
  cases Operand.ofString (Text.stripped operand) with
  | immediate | float | text => rfl
  | name name =>
    apply stackShift_eq_zero
    simp only [fetchAs, load]
    split
    · simp
    · split <;> simp [Op.node, Node.stackShift, Op.stackShift]

/-- A push moves the stack pointer down by a word. -/
theorem stackShift_push (operand : String) :
    stackShift ((t.pushCode operand).map Op.node) = -t.config.wordSize := by
  simp [pushCode, stackShift_fetch, Op.node, Node.stackShift, Op.stackShift]

theorem stackShift_pushes (operands : List String) :
    stackShift ((operands.flatMap t.pushCode).map Op.node) = -(t.config.wordSize * operands.length) := by
  induction operands with
  | nil => simp
  | cons operand rest ih =>
    rw [List.flatMap_cons, List.map_append, stackShift_append, stackShift_push, ih, List.length_cons]
    push_cast
    ring

theorem stackShift_release (n wordSize : Int) :
    stackShift (releaseLines n wordSize) = wordSize * max n 0 := by
  unfold releaseLines
  split
  next nothing =>
    rw [max_eq_right nothing]
    simp
  next positive =>
    rw [max_eq_left (by omega), mul_comm]
    simp [Op.node, Node.stackShift, Op.stackShift]

theorem stackShift_result (target : Option String) : stackShift (t.resultCode target) = 0 := by
  apply stackShift_eq_zero
  unfold resultCode
  split
  · simp
  · unfold store
    split
    · simp
    · split <;> simp [Op.node, Node.stackShift, Op.stackShift]

end Tables

/-- A call leaves the stack pointer above its place by a word for each argument that it has asked for in
    vain. -/
theorem TraceStep.Passes.stackShift_eq {s : TraceStep} {function : String} {n : Int}
    {target : Option String} (passes : s.Passes function n target) :
    stackShift s.nodes = s.after.config.wordSize * max 0 (n - s.before.params.length) := by
  obtain ⟨remarks, comments, lines⟩ := passes.lines
  have noShift : stackShift remarks = 0 := by
    apply stackShift_eq_zero
    intro node member
    obtain ⟨text, rfl⟩ := comments node member
    rfl
  have jump : (Op.jal function).node.stackShift = 0 := rfl
  have pushes : stackShift ((s.passed.flatMap s.tables.pushCode).map Op.node) =
      -(s.after.config.wordSize * s.passed.length) := s.tables.stackShift_pushes s.passed
  have words : max 0 (n - s.before.params.length) = max n 0 - (s.passed.length : Int) := by
    rw [passes.number]
    omega
  rw [← stackShift_map_bare, lines, stackShift_append, stackShift_append, stackShift_cons, noShift, jump,
    pushes, stackShift_append, Tables.stackShift_release, Tables.stackShift_result, words]
  ring

/-! ## Faults -/

theorem SymbolTable.Open.sound {t : SymbolTable} (opens : t.Open) : t.Sound := by
  intro name s found unbacked
  rw [opens name s found unbacked]

namespace Lower

open Emit
open Text (Filled)

/-- A call is lowered exactly if nothing that it passes is blank and what it releases can be written. -/
theorem call_succeeds_iff {p : Pass} (sound : p.symbols.Sound) {function : String} {count : Option Int}
    {target rawCount : Option String} :
    (∃ q, (call function count target rawCount).run p = .ok () q) ↔
      (∀ a ∈ Tables.pushed p.params count, Filled a) ∧
        ∃ is, popCode (count.getD p.params.length) p.config.wordSize = .ok is := by
  constructor
  · rintro ⟨q, ran⟩
    obtain ⟨-, -, -, released, -⟩ := grows_call ran
    obtain ⟨p₁, _, _, _, _, -, pushed, -⟩ := run_call_ok ran
    exact ⟨filled_of_pushAll pushed, released⟩
  · rintro ⟨filled, released⟩
    obtain ⟨q, ran, -⟩ := @call_succeeds p sound function count target rawCount filled released
    exact ⟨q, ran⟩

/-- The text in front of a line does not decide whether it is lowered. -/
theorem line_succeeds_iff {p : Pass} {l : Line} :
    (∃ q, (line l).run p = .ok () q) ↔ ∃ q, (stmt l.stmt).run { p with text := [] } = .ok () q := by
  constructor
  · rintro ⟨q, ran⟩
    obtain ⟨r, own, lowered, -⟩ := run_line_ok ran
    exact ⟨r, lowered⟩
  · rintro ⟨q, lowered⟩
    simp only [line, EStateM.run] at lowered ⊢
    rw [lowered]
    exact ⟨_, rfl⟩

end Lower

/-- A step and those before it, as long as these have no fault. -/
theorem traceFrom_split {program : Program} {p : Pass} {earlier later : List TraceStep} {s : TraceStep}
    (parts : traceFrom p program = earlier ++ s :: later) (sound : ∀ e ∈ earlier, e.fault = none) :
    Chain p earlier s.before ∧
      (s.fault = none → (Lower.line s.line).run s.before = .ok () s.after) ∧
      (s.fault = none ↔ ∃ q, (Lower.line s.line).run s.before = .ok () q) := by
  induction program generalizing p earlier with
  | nil => cases earlier <;> cases parts
  | cons l rest ih =>
    unfold traceFrom at parts
    cases ran : (Lower.line l).run p with
    | ok _ q =>
      have performed : p.perform (Lower.line l) = (.ok (), q) := by
        simp only [Pass.perform, ran]
      rw [performed] at parts
      dsimp only at parts
      cases earlier with
      | nil =>
        cases parts
        exact ⟨.nil _, fun _ => ran, fun _ => ⟨q, ran⟩, fun _ => rfl⟩
      | cons e earlier =>
        obtain ⟨rfl, tail⟩ := List.cons.inj parts
        obtain ⟨chain, behind⟩ := ih tail fun e' m => sound e' (List.mem_cons_of_mem _ m)
        exact ⟨.cons (s := ⟨l, none, p, q⟩) ran chain, behind⟩
    -- The steps before the one in question have no fault, so this step is not among them.
    | error fault q =>
      have performed : p.perform (Lower.line l) = (.error fault, q) := by
        simp only [Pass.perform, ran]
      rw [performed] at parts
      dsimp only at parts
      cases earlier with
      | nil =>
        cases parts
        have fails : ¬ ∃ r, (Lower.line l).run p = .ok () r := by
          rintro ⟨r, succeeded⟩
          cases ran.symm.trans succeeded
        exact ⟨.nil _, by simp, by simp [fails]⟩
      | cons e earlier =>
        obtain ⟨rfl, -⟩ := List.cons.inj parts
        cases sound _ List.mem_cons_self

theorem line_mem_of_traceFrom {program : Program} {p : Pass} {s : TraceStep}
    (member : s ∈ traceFrom p program) : s.line ∈ program := by
  induction program generalizing p with
  | nil => cases member
  | cons l rest ih =>
    unfold traceFrom at member
    split at member
    all_goals
      rcases List.mem_cons.mp member with rfl | member
      · exact List.mem_cons_self
      · exact List.mem_cons_of_mem _ (ih member)

/-! ## Calls of programs -/

section

variable {config : Config} {program : Program} {earlier later : List TraceStep} {s : TraceStep}
  (parts : (traceProgram config program).1 = earlier ++ s :: later) (sound : ∀ e ∈ earlier, e.fault = none)

include parts sound

theorem params_eq_pending :
    s.before.config = config ∧ s.before.params = Stmt.pending (earlier.map TraceStep.stmt) ∧
      s.before.symbols.Open := by
  have chain := (traceFrom_split parts sound).1
  exact ⟨chain.settings.1, chain.params_eq (Pass.ready_opens config program) [] rfl⟩

theorem fault_param {operand : String} (stmt : s.stmt = .param operand) : s.fault = none := by
  rw [(traceFrom_split parts sound).2.2, Lower.line_succeeds_iff, show s.line.stmt = _ from stmt]
  exact ⟨_, rfl⟩

theorem fault_call_eq_none_iff {function : String} {count : Option Int} {target rawCount : Option String}
    (stmt : s.stmt = .call function count target rawCount) :
    s.fault = none ↔ (∀ a ∈ s.passed, Text.Filled a) ∧
      ∃ is, Lower.popCode (count.getD s.before.params.length) config.wordSize = .ok is := by
  obtain ⟨settings, -, opens⟩ := params_eq_pending parts sound
  have fresh : SymbolTable.Sound ({ s.before with text := [] } : Pass).symbols := opens.sound
  rw [(traceFrom_split parts sound).2.2, Lower.line_succeeds_iff, show s.line.stmt = _ from stmt]
  rw [TraceStep.passed, stmt, ← settings]
  exact Lower.call_succeeds_iff fresh

end

/-- Statements that queue an operand, or call with a number of arguments whose words can be released. -/
def Stmt.isCalling (config : Config) : Stmt → Bool
  | .param operand => decide (Text.Filled operand)
  | .call _ (some n) _ _ => decide ¬ (0 < n ∧ 10 ^ Text.numeralLimit ≤ (n * config.wordSize).natAbs)
  | _ => false

/-- Arguments and calls are lowered without a fault. -/
theorem fault_of_calling {config : Config} {program : Program}
    (calling : ∀ l ∈ program, l.stmt.isCalling config = true) :
    ∀ s ∈ (traceProgram config program).1, s.fault = none := by
  have lines : ∀ s ∈ (traceProgram config program).1, s.stmt.isCalling config = true :=
    fun s member => calling s.line (line_mem_of_traceFrom member)
  -- If there were a fault, then there would be a first one.
  by_contra faulty
  cases found : (traceProgram config program).1.find? (·.fault.isSome) with
  | none => exact faulty (by simpa using found)
  | some s =>
    obtain ⟨fault, earlier, later, parts, before⟩ := List.find?_eq_some_iff_append.mp found
    have sound : ∀ e ∈ earlier, e.fault = none := by simpa using before
    have here := lines s (by simp [parts])
    suffices s.fault = none by simp [this] at fault
    cases stmt : s.stmt with
    | param operand => exact fault_param parts sound stmt
    | call function count target rawCount =>
      rw [stmt] at here
      cases count with
      | none => cases here
      | some n =>
        rw [fault_call_eq_none_iff parts sound stmt]
        refine ⟨fun a passed => ?_, Lower.popCode_eq_ok_iff.mpr (of_decide_eq_true here)⟩
        rw [TraceStep.passed, stmt, (params_eq_pending parts sound).2.1] at passed
        obtain ⟨e, member, param⟩ :=
          List.mem_map.mp (Stmt.mem_of_pending (List.mem_of_mem_drop passed))
        have queued := lines e (by simp [parts, member])
        rw [param] at queued
        exact of_decide_eq_true queued
    | _ =>
      rw [stmt] at here
      cases here

/-- Calls that ask for a given number of arguments.  What is queued at a call is what was queued since the
    call before it.  If it asks for as many arguments at most, then it pushes the last ones that no call has
    asked for, and leaves the stack pointer in its place.  If it asks for more, then it pushes what is
    queued and leaves the stack pointer above its place.  A call is not lowered if what it would push is
    blank, or if what it releases cannot be written. -/
theorem traceProgram_nested_calls (config : Config) (program : Program) :
    let trace := (traceProgram config program).1
    ((∀ l ∈ program, l.stmt.isCalling config = true) → ∀ s ∈ trace, s.fault = none) ∧
    ∀ earlier s later, trace = earlier ++ s :: later → (∀ e ∈ earlier, e.fault = none) →
      ∀ function n target rawCount, s.stmt = .call function (some n) target rawCount →
        let history := earlier.map TraceStep.stmt
        let queued := Stmt.pending history
        (s.fault = none ↔ (∀ a ∈ s.passed, Text.Filled a) ∧
          ¬ (0 < n ∧ 10 ^ Text.numeralLimit ≤ (n * config.wordSize).natAbs)) ∧
        (s.fault = none →
          (n ≤ queued.length → s.passed = (Stmt.unclaimed history).rtake n.toNat ∧
            s.passed.length = n.toNat ∧ stackShift s.nodes = 0) ∧
          (queued.length < n → s.passed = queued ∧
            stackShift s.nodes = config.wordSize * (n - queued.length) ∧ 0 < stackShift s.nodes) ∧
          s.Passes function n target ∧
          ∀ place c, s.Ready target place c → s.Delivers function n place c) := by
  intro trace
  refine ⟨fault_of_calling, ?_⟩
  intro earlier s later parts sound function n target rawCount stmt history queued
  obtain ⟨-, params, opens⟩ : _ ∧ s.before.params = queued ∧ _ := params_eq_pending parts sound
  refine ⟨?_, fun succeeded => ?_⟩
  · rw [fault_call_eq_none_iff parts sound stmt]
    exact and_congr_right fun _ => Lower.popCode_eq_ok_iff
  obtain ⟨before, lowered, -⟩ := traceFrom_split parts sound
  have ran := lowered succeeded
  obtain ⟨settings, draws, scratch⟩ := (before.concat ran).settings
  obtain ⟨passes, bound⟩ := TraceStep.passes stmt ran opens
  have shift := passes.stackShift_eq
  have passed : s.passed = (Stmt.unclaimed history).rtake (min n.toNat queued.length) := by
    rw [TraceStep.passed, stmt, params]
    exact Stmt.pushed_eq_rtake history n
  have number := passes.number
  rw [Option.getD_some, params, settings] at shift
  rw [Option.getD_some, params] at number
  refine ⟨fun enough => ⟨?_, ?_, ?_⟩, fun few => ?_, passes, fun place c ready => passes.delivers ready ?_⟩
  · rw [passed, Nat.min_eq_left (by omega)]
  · rw [number, Nat.min_eq_left (by omega)]
  · rw [shift, max_eq_left (by omega), mul_zero]
  · have above : stackShift s.nodes = config.wordSize * (n - queued.length) := by
      rw [shift, max_eq_right (by omega)]
    refine ⟨?_, above, ?_⟩
    · apply (params ▸ passes.last).eq_of_length
      rw [number, Nat.min_eq_right (by omega)]
    · rw [above]
      exact Int.mul_pos config.wordSize_pos (by omega)
  · exact ⟨draws, scratch, ready.apart, bound, ready.stack, ready.zero⟩

/-- The call of `f` with the result of `g` and with three. -/
def callsFirst : Program :=
  Program.ofStmts
    [.param "2",
      .call "g" (some 1) (some "t") none,
      .param "t",
      .param "3",
      .call "f" (some 2) none none]

theorem callsFirst_nested_calls :
    (∀ l ∈ callsFirst, l.stmt.isCalling (Config.standard false) = true) ∧
    (∀ s ∈ (traceProgram (Config.standard false) callsFirst).1, s.fault = none) ∧
    ∃ earlier s, (traceProgram (Config.standard false) callsFirst).1 = earlier ++ [s] ∧
      s.stmt = .call "f" (some 2) none none ∧
      s.passed = ["t", "3"] ∧ stackShift s.nodes = 0 := by
  have calling : ∀ l ∈ callsFirst, l.stmt.isCalling (Config.standard false) = true := by decide +kernel
  obtain ⟨sound, calls⟩ := traceProgram_nested_calls (Config.standard false) callsFirst
  let steps := (traceProgram (Config.standard false) callsFirst).1
  have faultless : ∀ s ∈ steps, s.fault = none := sound calling
  let history := (callsFirst.map Line.stmt).take 4
  obtain ⟨earlier, s, parts⟩ : ∃ earlier s, steps = earlier ++ [s] :=
    (List.eq_nil_or_concat' steps).resolve_left (List.ne_nil_of_length_pos (by decide +kernel))
  have stmts : steps.map TraceStep.stmt = history ++ [.call "f" (some 2) none none] := by decide +kernel
  rw [parts, List.map_append] at stmts
  obtain ⟨before, last⟩ := List.append_inj' stmts rfl
  have stmt : s.stmt = .call "f" (some 2) none none := (List.cons.inj last).1
  have split : (∀ e ∈ earlier, e.fault = none) ∧ s.fault = none := by
    simpa [parts, or_imp, forall_and] using faultless
  obtain ⟨-, balanced⟩ := calls earlier s [] parts split.1 _ _ _ _ stmt
  obtain ⟨enough, -⟩ := balanced split.2
  rw [before] at enough
  obtain ⟨passed, -, shift⟩ := enough (by decide +kernel)
  exact ⟨calling, faultless, earlier, s, parts, stmt, passed.trans (by decide +kernel), shift⟩

/-- The call of `f` with one and with the result of `g`. -/
def callsBetween : Program :=
  Program.ofStmts
    [.param "1",
      .param "2",
      .call "g" (some 1) (some "t") none,
      .param "t",
      .call "f" (some 2) none none]

/-- The inner call drops an argument of the outer one, although no call asks for more arguments than are
    outstanding. -/
theorem callsBetween_unbalanced :
    let stmts := callsBetween.map Line.stmt
    let steps := (traceProgram (Config.standard false) callsBetween).1
    (∀ i < stmts.length, ∀ n ∈ stmts[i]?.bind Stmt.asks?, n ≤ Stmt.outstanding (stmts.take i)) ∧
      (∀ s ∈ steps, s.fault = none) ∧
      Stmt.unclaimed (stmts.take 4) = ["1", "t"] ∧
      steps[4]?.map (fun s => (s.stmt, s.passed, stackShift s.nodes)) =
        some (.call "f" (some 2) none none, ["t"], 4) := by
  decide +kernel

end MipsLowering
