import Mathlib.Data.List.Dedup
import Mathlib.Data.List.Perm.Subperm
import MipsLowering.Proofs.Registers
import MipsLowering.Proofs.ScalarLayout
import MipsLowering.Proofs.Simulation

/-! # Scalar programs keep their meaning

The listing of a scalar program shows on the machine what the program shows in the interpreter
(`Image.Renders`).  The two run in step: where the interpreter stands before some statements, the
machine stands before their code, and it holds what the variables hold (`Follows`).

Two conditions on the registers are enough for that, and there are two theorems.  If there are as many
registers as variables, every variable has its own.  If every variable is declared, registers only pass
values on, and then they may be shared, as long as no operator has two different variables. -/

namespace MipsLowering

/-! ## In step -/

/-- How a machine comes to its end. -/
def Config.finalStatus (config : Config) : Status :=
  if config.emitExit then .exited else .ranOff

/-- The machine stands where the interpreter stands and holds what the variables hold, or both have come
    to an end. -/
inductive Follows (declared : List String) (q : Pass) (steps : List TraceStep) :
    Interpreter → Machine → Prop where
  | running {σ : Store} {c : Content} (tail : List TraceStep) (placed : tail <:+ steps)
      (holds : Holds declared q.registers σ c) :
      Follows declared q steps ⟨σ, tail.map TraceStep.stmt, c.out, .running⟩
        ⟨c, tail.flatMap TraceStep.nodes ++ exitNodes q.config, .running⟩
  | ended {σ : Store} {c : Content} (rest : List Stmt) (nodes : List Node) :
      Follows declared q steps ⟨σ, rest, c.out, .exited⟩ ⟨c, nodes, q.config.finalStatus⟩

/-- The program that is loaded for a pass that has come to `q` behind the last statement. -/
def Pass.closed (q : Pass) : Image :=
  ⟨q.config.entryLabel, q.text ++ exitNodes q.config, q.data.directives⟩

/-- What a scalar program needs of the registers that its variables are bound to. -/
structure ScalarProgram.ServedBy (program : ScalarProgram) (file : RegisterFile) : Prop where
  separates : file.Separates program.declared
  pairs : ∀ s ∈ program.body, ∀ left right, s.pair? = some (left, right) →
    isVariableName left = true → isVariableName right = true →
    file.lookup? left = file.lookup? right → left = right

section

variable {program : ScalarProgram} {config : Config} {q : Pass} {steps : List TraceStep}
  (w : World)

/-- The exit sequence ends the machine, and without it the machine runs off the end of the listing. -/
theorem exits (config : Config) (m : Image) (c : Content) :
    ∃ n d, 0 < n ∧ (m.step w)^[n] ⟨c, exitNodes config, .running⟩ = ⟨d, [], config.finalStatus⟩ ∧
      d.out = c.out ∧
      ∀ i < n, ((m.step w)^[i] ⟨c, exitNodes config, .running⟩).content.out = c.out := by
  unfold exitNodes Config.finalStatus
  cases config.emitExit with
  | false =>
    -- One step off the end of the listing.
    refine ⟨1, c, Nat.one_pos, rfl, rfl, fun i below => ?_⟩
    obtain rfl : i = 0 := by omega
    rfl
  | true =>
    have ran : m.runBlock w [] [.comment "program exit", (Op.li resultRegister "10").node,
        Op.syscall.node] c = some (c.setReg resultRegister 10, .exit) :=
      run_service m w [] .exit c
    obtain ⟨n, _, arrived, positive, silent⟩ := Image.runBlock_steps m w ran
    exact ⟨n, _, positive (by simp), arrived, rfl, silent (by decide)⟩

namespace ScalarProgram.Laid

variable (laid : program.Laid config q steps)

include laid

/-- The tables at a statement of the body. -/
theorem suits (scratch : config.scratch = defaultScratch)
    (separates : q.registers.Separates program.declared) {s : TraceStep} (member : s ∈ steps)
    (inBody : s.stmt ∈ program.body) : (q.tablesAt s).Suits program.declared where
  scratch := by rw [Pass.tablesAt, laid.sameConfig, scratch]
  literals := laid.scratch.trans scratch
  separates := separates
  cells := (laid.within s member inBody).entries
  integers operand n decimal := by
    cases found : (q.tablesAt s).symbols.lookup? operand with
    | none => rfl
    | some entry =>
      have named := (laid.within s member inBody).named operand entry found
      rw [isVariableName_of_decimal? decimal] at named
      cases named

/-- The machine before its first step. -/
theorem holds_boot : Holds program.declared q.registers (fun _ => 0) (q.closed.boot w).content where
  cell name isDeclared := by
    have found := laid.cells name isDeclared
    simp only [Image.boot, Pass.closed, DataSection.directives, List.find?_append, found]
    rfl
  register name r _ _ := by
    unfold Content.reg
    split <;> rfl

/-- A label leads both to the same place. -/
theorem from?_label {l : String} (defined : .label l ∈ program.stmts) :
    q.closed.from? l =
      some ((steps.dropWhile (·.stmt != .label l)).flatMap TraceStep.nodes ++ exitNodes q.config) := by
  obtain ⟨present, dropped⟩ := TraceStep.dropWhile_nodes (exitNodes q.config) laid.code
    (by rw [laid.stmts]; exact defined)
  rw [Image.from?, Pass.closed, laid.text]
  simp only [List.mem_append, present, true_or, if_true, dropped]

/-- The code of a statement, run by the machine. -/
theorem runs_stmt (scratch : config.scratch = defaultScratch) (served : program.ServedBy q.registers)
    {s : TraceStep} (member : s ∈ steps) (m : Image) (tail : List Node) {σ : Store} {c : Content}
    (holds : Holds program.declared q.registers σ c) :
    ∃ e, s.stmt.effect? w.byZero σ = some e ∧ (∀ l, e.jump = some l → .label l ∈ program.stmts) ∧
      ∃ d n, Holds program.declared q.registers e.store d ∧ d.out = c.out ++ e.printed ∧
        (m.step w)^[n] ⟨c, s.nodes ++ tail, .running⟩ = m.arrive d tail e.flow ∧
        (n = 0 → e.jump = none) ∧
        ∀ i < n, ((m.step w)^[i] ⟨c, s.nodes ++ tail, .running⟩).content.out = c.out := by
  have inProgram : s.stmt ∈ program.stmts := laid.stmts ▸ List.mem_map_of_mem member
  have code := laid.code s member
  rcases List.mem_append.mp inProgram with isDeclaration | inBody
  · -- A declaration has no code.
    obtain ⟨d, _, same⟩ := List.mem_map.mp isDeclaration
    have nodes : s.nodes = [] := by
      rw [← same] at code
      exact List.map_eq_nil_iff.mp code
    refine ⟨⟨σ, [], none⟩, by rw [← same]; rfl, by simp, c, 0, holds, by simp, ?_, by simp, by simp⟩
    rw [nodes]
    rfl
  · have plain := program.plain_of_mem inBody
    have words := program.named_of_mem_declared
    have suits := laid.suits scratch served.separates member inBody
    have serves : q.registers.Serves s.stmt :=
      ⟨fun silent name mentioned => Option.isSome_iff_exists.mp
        (RegisterFile.lookup?_isSome.mpr (laid.bound s.stmt inBody silent mentioned)),
        served.pairs s.stmt inBody⟩
    obtain ⟨e, effect⟩ := plain.effect?_isSome words w.byZero σ
    have performs : Performs m w tail program.declared q.registers ((q.tablesAt s).code s.stmt) c e :=
      performs_code suits holds words plain serves effect
    obtain ⟨d, ran, holds', out⟩ := performs
    rw [← code, Image.runBlock_map_bare] at ran
    have quiet : ∀ node ∈ s.nodes.dropLast, node.isQuiet = true := by
      have quietCode := quiet_code suits words plain
      rw [← code, ← List.map_dropLast] at quietCode
      intro node among
      have bare := quietCode node.bare (List.mem_map_of_mem among)
      cases node <;> exact bare
    obtain ⟨n, _, arrived, positive, silent⟩ := Image.runBlock_steps m w ran
    refine ⟨e, effect, fun l jumps => List.mem_append_right _ (program.defined _ inBody l
      (plain.namedLabel?_of_jump effect jumps)), d, n, holds', out, arrived, ?_, silent quiet⟩
    -- No step was taken, so there was no code, and then there is no jump either.
    rintro rfl
    have empty : s.nodes = [] := by
      by_contra nonempty
      exact absurd (positive nonempty) (Nat.lt_irrefl 0)
    rw [empty, Image.runBlock_nil] at ran
    exact Effect.jump_of_flow (Prod.mk.inj (Option.some.inj ran)).2.symm

/-- The machine follows the interpreter. -/
theorem simulation (scratch : config.scratch = defaultScratch)
    (served : program.ServedBy q.registers) :
    Simulation (Interpreter.step w.byZero program.stmts) (q.closed.step w) Interpreter.out
      (·.content.out) (Follows program.declared q steps) (·.rest.length) where
  agrees := by
    rintro _ _ (_ | _) <;> rfl
  matched := by
    rintro _ _ (⟨tail, placed, holds⟩ | ⟨rest, nodes⟩)
    · rename_i σ c
      cases tail with
      | nil =>
        -- Behind the last statement only the exit sequence is left.
        obtain ⟨n, d, positive, arrived, out, silent⟩ := exits w q.config q.closed c
        refine ⟨n, ⟨?_, silent⟩, fun zero => absurd zero (Nat.ne_of_gt positive)⟩
        show Follows _ _ _ ⟨σ, [], c.out, .exited⟩ ((q.closed.step w)^[n] ⟨c, exitNodes q.config, .running⟩)
        rw [arrived, ← out]
        exact .ended [] []
      | cons s rest =>
        have member : s ∈ steps := placed.subset List.mem_cons_self
        obtain ⟨e, effect, defined, d, n, holds', out, arrived, jumpless, silent⟩ :=
          laid.runs_stmt w scratch served member q.closed
            (rest.flatMap TraceStep.nodes ++ exitNodes q.config) holds
        have stepped : Interpreter.step w.byZero program.stmts
            ⟨σ, (s :: rest).map TraceStep.stmt, c.out, .running⟩ =
            .arrive program.stmts e (rest.map TraceStep.stmt) c.out := by
          simp only [Interpreter.step, List.map_cons, effect]
        rw [List.flatMap_cons, List.append_assoc]
        refine ⟨n, ⟨?_, silent⟩, fun zero => ?_⟩
        · rw [stepped, arrived, Interpreter.arrive, Effect.flow]
          cases jump : e.jump with
          | none =>
            rw [← out]
            exact .running rest ((List.suffix_cons s rest).trans placed) holds'
          | some l =>
            have there := defined l jump
            simp only [there, if_true, Image.arrive, laid.from?_label there]
            rw [← laid.stmts, List.dropWhile_map, ← out]
            exact .running _ (List.dropWhile_suffix _) holds'
        -- A statement without code leaves the interpreter with less to go.
        · rw [stepped, Interpreter.arrive, jumpless zero]
          exact Nat.lt_succ_self _
    · refine ⟨1, ⟨?_, fun i below => ?_⟩, fun zero => absurd zero Nat.one_ne_zero⟩
      · have stopped : q.config.finalStatus ≠ .running := by
          unfold Config.finalStatus
          split <;> simp
        rw [Function.iterate_one, Image.step_of_stopped q.closed w stopped]
        exact .ended rest nodes
      · obtain rfl : i = 0 := Nat.lt_one_iff.mp below
        rfl

theorem renders (scratch : config.scratch = defaultScratch) (served : program.ServedBy q.registers) :
    q.closed.Renders w program.stmts config.finalStatus := by
  have simulation := laid.simulation w scratch served
  have related : Follows program.declared q steps (.start program.stmts) (q.closed.boot w) := by
    have placed := Follows.running (q := q) steps (List.suffix_refl steps) (laid.holds_boot w)
    rw [laid.stmts, ← laid.text] at placed
    exact placed
  -- A machine that has stopped is at a match, since it stays as it is.
  have stopped : ∀ k, (q.closed.run w k).status ≠ .running →
      ∃ n, Follows program.declared q steps (interpret w.byZero program.stmts n) (q.closed.run w k) := by
    intro k halted
    have stays : ∀ b, b = q.closed.run w k → q.closed.step w b = q.closed.run w k := by
      rintro b rfl
      exact q.closed.step_of_stopped w halted
    obtain ⟨n, k', there, _, same⟩ := simulation.exists_match related stays rfl
    exact ⟨n, same ▸ there⟩
  have notRunning : config.finalStatus ≠ .running := by
    unfold Config.finalStatus
    split <;> simp
  refine ⟨simulation.shows_iff related, fun out => ⟨?_, ?_⟩, fun k => ?_⟩
  · rintro ⟨n, ended, rfl⟩
    obtain ⟨k, there⟩ := simulation.reaches related n
    refine ⟨k, ?_, simulation.agrees _ _ there⟩
    change Follows _ _ _ (interpret w.byZero program.stmts n) (q.closed.run w k) at there
    generalize interpret w.byZero program.stmts n = i at there ended
    generalize q.closed.run w k = machine at there
    cases there with
    | running => cases ended
    | ended => rw [laid.sameConfig]
  · rintro ⟨k, ended, rfl⟩
    obtain ⟨n, there⟩ := stopped k (ended ▸ notRunning)
    refine ⟨n, ?_, (simulation.agrees _ _ there).symm⟩
    generalize interpret w.byZero program.stmts n = i at there
    generalize q.closed.run w k = machine at there ended
    cases there with
    | running => exact absurd ended.symm notRunning
    | ended => rfl
  · by_cases running : (q.closed.run w k).status = .running
    · exact .inl running
    · obtain ⟨n, there⟩ := stopped k running
      generalize interpret w.byZero program.stmts n = i at there
      generalize q.closed.run w k = machine at there running
      cases there with
      | running => exact absurd rfl running
      | ended => exact .inr (by rw [laid.sameConfig])

end ScalarProgram.Laid

end

/-! ## Whole programs -/

section

variable {program : ScalarProgram} {config : Config} {file : RegisterFile}

/-- A register of the pool has no part in code but that of its variables. -/
theorem Config.not_mem_workRegisters (scratch : config.scratch = defaultScratch) {r : Register}
    (pooled : r ∈ config.pool) : r ∉ workRegisters := by
  intro work
  simp only [workRegisters, List.mem_cons] at work
  rcases work with rfl | rfl | rfl | literal
  · exact config.not_mem_pool_of_reserved (by decide) pooled
  · exact config.not_mem_pool_of_reserved (by decide) pooled
  · exact config.not_mem_pool_of_reserved (by decide) pooled
  · exact config.not_mem_pool_of_scratch (scratch ▸ literal) pooled

/-- What is left to show of a program is that its registers serve it. -/
theorem lowerProgram_renders (scratch : config.scratch = defaultScratch)
    (serves : ∀ q steps, program.Laid config q steps → program.ServedBy q.registers) :
    ∃ listing p, lowerProgram config (Program.ofStmts program.stmts) = (.ok listing, p) ∧
      ∀ w, p.image.Renders w program.stmts config.finalStatus := by
  obtain ⟨q, ran⟩ := program.lowers config
  obtain ⟨steps, laid⟩ := program.laid config ran
  obtain ⟨listing, lowered⟩ := lowerProgram_iff.mpr ⟨q, ran, fun _ => laid.labels, rfl⟩
  exact ⟨listing, _, lowered, fun w => laid.renders w scratch (serves q steps laid)⟩

theorem ScalarProgram.Laid.free {q : Pass} {steps : List TraceStep}
    (laid : program.Laid config q steps) (scratch : config.scratch = defaultScratch) (name : String)
    (r : Register) (bound : q.registers.lookup? name = some r) : r ∉ workRegisters := by
  apply config.not_mem_workRegisters scratch
  exact laid.draws.mem_pool bound

end

/-- A scalar program keeps its meaning if there is a register for each of its variables, whatever its
    jumps are. -/
theorem lowerProgram_renders_of_enough_registers (config : Config) (program : ScalarProgram)
    (scratch : config.scratch = defaultScratch) (exits : config.emitExit = true)
    (distinct : config.pool.Nodup)
    (enough : program.vars.dedup.length ≤ config.pool.length) :
    ∃ listing p, lowerProgram config (Program.ofStmts program.stmts) = (.ok listing, p) ∧
      ∀ w, p.image.Renders w program.stmts .exited := by
  have final : config.finalStatus = .exited := by rw [Config.finalStatus, exits, if_pos rfl]
  rw [← final]
  refine lowerProgram_renders scratch fun q steps laid => ?_
  have few : q.registers.names.length ≤ q.registers.pool.length := by
    have among : q.registers.names ⊆ program.vars.dedup := fun name member =>
      List.mem_dedup.mpr (laid.names member)
    rw [laid.draws.pool]
    exact Nat.le_trans (laid.draws.sound.distinct.subperm among).length_le enough
  have own : q.registers.Apart := laid.draws.sound.apart few (laid.draws.pool ▸ distinct)
  refine ⟨⟨laid.free scratch, fun name other r _ first second => own other name r second first⟩, ?_⟩
  intro s inBody left right pair isName isName' same
  obtain ⟨r, bound⟩ := Option.isSome_iff_exists.mp (RegisterFile.lookup?_isSome.mpr
    (laid.bound s inBody (by rintro value rfl; cases pair) (Stmt.left_mem_vars pair isName)))
  exact own left right r bound (same ▸ bound)

/-- Adds up the numbers from 3 down to 1 in a declared variable; the counter lives in a register. -/
def sumDown : ScalarProgram where
  declarations := [⟨"sum", "int", false, by decide +kernel, by decide +kernel⟩]
  body :=
    [.assign "k" (some "3") none none,
      .label "again",
      .assign "sum" (some "sum") (some "+") (some "k"),
      .assign "k" (some "k") (some "-") (some "1"),
      .branch "k" "again" (some "0") (some ">"),
      .print "sum"]
  plain := by decide +kernel
  defined := by decide +kernel

theorem lowerProgram_renders_sumDown :
    ((Config.standard false).pool.Nodup ∧
      sumDown.vars.dedup.length ≤ (Config.standard false).pool.length) ∧
    ((interpret (fun _ => 0) sumDown.stmts 20).status = .exited ∧
      (interpret (fun _ => 0) sumDown.stmts 20).out = [.int 6]) ∧
    ∃ listing p,
      lowerProgram (Config.standard false) (Program.ofStmts sumDown.stmts) = (.ok listing, p) ∧
      ∀ w, p.image.Renders w sumDown.stmts .exited :=
  ⟨⟨by decide, by decide +kernel⟩, by decide +kernel,
    lowerProgram_renders_of_enough_registers (Config.standard false) sumDown rfl rfl (by decide)
      (by decide +kernel)⟩

/-- A scalar program in which every variable is declared keeps its meaning even if variables share
    registers, as long as no operator has two different variables as operands. -/
theorem lowerProgram_renders_of_all_declared (config : Config) (program : ScalarProgram)
    (scratch : config.scratch = defaultScratch) (declared : program.vars ⊆ program.declared)
    (single : ∀ s ∈ program.body, ∀ left right, s.pair? = some (left, right) →
      isVariableName left = true → isVariableName right = true → left = right) :
    ∃ listing p, lowerProgram config (Program.ofStmts program.stmts) = (.ok listing, p) ∧
      ∀ w, p.image.Renders w program.stmts config.finalStatus := by
  refine lowerProgram_renders scratch fun q steps laid => ⟨⟨laid.free scratch, ?_⟩, ?_⟩
  · intro name _ r undeclared bound _
    have isBound : name ∈ q.registers.names := RegisterFile.lookup?_isSome.mp (by simp [bound])
    exact absurd (declared (laid.names isBound)) undeclared
  · intro s inBody left right pair isName isName' _
    exact single s inBody left right pair isName isName'

/-- Prints twice each of the numbers from 3 down to 1. -/
def twiceDown : ScalarProgram where
  declarations :=
    [⟨"x", "int", false, by decide +kernel, by decide +kernel⟩,
      ⟨"y", "INTEGER", true, by decide +kernel, by decide +kernel⟩]
  body :=
    [.assign "x" (some "3") none none,
      .label "again",
      .assign "y" (some "x") none none,
      .assign "y" (some "y") (some "+") (some "y"),
      .print "y",
      .assign "x" (some "x") (some "-") (some "1"),
      .branch "x" "again" none none]
  plain := by decide +kernel
  defined := by decide +kernel

/-- Settings with a single register for all variables. -/
def singleRegister : Config where
  pool := ["$t0"]
  accepted := by decide

theorem lowerProgram_renders_twiceDown :
    (twiceDown.vars ⊆ twiceDown.declared ∧
      ∀ s ∈ twiceDown.body, ∀ left right, s.pair? = some (left, right) →
        isVariableName left = true → isVariableName right = true → left = right) ∧
    ((interpret (fun _ => 0) twiceDown.stmts 30).status = .exited ∧
      (interpret (fun _ => 0) twiceDown.stmts 30).out = [.int 6, .int 4, .int 2]) ∧
    ∃ listing p,
      lowerProgram singleRegister (Program.ofStmts twiceDown.stmts) = (.ok listing, p) ∧
      ∀ w, p.image.Renders w twiceDown.stmts .exited := by
  have declared : twiceDown.vars ⊆ twiceDown.declared := by decide +kernel
  have single : ∀ s ∈ twiceDown.body, ∀ left right, s.pair? = some (left, right) →
      isVariableName left = true → isVariableName right = true → left = right := by
    intro s inBody left right pair isName isName'
    have same : ∀ s ∈ twiceDown.body, ∀ pair ∈ s.pair?, isVariableName pair.2 = true →
        pair.1 = pair.2 := by
      decide +kernel
    exact same s inBody (left, right) pair isName'
  exact ⟨⟨declared, single⟩, by decide +kernel,
    lowerProgram_renders_of_all_declared singleRegister twiceDown rfl declared single⟩

end MipsLowering
