import MipsLowering.Proofs.Frame
import MipsLowering.Proofs.Registers

/-! # Journeys through a listing

The machine goes through the listing of a program on scalars from the code of one statement to the code
of another one: behind some code it goes on with the next, and a jump leads to the code behind a label.
A `Journey` records the visits that it has made on its way, and at every moment of its run the machine
is on one (`Journey.covers`). -/

namespace MipsLowering

/-! ## Layout -/

/-- A statement that gives a name a cell, unless it has one: a declaration, a read, or a call with a
    target. -/
def Stmt.Declares (s : Stmt) (name : String) : Prop :=
  ∃ type, s.declares? = some (name, type)

namespace SymbolTable

theorem declare_eq_giveCell (symbols : SymbolTable) (name : String) (type : ValueType) :
    symbols.declare name type = symbols.giveCell name (declaredEntry name type) :=
  rfl

/-- Whether all symbols are scalars. -/
def AllScalar (symbols : SymbolTable) : Prop :=
  ∀ name entry, symbols.lookup? name = some entry → entry.isArray = false

theorem AllScalar.declaration {symbols : SymbolTable} (scalars : symbols.AllScalar) (s : Stmt) :
    (s.declaration symbols).1.AllScalar := by
  unfold Stmt.declaration
  split
  next declared type _ =>
    intro name entry found
    rw [declare_eq_giveCell, lookup?_giveCell (name_declaredEntry _ _)] at found
    split at found
    next =>
      cases found
      cases present : symbols.lookup? declared with
      | none => rfl
      | some old => exact scalars declared old present
    next => exact scalars name entry found
  next => exact scalars

end SymbolTable

namespace Lower.LaysStmt

variable {p q : Pass} {s : Stmt} {nodes : List Node} (laid : LaysStmt s p q nodes)

include laid

theorem allScalar (scalars : p.symbols.AllScalar) : q.symbols.AllScalar := by
  have entered := scalars.declaration s
  rcases laid.symbols with same | ⟨assigned, _, type, noted⟩
  · rw [same]
    exact entered
  · rw [noted]
    intro name entry found
    rcases SymbolTable.lookup?_note found with before | ⟨rfl, rfl⟩
    · exact entered name entry before
    · rfl

/-- Names get their cells where they are declared, and keep them. -/
theorem isInMemory_iff (name : String) :
    q.symbols.isInMemory name = true ↔
      p.symbols.isInMemory name = true ∨ s.Declares name := by
  have noted : q.symbols.isInMemory name = (s.declaration p.symbols).1.isInMemory name := by
    rcases laid.symbols with same | ⟨assigned, _, type, noted⟩
    · rw [same]
      rfl
    · rw [noted, SymbolTable.isInMemory_eq_cell?, SymbolTable.cell?_note,
        ← SymbolTable.isInMemory_eq_cell?]
      rfl
  rw [noted]
  unfold Stmt.declaration Stmt.Declares
  cases s.declares? with
  | none => simp
  | some declared =>
    obtain ⟨other, type⟩ := declared
    simp only [SymbolTable.declare_eq_giveCell, SymbolTable.isInMemory_giveCell
      (SymbolTable.name_declaredEntry _ _) (SymbolTable.inMemory_declaredEntry _ _ _)]
    simp [@eq_comm _ name]

end Lower.LaysStmt

/-- What a pass over a program on scalars has laid out, step by step. -/
structure Pass.LaidOut (p : Pass) (steps : List TraceStep) : Prop where
  text : p.text = steps.flatMap TraceStep.nodes ++ exitNodes p.config
  code : ∀ s ∈ steps, s.nodes.map Node.bare = (p.tablesAt s).code s.stmt
  ready : ∀ s ∈ steps, (p.tablesAt s).Ready s.stmt
  backs : ∀ before s rest name, steps = before ++ s :: rest →
    (s.after.symbols.isInMemory name = true ↔ ∃ s' ∈ before ++ [s], s'.stmt.Declares name)

theorem Chain.eq_after {p q : Pass} {before : List TraceStep} {s : TraceStep}
    (chain : Chain p (before ++ [s]) q) : q = s.after := by
  have ended : ∀ {r}, Chain r [] q → q = r := by
    rintro r ⟨⟩
    rfl
  induction before generalizing p with
  | nil =>
    cases chain with
    | cons ran later => exact ended later
  | cons first rest ih =>
    cases chain with
    | cons ran later => exact ih later

/-- Cells are given in the order of the text. -/
theorem Chain.isInMemory_iff {p q : Pass} {steps : List TraceStep} (chain : Chain p steps q)
    (laid : ∀ s ∈ steps, Lower.LaysStmt s.stmt s.before s.after s.nodes) (name : String) :
    q.symbols.isInMemory name = true ↔
      p.symbols.isInMemory name = true ∨ ∃ s ∈ steps, s.stmt.Declares name := by
  induction chain with
  | nil p => simp
  | @cons s rest q ran later ih =>
    rw [ih fun s' member => laid s' (List.mem_cons_of_mem s member),
      (laid s List.mem_cons_self).isInMemory_iff, or_assoc]
    simp only [List.mem_cons, exists_eq_or_imp]

theorem laidOut {config : Config} {program : Program} {listing : String} {p : Pass}
    (lowered : lowerProgram config program = (.ok listing, p))
    (scalar : ∀ l ∈ program, l.stmt.isScalar = true) :
    p.config = config ∧ p.LaidOut (traceProgram config program).1 := by
  obtain ⟨q, ran, _, rfl⟩ := lowerProgram_iff.mp ⟨listing, lowered⟩
  obtain ⟨chain, lines⟩ := chain_traceFrom ran
  have isScalar : ∀ s ∈ traceFrom (Pass.ready config program) program, s.stmt.isScalar = true :=
    fun s member => scalar s.line (lines ▸ List.mem_map_of_mem member)
  have laid := (chain.lays isScalar rfl).2
  obtain ⟨sameConfig, registers, _⟩ := chain.grows laid
  have scalars := (chain.invariant (P := fun p => p.symbols.AllScalar)
    (fun name entry found => nomatch found) fun s member => (laid s member).allScalar).2
  have draws := registers.drawsOn (RegisterFile.drawsOn_ofRegisters config)
  refine ⟨sameConfig, by rw [chain.text]; rfl, chain.settled laid,
    fun s member => ⟨(scalars s member).2, ?_, ?_⟩, ?_⟩
  · exact registers.scratch.trans (congrArg (·.scratch) sameConfig).symm
  · intro name mentioned
    have isBound := (chain.mem_names laid name).mpr (.inr ⟨s, member, mentioned⟩)
    obtain ⟨r, bound⟩ := Option.isSome_iff_exists.mp (RegisterFile.lookup?_isSome.mpr isBound)
    exact ⟨r, sameConfig ▸ draws.mem_pool bound, bound⟩
  · intro before s rest name isSplit
    change traceFrom (Pass.ready config program) program = _ at isSplit
    rw [isSplit, ← List.singleton_append, ← List.append_assoc] at chain laid
    obtain ⟨r, upToHere, _⟩ := chain.split
    obtain rfl := upToHere.eq_after
    rw [upToHere.isInMemory_iff fun s' member => laid s' (List.mem_append_left _ member)]
    exact or_iff_right fun early => nomatch early

/-! ## Visits -/

/-- A passage through the code of a step: what the machine held before and behind it, and how the code
    was left. -/
structure Visit where
  step : TraceStep
  arrival : Content
  departure : Content
  flow : Flow

namespace Pass

variable (p : Pass)

/-- The listing from some step on. -/
def listingFrom (rest : List TraceStep) : List Node :=
  rest.flatMap TraceStep.nodes ++ exitNodes p.config

/-- A machine that stands before the code of some step. -/
def standing (rest : List TraceStep) (c : Content) : Machine :=
  ⟨c, p.listingFrom rest, .running⟩

theorem listingFrom_cons (s : TraceStep) (rest : List TraceStep) :
    p.listingFrom (s :: rest) = s.nodes ++ p.listingFrom rest := by
  rw [listingFrom, listingFrom, List.flatMap_cons, List.append_assoc]

end Pass

/-- The visits that the machine has made so far, and the machine as it is now. -/
inductive Journey (p : Pass) (w : World) (steps : List TraceStep) : List Visit → Machine → Prop where
  | start : Journey p w steps [] (p.image.boot w)
  | visit {visits : List Visit} {s : TraceStep} {rest : List TraceStep} {c d : Content} {flow : Flow}
      (soFar : Journey p w steps visits (p.standing (s :: rest) c)) (placed : s :: rest <:+ steps)
      (ran : p.image.runBlock w (p.listingFrom rest) s.nodes c = some (d, flow)) :
      Journey p w steps (visits ++ [⟨s, c, d, flow⟩]) (p.image.arrive d (p.listingFrom rest) flow)

namespace Pass.LaidOut

variable {p : Pass} {w : World} {steps : List TraceStep} (laid : p.LaidOut steps)

include laid

/-- A label leads to the code of some step. -/
theorem from? {l : String} {nodes : List Node} (found : p.image.from? l = some nodes) :
    ∃ rest, rest <:+ steps ∧ nodes = p.listingFrom rest := by
  have text : p.image.text = p.listingFrom steps := laid.text
  have noExit : Node.label l ∉ exitNodes p.config := by
    unfold exitNodes
    split <;> simp [Op.node]
  unfold Image.from? at found
  rw [text] at found
  split at found
  next present =>
    have among : Node.label l ∈ steps.flatMap TraceStep.nodes :=
      (List.mem_append.mp present).resolve_right noExit
    obtain ⟨s, member, inside⟩ := List.mem_flatMap.mp among
    have coded : Node.label l ∈ (p.tablesAt s).code s.stmt := by
      rw [← laid.code s member]
      exact List.mem_map_of_mem (f := Node.bare) inside
    have defined : .label l ∈ steps.map TraceStep.stmt :=
      Tables.label_mem_code coded ▸ List.mem_map_of_mem member
    obtain ⟨_, dropped⟩ := TraceStep.dropWhile_nodes (exitNodes p.config) laid.code defined
    rw [Pass.listingFrom, dropped] at found
    exact ⟨_, List.dropWhile_suffix _, (Option.some.inj found).symm⟩
  next =>
    split at found
    · exact ⟨steps, List.suffix_refl steps, (Option.some.inj found).symm⟩
    · cases found

/-- The code of a step, run by the machine. -/
theorem runs_code {s : TraceStep} (member : s ∈ steps) {tail : List Node} {c d : Content} {flow : Flow}
    (ran : p.image.runBlock w tail s.nodes c = some (d, flow)) :
    p.image.runBlock w tail ((p.tablesAt s).code s.stmt) c = some (d, flow) := by
  rw [← laid.code s member, Image.runBlock_map_bare, ran]

/-- Behind the code of a step the machine stands before the code of another one, or it has stopped. -/
theorem arrives {s : TraceStep} {rest : List TraceStep} (placed : s :: rest <:+ steps) {c d : Content}
    {flow : Flow} (ran : p.image.runBlock w (p.listingFrom rest) s.nodes c = some (d, flow)) :
    (p.image.arrive d (p.listingFrom rest) flow).status ≠ .running ∨
      ∃ there, there <:+ steps ∧ p.image.arrive d (p.listingFrom rest) flow = p.standing there d := by
  have member : s ∈ steps := placed.subset List.mem_cons_self
  cases flow with
  | next => exact .inr ⟨rest, (List.suffix_cons s rest).trans placed, rfl⟩
  | jump l =>
    cases found : p.image.from? l with
    | none => exact .inl (by simp [Image.arrive, found])
    | some nodes =>
      obtain ⟨there, suffix, rfl⟩ := laid.from? found
      exact .inr ⟨there, suffix, by simp only [Image.arrive, found]; rfl⟩
  | line number =>
    refine absurd rfl (Image.runBlock_flow p.image w ?_ (laid.runs_code member ran) number)
    exact fun i inside => ((laid.ready s member).allows_code _ inside).stays
  | exit => exact .inl (by simp [Image.arrive])

end Pass.LaidOut

namespace Journey

variable {p : Pass} {w : World} {steps : List TraceStep} {visits : List Visit} {here : Machine}

/-- On a journey the machine stands before the code of a step, or it has stopped. -/
theorem placed (laid : p.LaidOut steps) (journey : Journey p w steps visits here) :
    here.status ≠ .running ∨ ∃ rest c, rest <:+ steps ∧ here = p.standing rest c := by
  cases journey with
  | start =>
    have text : p.image.text = p.listingFrom steps := laid.text
    exact .inr ⟨steps, (p.image.boot w).content, List.suffix_refl steps,
      by simp only [Pass.standing, ← text]; rfl⟩
  | visit soFar placed ran =>
    rcases laid.arrives placed ran with stopped | ⟨there, suffix, same⟩
    · exact .inl stopped
    · exact .inr ⟨there, _, suffix, same⟩

/-- `k` steps from `here` on the machine is still in the code that it stood before, or in the exit
    sequence, or it had stopped. -/
def Underway (p : Pass) (steps : List TraceStep) (here : Machine) (k : Nat) : Prop :=
  (here.status ≠ .running ∧ k = 0) ∨ (∃ c, here = p.standing [] c) ∨
    ∃ s rest c, s :: rest <:+ steps ∧ here = p.standing (s :: rest) c ∧ k ≤ s.nodes.length

theorem covers_from (laid : p.LaidOut steps) (journey : Journey p w steps visits here) (n : Nat) :
    ∃ visits here' k, Journey p w steps visits here' ∧
      (p.image.step w)^[n] here = (p.image.step w)^[k] here' ∧ Underway p steps here' k := by
  have stays : ∀ {b : Machine}, b.status ≠ .running → ∀ n, (p.image.step w)^[n] b = b := fun stopped n =>
    Function.iterate_fixed (p.image.step_of_stopped w stopped) n
  induction n using Nat.strongRecOn generalizing visits here with
  | ind n ih =>
    rcases journey.placed laid with stopped | ⟨rest, c, suffix, rfl⟩
    · exact ⟨visits, here, 0, journey, by rw [stays stopped]; rfl, .inl ⟨stopped, rfl⟩⟩
    · -- Steps without code are passed over, so this is an induction on the steps ahead.
      induction rest generalizing visits with
      | nil => exact ⟨visits, _, n, journey, rfl, .inr (.inl ⟨c, rfl⟩)⟩
      | cons s rest ahead =>
        have listing : p.standing (s :: rest) c = ⟨c, s.nodes ++ p.listingFrom rest, .running⟩ := by
          rw [Pass.standing, Pass.listingFrom_cons]
        cases ran : p.image.runBlock w (p.listingFrom rest) s.nodes c with
        | none =>
          obtain ⟨k, short, stuck⟩ := Image.runBlock_stuck p.image w ran
          rw [← listing] at stuck
          have halted : ((p.image.step w)^[k] (p.standing (s :: rest) c)).status ≠ .running := by
            rw [stuck]
            simp
          refine ⟨visits, _, min n k, journey, ?_,
            .inr (.inr ⟨s, rest, c, suffix, rfl, Nat.le_trans (Nat.min_le_right n k) short⟩)⟩
          rcases Nat.le_total n k with early | late
          · rw [Nat.min_eq_left early]
          · rw [Nat.min_eq_right late, ← Nat.sub_add_cancel late, Function.iterate_add_apply,
              stays halted]
        | some outcome =>
          obtain ⟨d, flow⟩ := outcome
          have further := Journey.visit journey suffix ran
          obtain ⟨k, short, arrived, positive, _⟩ := Image.runBlock_steps p.image w ran
          rw [← listing] at arrived
          by_cases still : n < k
          · exact ⟨visits, _, n, journey, rfl,
              .inr (.inr ⟨s, rest, c, suffix, rfl, Nat.le_of_lt (Nat.lt_of_lt_of_le still short)⟩)⟩
          · by_cases empty : s.nodes = []
            · have same : p.standing (s :: rest) c = p.standing rest c := by
                rw [listing, empty]
                rfl
              rw [empty] at ran
              cases ran
              rw [same]
              exact ahead ((List.suffix_cons s rest).trans suffix) further
            · obtain ⟨visits', here', k', journey', same, underway⟩ :=
                ih (n - k) (by have := positive empty; omega) further
              refine ⟨visits', here', k', journey', ?_, underway⟩
              rw [← same, ← arrived, ← Function.iterate_add_apply, Nat.sub_add_cancel (by omega)]

/-- At every moment of its run the machine is on a journey. -/
theorem covers (laid : p.LaidOut steps) (n : Nat) :
    ∃ visits here k, Journey p w steps visits here ∧
      p.image.run w n = (p.image.step w)^[k] here ∧ Underway p steps here k :=
  covers_from laid .start n

end Journey

end MipsLowering
