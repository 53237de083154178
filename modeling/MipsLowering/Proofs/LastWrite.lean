import Mathlib.Data.List.Induction
import MipsLowering.Proofs.Deliveries
import MipsLowering.Proofs.Journeys

/-! # The value that was written last

A name has two places for its value, and the text settles which of them a statement uses.  An assignment
before the first declaration of a name leaves its cell alone, and what is read or returned leaves its
register alone.  Moreover a fetch behind the declaration loads the register from the cell: once such code
has run, the register no longer has what an assignment before the declaration has put there, wherever the
next fetch of the name stands.

* `Holding` says which places have the value that was written last, and follows it along a journey;
  `Holding.serves_after_iff` says when the place that is fetched from is one of them.
* `Journey.kept` proves that it is there, and that the other place has an older one.
* `lowerProgram_tracksWrites` says so of every moment of every run of a listing, and
  `declaredLate_shows_zero` shows what becomes of a name that is declared too late. -/

namespace MipsLowering

/-! ## Writes and fetches -/

/-- A visit that writes the value of a name.  A call that jumps into the listing has no result. -/
def Visit.Writes (v : Visit) (name : String) : Prop :=
  v.step.stmt.target? = some name ∧ v.flow = .next

/-- Which places of a name have the value that was written last. -/
structure Holding where
  register : Bool
  cell : Bool
  deriving Repr, DecidableEq

namespace Holding

/-- Behind a write.  An assignment works out the value in the register; what is read and what a call
    returns only goes to the cell. -/
def ofWrite (name : String) (s : TraceStep) : Holding :=
  ⟨s.stmt.isAssignment, s.after.symbols.isInMemory name⟩

/-- Behind code that does not write the name, but may load its register from its cell. -/
def past (name : String) (h : Holding) (s : TraceStep) : Holding :=
  if name ∈ s.stmt.loaded s.after.symbols then ⟨h.cell, h.cell⟩ else h

/-- Behind a write and the visits that came after it. -/
def after (name : String) (write : Visit) (between : List Visit) : Holding :=
  between.foldl (fun h v => h.past name v.step) (ofWrite name write.step)

/-- Code behind the declaration of a name has run that loads its register from its cell. -/
def Reloaded (name : String) (between : List Visit) : Prop :=
  ∃ v ∈ between, name ∈ v.step.stmt.loaded v.step.after.symbols

instance (name : String) (between : List Visit) : Decidable (Reloaded name between) :=
  inferInstanceAs (Decidable (∃ v ∈ between, name ∈ v.step.stmt.loaded v.step.after.symbols))

/-- Whether the place that a step fetches the name from has the value. -/
def serves (name : String) (h : Holding) (fetch : TraceStep) : Bool :=
  if fetch.after.symbols.isInMemory name then h.cell else h.register

end Holding

/-- The machine stands before the code of `fetch`, which fetches the value of a name.  That was written
    last in the visit `write`, behind which came the visits `between`. -/
structure LastWrite (p : Pass) (w : World) (steps : List TraceStep) (name : String) (write : Visit)
    (between : List Visit) (fetch : TraceStep) (c : Content) : Prop where
  journey : ∃ before rest, fetch :: rest <:+ steps ∧
    Journey p w steps (before ++ write :: between) (p.standing (fetch :: rest) c)
  fetches : name ∈ fetch.stmt.fetched fetch.after.symbols
  writes : write.Writes name
  last : ∀ v ∈ between, ¬ v.Writes name

/-- What is found at a place of a name behind a write: what the write has put to one of the places, if it
    is `fresh`, and else what was at a place before that the write has left alone. -/
def Visit.Yields (p : Pass) (name : String) (write : Visit) (fresh : Bool) (found : Option Word) : Prop :=
  if fresh then
    ∃ home ∈ (p.tablesAt write.step).written write.step.stmt, found = write.departure.at? home
  else
    ∃ home ∈ [.register ((p.tablesAt write.step).register name), .cell name],
      home ∉ (p.tablesAt write.step).written write.step.stmt ∧ found = write.arrival.at? home

/-- Where the listing of a program on scalars keeps the values of its names. -/
structure TracksWrites (p : Pass) (w : World) (steps : List TraceStep) : Prop where
  /-- At every moment the machine is on a journey. -/
  covers : ∀ n, ∃ visits here k, Journey p w steps visits here ∧
    p.image.run w n = (p.image.step w)^[k] here ∧ Journey.Underway p steps here k
  /-- Every visit works on what is at the homes of its operands, and puts its result to the places that
      are `written`. -/
  works : ∀ {visits here}, Journey p w steps visits here → ∀ v ∈ visits,
    (p.tablesAt v.step).Works w v.step.stmt v.arrival v.departure v.flow
  /-- A name has a cell from its first declaration in the text on. -/
  backs : ∀ before s rest name, steps = before ++ s :: rest →
    (s.after.symbols.isInMemory name = true ↔ ∃ s' ∈ before ++ [s], s'.stmt.Declares name)
  /-- Whether a fetch uses a place that a write has written. -/
  located : ∀ write fetch name, write.stmt.target? = some name →
    ((p.tablesAt fetch).home name ∈ (p.tablesAt write).written write.stmt ↔
      (Holding.ofWrite name write).serves name fetch = true)
  /-- A fetch from the cell, or from a register that was loaded from the cell in between, needs a write that
      has written the cell.  Any other fetch needs an assignment. -/
  fresh : ∀ name write between fetch, (Holding.after name write between).serves name fetch = true ↔
    if fetch.after.symbols.isInMemory name = true ∨ Holding.Reloaded name between then
      write.step.after.symbols.isInMemory name = true
    else write.step.stmt.isAssignment = true
  /-- What a fetch finds. -/
  finds : ∀ {name write between fetch c}, LastWrite p w steps name write between fetch c →
    write.Yields p name ((Holding.after name write between).serves name fetch)
      (c.at? ((p.tablesAt fetch).home name))
  /-- It finds what was written last, if the name has its cell at all of the steps or at none. -/
  settled : ∀ {name write between fetch c}, LastWrite p w steps name write between fetch c →
    (∀ s ∈ fetch :: between.map Visit.step,
      s.after.symbols.isInMemory name = write.step.after.symbols.isInMemory name) →
    (Holding.after name write between).serves name fetch = true

/-! ## What a statement leaves alone -/

namespace Stmt

variable {s : Stmt} {name : String}

/-- What is read and what a call returns is put to a cell, which is given on the spot if need be. -/
theorem declares_of_target (target : s.target? = some name) (passed : s.isAssignment = false) :
    s.Declares name := by
  cases s with
  | assign => cases passed
  | read => exact ⟨.int, by simpa [declares?, target?] using target⟩
  | call function count given rawCount =>
    rw [target?] at target
    exact ⟨.int, by simp [declares?, target]⟩
  | _ => cases target

/-- A statement that only puts a value to the cell of its target loads nothing. -/
theorem loaded_eq_nil (symbols : SymbolTable) (target : s.target? = some name)
    (passed : s.isAssignment = false) : s.loaded symbols = [] := by
  cases s with
  | assign => cases passed
  | read | call => rfl
  | _ => cases target

end Stmt

namespace Tables.Ready

variable {t : Tables} {s : Stmt} {m : Image} {w : World} {tail : List Node} {c d : Content}
  {flow : Flow} {name : String} (ready : t.Ready s)

include ready

/-- Only a call can leave its code before its target is written, and then it has done nothing but set
    the link register. -/
theorem link_of_left (apart : t.registers.Apart)
    (ran : m.runBlock w tail (t.code s) c = some (d, flow)) (target : s.target? = some name)
    (left : flow ≠ .next) : s.isAssignment = false ∧ ∃ v, d = c.setReg linkRegister v := by
  have works := ready.works apart ran
  cases s with
  | assign dest operand1 operator operand2 =>
    obtain ⟨source, known, _⟩ := Option.map_eq_some_iff.mp target
    obtain ⟨_, _, _, _, next, _⟩ := works source known
    exact absurd next left
  | read dest =>
    obtain ⟨_, _, _, _, next, _⟩ := works .typed rfl
    exact absurd next left
  | call function count given rawCount =>
    rcases ready.call_cases ran with ⟨next, _⟩ | ⟨_, linked⟩
    · exact absurd next left
    · exact ⟨rfl, linked⟩
  | _ => cases target

/-- What becomes of the places of a name that is not written: the register may be loaded from the
    cell. -/
theorem spares (apart : t.registers.Apart) (respects : w.Respects t.config)
    (ran : m.runBlock w tail (t.code s) c = some (d, flow))
    (unwritten : ¬ (s.target? = some name ∧ flow = .next)) :
    d.cells name = c.cells name ∧ (t.Bound name → some (d.reg (t.register name)) =
      if name ∈ s.loaded t.symbols then c.at? (.cell name) else some (c.reg (t.register name))) := by
  by_cases target : s.target? = some name
  · obtain ⟨passed, v, rfl⟩ :=
      ready.link_of_left apart ran target fun next => unwritten ⟨target, next⟩
    refine ⟨rfl, fun bound => ?_⟩
    have notLink : t.register name ≠ linkRegister := fun same =>
      t.config.not_mem_pool_of_reserved (r := linkRegister) (by decide) (same ▸ bound.pooled)
    rw [Stmt.loaded_eq_nil t.symbols target passed, if_neg List.not_mem_nil,
      Content.reg_setReg_of_ne _ _ notLink]
  · refine ⟨(ready.frame respects ran).1 name fun stored =>
      target (cell_mem_written_iff.mp stored).1, fun bound => ?_⟩
    split
    next loaded => exact ready.loads_register apart respects ran target loaded
    next unloaded => rw [ready.keeps_register apart respects ran bound target unloaded]

end Tables.Ready

/-! ## Along a journey -/

@[simp] theorem Image.content_arrive (m : Image) (c : Content) (rest : List Node) (flow : Flow) :
    (m.arrive c rest flow).content = c := by
  cases flow with
  | jump label => cases found : m.from? label <;> simp [arrive, found]
  | _ => rfl

namespace Journey

variable {p : Pass} {w : World} {steps : List TraceStep} {visits before between : List Visit}
  {v write : Visit} {here : Machine} {name : String}

/-- The last visit of a journey, and the journey up to it. -/
theorem last_visit (journey : Journey p w steps (visits ++ [v]) here) :
    here.content = v.departure ∧ ∃ rest, v.step :: rest <:+ steps ∧
      Journey p w steps visits (p.standing (v.step :: rest) v.arrival) ∧
      p.image.runBlock w (p.listingFrom rest) v.step.nodes v.arrival = some (v.departure, v.flow) := by
  generalize all : visits ++ [v] = made at journey
  cases journey with
  | start => simp at all
  | visit soFar placed ran =>
    obtain ⟨rfl, same⟩ := List.append_inj' all rfl
    cases same
    exact ⟨Image.content_arrive .., _, placed, soFar, ran⟩

/-- A visit runs the code of its statement. -/
theorem ran_code (laid : p.LaidOut steps) (journey : Journey p w steps visits here) :
    ∀ v ∈ visits, v.step ∈ steps ∧ ∃ tail, p.image.runBlock w tail
      ((p.tablesAt v.step).code v.step.stmt) v.arrival = some (v.departure, v.flow) := by
  induction journey with
  | start => simp
  | @visit _ s rest _ _ _ _ placed ran ih =>
    simp only [List.mem_append, List.mem_singleton]
    rintro v (earlier | rfl)
    · exact ih v earlier
    · have member : s ∈ steps := placed.subset List.mem_cons_self
      exact ⟨member, _, laid.runs_code member ran⟩

end Journey

/-! ## What is left of a write -/

namespace Pass.LaidOut

variable {p : Pass} {w : World} {steps : List TraceStep} {tail : List Node} {write : Visit}
  {name : String} (laid : p.LaidOut steps)

include laid

/-- What is read and what is returned goes to a cell. -/
theorem backed_of_target {s : TraceStep} (member : s ∈ steps) (target : s.stmt.target? = some name)
    (passed : s.stmt.isAssignment = false) : s.after.symbols.isInMemory name = true := by
  obtain ⟨before, rest, placed⟩ := List.append_of_mem member
  exact (laid.backs before s rest name placed).mpr
    ⟨s, by simp, Stmt.declares_of_target target passed⟩

variable (respects : w.Respects p.config) (member : write.step ∈ steps)
  (ran : p.image.runBlock w tail ((p.tablesAt write.step).code write.step.stmt) write.arrival =
    some (write.departure, write.flow))
  (writes : write.Writes name)

include respects member ran writes

theorem yields_cell :
    write.Yields p name (write.step.after.symbols.isInMemory name) (write.departure.at? (.cell name)) := by
  unfold Visit.Yields
  split
  next backed => exact ⟨_, Tables.cell_mem_written_iff.mpr ⟨writes.1, backed⟩, rfl⟩
  next unbacked =>
    have unstored : .cell name ∉ (p.tablesAt write.step).written write.step.stmt := fun stored =>
      unbacked (Tables.cell_mem_written_iff.mp stored).2
    refine ⟨.cell name, by simp, unstored, ?_⟩
    rw [Content.at?, ((laid.ready _ member).frame respects ran).1 name unstored, Content.at?]

theorem yields_register (bound : (p.tablesAt write.step).Bound name) :
    write.Yields p name write.step.stmt.isAssignment
      (some (write.departure.reg ((p.tablesAt write.step).register name))) := by
  unfold Visit.Yields
  split
  next assigned =>
    exact ⟨_, Tables.register_mem_written_iff.mpr ⟨name, writes.1, assigned, rfl⟩, rfl⟩
  next passed =>
    have unset : .register ((p.tablesAt write.step).register name) ∉
        (p.tablesAt write.step).written write.step.stmt := fun set => by
      obtain ⟨_, _, assigned, _⟩ := Tables.register_mem_written_iff.mp set
      exact passed assigned
    refine ⟨_, List.mem_cons_self, unset, ?_⟩
    rcases ((laid.ready _ member).frame respects ran).2 _ bound.pooled unset with kept | ⟨_, loaded, _⟩
    · exact congrArg some kept
    · rw [Stmt.loaded_eq_nil _ writes.1 (Bool.eq_false_iff.mpr passed)] at loaded
      cases loaded

end Pass.LaidOut

namespace Journey

variable {p : Pass} {w : World} {steps : List TraceStep} {before between : List Visit} {v write : Visit}
  {here : Machine} {name : String} {h : Holding} {c : Content}

/-- The places of a name have what `Holding` says. -/
structure Kept (p : Pass) (name : String) (write : Visit) (h : Holding) (c : Content) : Prop where
  fresh : h.cell = write.step.after.symbols.isInMemory name
  cell : c.cells name = write.departure.cells name
  register : (p.tablesAt write.step).Bound name →
    write.Yields p name h.register (some (c.reg ((p.tablesAt write.step).register name)))

theorem Kept.yields_cell (kept : Kept p name write h c) (laid : p.LaidOut steps)
    (respects : w.Respects p.config) (member : write.step ∈ steps) {tail : List Node}
    (ran : p.image.runBlock w tail ((p.tablesAt write.step).code write.step.stmt) write.arrival =
      some (write.departure, write.flow))
    (writes : write.Writes name) : write.Yields p name h.cell (c.at? (.cell name)) := by
  have yields := laid.yields_cell respects member ran writes
  rwa [Content.at?, ← kept.cell, ← kept.fresh] at yields

/-- A visit that does not write the name, but may load its register from its cell. -/
theorem Kept.past (kept : Kept p name write h v.arrival)
    (cells : v.departure.cells name = v.arrival.cells name)
    (yields : write.Yields p name h.cell (v.arrival.at? (.cell name)))
    (register : (p.tablesAt write.step).Bound name →
      some (v.departure.reg ((p.tablesAt write.step).register name)) =
        if name ∈ v.step.stmt.loaded v.step.after.symbols then v.arrival.at? (.cell name)
        else some (v.arrival.reg ((p.tablesAt write.step).register name))) :
    Kept p name write (h.past name v.step) v.departure := by
  unfold Holding.past
  split
  next loaded =>
    refine ⟨kept.fresh, cells.trans kept.cell, fun bound => ?_⟩
    rw [register bound, if_pos loaded]
    exact yields
  next unloaded =>
    refine ⟨kept.fresh, cells.trans kept.cell, fun bound => ?_⟩
    rw [register bound, if_neg unloaded]
    exact kept.register bound

/-- What was written last is followed along a journey. -/
theorem kept (laid : p.LaidOut steps) (respects : w.Respects p.config) (apart : p.registers.Apart)
    (journey : Journey p w steps (before ++ write :: between) here) (writes : write.Writes name)
    (last : ∀ v ∈ between, ¬ v.Writes name) :
    Kept p name write (Holding.after name write between) here.content := by
  obtain ⟨member, _, wrote⟩ := journey.ran_code laid write (by simp)
  induction between using List.reverseRecOn generalizing here with
  | nil =>
    rw [journey.last_visit.1]
    exact ⟨rfl, rfl, laid.yields_register respects member wrote writes⟩
  | append_singleton between v ih =>
    rw [← List.cons_append, ← List.append_assoc] at journey
    obtain ⟨content, rest, placed, soFar, ran⟩ := journey.last_visit
    have visited : v.step ∈ steps := placed.subset List.mem_cons_self
    have soFarKept : Kept p name write (Holding.after name write between) v.arrival :=
      ih soFar fun v' earlier => last v' (List.mem_append_left _ earlier)
    obtain ⟨cells, register⟩ := (laid.ready v.step visited).spares apart respects
      (laid.runs_code visited ran) (last v (by simp))
    rw [content, Holding.after, List.foldl_append]
    exact soFarKept.past cells (soFarKept.yields_cell laid respects member wrote writes) register

end Journey

/-! ## What a fetch finds -/

theorem Pass.home_cases (p : Pass) (s : TraceStep) (name : String) :
    s.after.symbols.isInMemory name = true ∧ (p.tablesAt s).home name = .cell name ∨
      s.after.symbols.isInMemory name = false ∧
        (p.tablesAt s).home name = .register ((p.tablesAt s).register name) := by
  cases backed : s.after.symbols.isInMemory name with
  | true => exact .inl ⟨rfl, if_pos backed⟩
  | false => exact .inr ⟨rfl, if_neg (by simp [Pass.tablesAt, backed])⟩

theorem Pass.home_mem_written_iff (p : Pass) {write : TraceStep} (fetch : TraceStep) {name : String}
    (target : write.stmt.target? = some name) :
    (p.tablesAt fetch).home name ∈ (p.tablesAt write).written write.stmt ↔
      (Holding.ofWrite name write).serves name fetch = true := by
  rcases p.home_cases fetch name with ⟨backed, home⟩ | ⟨unbacked, home⟩
  · rw [home, Tables.cell_mem_written_iff, Holding.serves, if_pos backed, Holding.ofWrite]
    exact and_iff_right target
  · rw [home, Tables.register_mem_written_iff, Holding.serves, if_neg (by simp [unbacked]),
      Holding.ofWrite]
    exact ⟨fun ⟨_, _, assigned, _⟩ => assigned, fun assigned => ⟨name, target, assigned, rfl⟩⟩

namespace Holding

variable {name : String} {write : Visit} {between : List Visit}

theorem reloaded_concat {v : Visit} :
    Reloaded name (between ++ [v]) ↔
      Reloaded name between ∨ name ∈ v.step.stmt.loaded v.step.after.symbols := by
  simp [Reloaded, or_and_right, exists_or]

/-- The cell has what it had behind the write, and so has the register until it is loaded from the cell. -/
theorem after_eq (name : String) (write : Visit) (between : List Visit) :
    after name write between =
      ⟨if Reloaded name between then write.step.after.symbols.isInMemory name else write.step.stmt.isAssignment,
        write.step.after.symbols.isInMemory name⟩ := by
  induction between using List.reverseRecOn with
  | nil => simp [after, ofWrite, Reloaded]
  | append_singleton between v ih =>
    have next : after name write (between ++ [v]) = (after name write between).past name v.step := by
      rw [after, List.foldl_append]
      rfl
    rw [next, ih, past]
    simp only [reloaded_concat]
    by_cases loaded : name ∈ v.step.stmt.loaded v.step.after.symbols
    · simp only [loaded, or_true, if_true]
    · simp only [loaded, or_false, if_false]

theorem serves_after_iff (name : String) (write : Visit) (between : List Visit) (fetch : TraceStep) :
    (after name write between).serves name fetch = true ↔
      if fetch.after.symbols.isInMemory name = true ∨ Reloaded name between then
        write.step.after.symbols.isInMemory name = true
      else write.step.stmt.isAssignment = true := by
  rw [after_eq, serves]
  by_cases backed : fetch.after.symbols.isInMemory name = true
  · simp only [backed, true_or, if_true]
  · by_cases reloaded : Reloaded name between
    · simp only [backed, reloaded, or_true, if_true]
      simp
    · simp only [backed, reloaded, or_false, if_false]
      simp

end Holding

namespace Pass.LaidOut

variable {p : Pass} {w : World} {steps : List TraceStep} {write : Visit} {between : List Visit}
  {fetch : TraceStep} {c : Content} {name : String} (laid : p.LaidOut steps)

include laid

theorem finds (respects : w.Respects p.config) (apart : p.registers.Apart)
    (last : LastWrite p w steps name write between fetch c) :
    write.Yields p name ((Holding.after name write between).serves name fetch)
      (c.at? ((p.tablesAt fetch).home name)) := by
  obtain ⟨earlier, rest, placed, journey⟩ := last.journey
  obtain ⟨member, _, wrote⟩ := journey.ran_code laid write (by simp)
  have kept := journey.kept laid respects apart last.writes last.last
  rcases p.home_cases fetch name with ⟨backed, home⟩ | ⟨unbacked, home⟩
  · rw [home, Holding.serves, if_pos backed]
    exact kept.yields_cell laid respects member wrote last.writes
  · rw [home, Holding.serves, if_neg (by simp [unbacked])]
    -- What is fetched from a register is bound to it, so that nothing else gets in there.
    refine kept.register ((laid.ready fetch (placed.subset List.mem_cons_self)).bound name ?_)
    exact Stmt.mem_names_of_fetched last.fetches (.inr unbacked)

theorem settled (last : LastWrite p w steps name write between fetch c)
    (same : ∀ s ∈ fetch :: between.map Visit.step,
      s.after.symbols.isInMemory name = write.step.after.symbols.isInMemory name) :
    (Holding.after name write between).serves name fetch = true := by
  obtain ⟨earlier, rest, placed, journey⟩ := last.journey
  obtain ⟨member, _⟩ := journey.ran_code laid write (by simp)
  have there := same fetch List.mem_cons_self
  rw [Holding.serves_after_iff]
  split
  next stored =>
    -- Only code at which the name has its cell loads the register from there.
    rcases stored with backed | ⟨v, inside, loaded⟩
    · exact there.symm.trans backed
    · have here := same v.step (List.mem_cons_of_mem _ (List.mem_map_of_mem inside))
      exact here.symm.trans (Stmt.mem_loaded.mp loaded).2.1
  next unstored =>
    by_contra passed
    have backed := laid.backed_of_target member last.writes.1 (Bool.eq_false_iff.mpr passed)
    exact unstored (.inl (there.trans backed))

end Pass.LaidOut

/-- In every run of the listing of a program on scalars in which no two names share a register, the text and
    the steps taken since the last write settle whether a fetch finds what was written.  Functions that the
    listing does not define are asked to leave the names alone. -/
theorem lowerProgram_tracksWrites {config : Config} {program : Program} {listing : String} {p : Pass}
    {w : World} (lowered : lowerProgram config program = (.ok listing, p))
    (scalar : ∀ l ∈ program, l.stmt.isScalar = true) (apart : p.registers.Apart)
    (respects : w.Respects config) : TracksWrites p w (traceProgram config program).1 := by
  obtain ⟨rfl, laid⟩ := laidOut lowered scalar
  exact {
    covers := Journey.covers laid
    works := fun journey v visited => by
      obtain ⟨member, _, ran⟩ := journey.ran_code laid v visited
      exact (laid.ready v.step member).works apart ran
    backs := laid.backs
    located := fun write fetch name target => p.home_mem_written_iff fetch target
    fresh := Holding.serves_after_iff
    finds := laid.finds respects apart
    settled := laid.settled }

/-- Functions outside of the listing do nothing, and 2, 1 and 0 are typed at the console. -/
def countdown : World :=
  ⟨fun _ => 0, fun _ => 0, fun _ => 0, fun _ c => c, fun n => if n = 0 then 2 else if n = 1 then 1 else 0⟩

/-- A loop in which a name is shown before the text gives it its cell, and tested behind that. -/
def readsAgain : Program :=
  Program.ofStmts
    [.assign "n" (some "3") none none,
      .label "again",
      .print "n",
      .read "n",
      .branch "n" "again" (some "0") (some ">")]

theorem lowerProgram_tracksWrites_readsAgain :
    (∀ l ∈ readsAgain, l.stmt.isScalar = true) ∧ countdown.Respects (Config.standard false) ∧
    ∃ listing p, lowerProgram (Config.standard false) readsAgain = (.ok listing, p) ∧
      p.registers.Apart ∧
      (p.image.run countdown 60).status = .exited ∧
      (p.image.run countdown 60).content.out = [.int 3, .int 2, .int 1] ∧
      TracksWrites p countdown (traceProgram (Config.standard false) readsAgain).1 := by
  have scalar : ∀ l ∈ readsAgain, l.stmt.isScalar = true := by decide +kernel
  have respects : countdown.Respects (Config.standard false) := fun _ _ => ⟨fun _ _ => rfl, rfl⟩
  have runs : (lowerProgram (Config.standard false) readsAgain).1.isOk = true ∧
      (lowerProgram (Config.standard false) readsAgain).2.registers.Sound ∧
      (lowerProgram (Config.standard false) readsAgain).2.registers.names.length ≤
        (lowerProgram (Config.standard false) readsAgain).2.registers.pool.length ∧
      (lowerProgram (Config.standard false) readsAgain).2.registers.pool.Nodup ∧
      ((lowerProgram (Config.standard false) readsAgain).2.image.run countdown 60).status = .exited ∧
      ((lowerProgram (Config.standard false) readsAgain).2.image.run countdown 60).content.out =
        [.int 3, .int 2, .int 1] := by
    decide +kernel
  refine ⟨scalar, respects, ?_⟩
  cases lowered : lowerProgram (Config.standard false) readsAgain with
  | mk result p =>
    rw [lowered] at runs
    obtain ⟨succeeds, sound, enough, distinct, exits, shows⟩ := runs
    cases result with
    | error => cases succeeds
    | ok listing =>
      have apart := sound.apart enough distinct
      exact ⟨listing, p, rfl, apart, exits, shows,
        lowerProgram_tracksWrites lowered scalar apart respects⟩

/-- A name that is declared behind its first use. -/
def declaredLate : Program :=
  Program.ofStmts
    [.assign "t" (some "5") none none,
      .declare "t" (some "int") false,
      .print "t"]

/-- The print fetches the name from its cell, which the assignment has not written: it shows 0, while
    5 is still at every place where it was written. -/
theorem declaredLate_shows_zero :
    let p := (lowerProgram (Config.standard false) declaredLate).2
    let steps := (traceProgram (Config.standard false) declaredLate).1
    let final := p.image.run countdown 20
    (lowerProgram (Config.standard false) declaredLate).1.isOk = true ∧
      p.registers.names.length ≤ p.registers.pool.length ∧
      (∃ write ∈ steps, ∃ fetch ∈ steps, write.stmt.target? = some "t" ∧
        "t" ∈ fetch.stmt.fetched fetch.after.symbols ∧
        (p.tablesAt fetch).home "t" ∉ (p.tablesAt write).written write.stmt ∧
        ∀ home ∈ (p.tablesAt write).written write.stmt, final.content.at? home = some 5) ∧
      final.status = .exited ∧ final.content.out = [.int 0] := by
  decide +kernel

/-- A loop in which a name is written and shown before the text gives it its cell, and copied behind that. -/
def copiedInLoop : Program :=
  Program.ofStmts
    [.assign "t" (some "5") none none,
      .label "again",
      .print "t",
      .declare "t" (some "int") false,
      .assign "x" (some "t") none none,
      .assign "n" (some "n") (some "+") (some "1"),
      .branch "n" "again" (some "3") (some "<")]

-- The copy loads the register from the cell, so that the print no longer finds the 5 there.
example : ((lowerProgram (Config.standard false) copiedInLoop).2.image.run countdown 60).content.out =
    [.int 5, .int 0, .int 0] := by
  decide +kernel

end MipsLowering
