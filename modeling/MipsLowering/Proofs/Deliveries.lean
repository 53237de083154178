import MipsLowering.Proofs.Homes
import MipsLowering.Proofs.Templates

/-! # What code works out from the homes of its operands

Where the code of a statement can be run, it works out a value from the values at the homes of its
operands and delivers it: to the homes that it writes, to the console, or to a jump
(`Tables.Works`). -/

namespace MipsLowering

-- The class of an operand is only used through the theorems about it.
seal Operand.ofString

/-- The value that comes from a source, where `a` and `b` are the values of its operands. -/
def Source.value (w : World) (c : Content) (a b : Word) : Source → Word
  | .binary op _ _ => op.eval w.byZero a b
  | .unary op _ => op.eval a
  | .copy _ | .test _ | .shown _ => a
  | .typed => c.input 0
  | .returned function => (w.outside function c).reg resultRegister

namespace Tables

/-- What is left of a value that is written to a home; a cell for a character keeps one byte. -/
def kept (t : Tables) (v : Word) : Home → Word
  | .register _ => v
  | .cell name => (t.width name).narrow v

/-- What a statement does with the value that it works out, from `c` to `d`. -/
def Delivers (t : Tables) (s : Stmt) (c d : Content) (flow : Flow) (v : Word) : Prop :=
  match s with
  | .branch _ target _ _ =>
    -- A relation is worked out in this register, so it has to be one that can be written.
    t.config.scratch0 ≠ zeroRegister → flow = if v = 0 then .next else .jump target
  | .print operand => flow = .next ∧ d.out = c.out ++ [t.symbols.shows operand v]
  | .call .. =>
    -- A function of the listing is jumped to and does not come back.
    flow = .next → ∀ home ∈ t.written s, d.at? home = some (t.kept v home)
  | _ => flow = .next ∧ ∀ home ∈ t.written s, d.at? home = some (t.kept v home)

/-- A run of the code of a statement from `c` to `d` works on the values at the homes of its operands. -/
def Works (t : Tables) (w : World) (s : Stmt) (c d : Content) (flow : Flow) : Prop :=
  ∀ source, s.source? = some source → ∃ a b,
    (∀ name ∈ source.first t.symbols, c.at? (t.home name) = some a) ∧
      (∀ name ∈ source.second, c.at? (t.home name) = some b) ∧
      t.Delivers s c d flow (source.value w c a b)

end Tables

/-! ## Operands -/

/-- From `c` to `d` the value of an operand with these names was brought into a register. -/
structure Tables.Brings (t : Tables) (names : List String) (r : Register) (c d : Content) : Prop where
  value : ∀ name ∈ names, c.at? (t.home name) = some (d.reg r)
  others : ∀ other, other ≠ r → d.reg other = c.reg other
  cells : d.cells = c.cells
  out : d.out = c.out

namespace Tables

variable {t : Tables} {s : Stmt} {m : Image} {w : World} {tail rest : List Node} {c d e : Content}
  {flow : Flow}

/-- A fetch only touches the home of another name if that is the name that it fetches. -/
theorem Brings.home {names : List String} {r : Register} (brings : t.Brings names r c d)
    {name : String} (known : t.register name = r → name ∈ names) :
    d.at? (t.home name) = c.at? (t.home name) := by
  unfold Tables.home
  by_cases backed : t.symbols.isInMemory name = true
  · simp only [backed, if_true, Content.at?, brings.cells]
  · rw [if_neg backed]
    by_cases same : t.register name = r
    · have value := brings.value name (known same)
      rw [Tables.home, if_neg backed] at value
      rw [value, Content.at?, same]
    · rw [Content.at?, Content.at?, brings.others _ same]

theorem fetch_fst {operand name : String} (named : name ∈ Stmt.namesIn operand)
    (wanted : Option Register) : (t.fetch operand wanted).1 = t.register name := by
  unfold Stmt.namesIn at named
  unfold fetch
  cases sort : Operand.ofString (Text.stripped operand) with
  | name other =>
    rw [sort] at named
    obtain rfl := List.mem_singleton.mp named
    rfl
  | _ =>
    rw [sort] at named
    cases named

namespace Ready

variable (ready : t.Ready s)

include ready

theorem brings {operand : String} {wanted : Option Register}
    (bound : ∀ name ∈ Stmt.namesIn operand, t.Bound name)
    (ran : m.runBlock w tail ((t.fetch operand wanted).2.map Op.node ++ rest) c = some (e, flow)) :
    ∃ d, t.Brings (Stmt.namesIn operand) (t.fetch operand wanted).1 c d ∧
      m.runBlock w tail rest d = some (e, flow) := by
  -- Literals are loaded by one operation, which changes a register and nothing else.
  have literal : ∀ {op : Op} {r : Register}, op.isStraight = true →
      (∀ rest d flow, m.exec w rest c op = some (d, flow) → ∃ v, d = c.setReg r v) →
      m.runBlock w tail (op.node :: rest) c = some (e, flow) →
      ∃ d, t.Brings [] r c d ∧ m.runBlock w tail rest d = some (e, flow) := by
    intro op r straight sets ran
    obtain ⟨d, done, ranRest⟩ := Image.runBlock_straight m w straight ran
    obtain ⟨v, rfl⟩ := sets _ _ _ done
    exact ⟨_, ⟨by simp, fun other differs => Content.reg_setReg_of_ne c v differs, rfl, rfl⟩, ranRest⟩
  unfold Stmt.namesIn fetch at *
  cases sort : Operand.ofString (Text.stripped operand) with
  | immediate value =>
    simp only [sort, fetchAs] at ran
    refine literal rfl (fun rest d flow done => ?_) ran
    obtain ⟨n, _, same⟩ := Option.map_eq_some_iff.mp done
    cases same
    exact ⟨_, rfl⟩
  | float value =>
    simp only [sort, fetchAs] at ran
    refine literal rfl (fun rest d flow done => ?_) ran
    obtain ⟨_, _, _, _, rfl, _⟩ := Image.exec_load m w done
    exact ⟨_, rfl⟩
  | text value =>
    simp only [sort, fetchAs] at ran
    refine literal rfl (fun rest d flow done => ?_) ran
    cases done
    exact ⟨_, rfl⟩
  | name name =>
    simp only [sort, Operand.names, List.mem_singleton, forall_eq] at bound
    have home : t.home name = if t.symbols.isInMemory name then .cell name
        else .register (t.register name) := rfl
    simp only [sort, fetchAs, ready.load_eq] at ran
    -- A name is loaded if it has a cell, and is in its register already if not.
    split at ran
    next backed =>
      rw [if_pos backed] at home
      obtain ⟨d, done, ranRest⟩ := Image.runBlock_straight m w rfl ran
      obtain ⟨_, cell, isLabel, present, rfl, _⟩ := Image.exec_load m w done
      cases isLabel
      refine ⟨_, ⟨?_, fun other differs => Content.reg_setReg_of_ne c _ differs, rfl, rfl⟩, ranRest⟩
      simp [Operand.names, home, Content.at?, present, fetchAs, bound.notZero]
    next register =>
      rw [if_neg register] at home
      refine ⟨c, ⟨?_, fun _ _ => rfl, rfl, rfl⟩, ran⟩
      simp [Operand.names, home, Content.at?, fetchAs]

/-- A register of the pool is only fetched into for a name that is bound to it. -/
theorem mem_namesIn_of_fetch (apart : t.registers.Apart) {operand name : String}
    {wanted : Option Register} (spare : t.registers.literalRegister wanted ∉ t.config.pool)
    (mentioned : name ∈ s.names t.symbols) (among : Stmt.namesIn operand ⊆ s.names t.symbols)
    (same : t.register name = (t.fetch operand wanted).1) : name ∈ Stmt.namesIn operand := by
  have bound := ready.bound name mentioned
  unfold fetch at same
  cases sort : Operand.ofString (Text.stripped operand) with
  | name other =>
    have named : other ∈ Stmt.namesIn operand := by simp [Stmt.namesIn, sort, Operand.names]
    simp only [sort, fetchAs] at same
    rwa [bound.inj apart (ready.bound other (among named)) same]
  | _ =>
    simp only [sort, fetchAs] at same
    exact absurd (same ▸ bound.pooled) spare

/-- Two operands are brought into registers one after the other, and then both are there. -/
theorem brings_pair (apart : t.registers.Apart) {left right : String}
    (first : Stmt.namesIn left ⊆ s.names t.symbols) (second : Stmt.namesIn right ⊆ s.names t.symbols)
    (ran : m.runBlock w tail ((t.fetch left (some t.config.scratch0)).2.map Op.node ++
      ((t.fetch right (some t.config.scratch1)).2.map Op.node ++ rest)) c = some (e, flow)) :
    ∃ d, (∀ name ∈ Stmt.namesIn left,
        c.at? (t.home name) = some (d.reg (t.fetch left (some t.config.scratch0)).1)) ∧
      (∀ name ∈ Stmt.namesIn right,
        c.at? (t.home name) = some (d.reg (t.fetch right (some t.config.scratch1)).1)) ∧
      d.cells = c.cells ∧ m.runBlock w tail rest d = some (e, flow) := by
  obtain ⟨d₁, brings₁, ran₁⟩ := ready.brings (fun name named => ready.bound name (first named)) ran
  obtain ⟨d₂, brings₂, ran₂⟩ := ready.brings (fun name named => ready.bound name (second named)) ran₁
  have untouched : ∀ {name}, name ∈ s.names t.symbols → d₁.at? (t.home name) = c.at? (t.home name) :=
    fun mentioned => brings₁.home fun same =>
      ready.mem_namesIn_of_fetch apart ready.literalRegister_scratch0 mentioned first same
  refine ⟨d₂, fun name named => ?_, fun name named => ?_, brings₂.cells.trans brings₁.cells, ran₂⟩
  · have value := brings₁.value name named
    rw [fetch_fst named] at value ⊢
    by_cases same : t.register name = (t.fetch right (some t.config.scratch1)).1
    · -- Both operands are fetched into one register, so they are the same name.
      have again := ready.mem_namesIn_of_fetch apart ready.literalRegister_scratch1 (first named)
        second same
      rw [← untouched (first named), brings₂.value name again, same]
    · rw [value, brings₂.others _ same]
  · rw [← untouched (second named), brings₂.value name named]

/-! ## Statements -/

/-- The end of a statement that writes: the value is in a register, and goes to the cell of the target if
    there is one. -/
theorem delivers_store {name : String} (target : s.target? = some name) {r : Register} {v : Word}
    (value : c.reg r = v) (own : s.isAssignment = true → r = t.register name)
    (ran : m.runBlock w tail (t.store name r) c = some (d, flow)) :
    flow = .next ∧ ∀ home ∈ t.written s, d.at? home = some (t.kept v home) := by
  -- The store itself changes no register, so that of the target still has the value.
  have register : d.reg = c.reg → ∀ home ∈ if s.isAssignment then [Home.register (t.register name)] else [],
      d.at? home = some (t.kept v home) := by
    intro same home member
    split at member
    next assigns =>
      obtain rfl := List.mem_singleton.mp member
      rw [Content.at?, same, kept, ← own assigns, value]
    next => cases member
  rw [ready.store_eq] at ran
  simp only [written, target, List.forall_mem_append]
  split at ran
  next backed =>
    obtain ⟨d', done, ended⟩ := Image.runBlock_straight m w rfl ran
    obtain ⟨_, isLabel, rfl, _⟩ := Image.exec_store m w done
    cases isLabel
    cases ended
    refine ⟨rfl, register rfl, ?_⟩
    rw [if_pos backed]
    intro home member
    obtain rfl := List.mem_singleton.mp member
    simp [Content.at?, kept, value]
  next unbacked =>
    cases ran
    refine ⟨rfl, register rfl, ?_⟩
    rw [if_neg unbacked]
    simp

end Ready

/-- The code of an assignment, where the value that it brings into the register of the target is the
    one that its source has. -/
theorem Works.assign {target : String} {operand1 operator operand2 : Option String} {source : Source}
    (ready : t.Ready (.assign target operand1 operator operand2))
    (found : (Stmt.assign target operand1 operator operand2).source? = some source) {a b : Word}
    (first : ∀ name ∈ source.first t.symbols, c.at? (t.home name) = some a)
    (second : ∀ name ∈ source.second, c.at? (t.home name) = some b)
    (value : e.reg (t.register target) = source.value w c a b)
    (ran : m.runBlock w tail (t.store target (t.register target)) e = some (d, flow)) :
    t.Works w (.assign target operand1 operator operand2) c d flow := by
  rintro _ works
  cases found.symm.trans works
  exact ⟨a, b, first, second,
    ready.delivers_store (Stmt.target?_of_source found) value (fun _ => rfl) ran⟩

theorem Ready.works_binary {target left right : String} {operand1 operator operand2 : Option String}
    {op : BinaryOp} (ready : t.Ready (.assign target operand1 operator operand2))
    (apart : t.registers.Apart)
    (source : (Stmt.assign target operand1 operator operand2).source? = some (.binary op left right))
    (ran : m.runBlock w tail (t.binaryCode target left right op) c = some (d, flow)) :
    t.Works w (.assign target operand1 operator operand2) c d flow := by
  have names := Stmt.names_assign t.symbols source
  rw [Stmt.fetched_of_source t.symbols source] at names
  have notZero := (ready.bound target (by simp [names])).notZero
  simp only [binaryCode, List.append_assoc] at ran
  obtain ⟨e, first, second, _, ran⟩ := ready.brings_pair apart (by simp [names, Source.first])
    (by simp [names, Source.second]) ran
  obtain ⟨lo, computed⟩ := op.run_code m w (t.store target (t.register target) ++ tail)
    (t.fetch left (some t.config.scratch0)).1 (t.fetch right (some t.config.scratch1)).1 notZero e
  rw [Image.runBlock_append_of_next m w computed] at ran
  exact .assign ready source first second (by simp [notZero, Source.value]) ran

theorem Ready.works_unary {target operand : String} {operand1 operator operand2 : Option String}
    {op : UnaryOp} (ready : t.Ready (.assign target operand1 operator operand2))
    (source : (Stmt.assign target operand1 operator operand2).source? = some (.unary op operand))
    (ran : m.runBlock w tail (t.unaryCode target operand op) c = some (d, flow)) :
    t.Works w (.assign target operand1 operator operand2) c d flow := by
  have names := Stmt.names_assign t.symbols source
  rw [Stmt.fetched_of_source t.symbols source] at names
  have notZero := (ready.bound target (by simp [names])).notZero
  simp only [unaryCode, List.append_assoc] at ran
  obtain ⟨e, brings, ran⟩ := ready.brings
    (fun name named => ready.bound name (by simp [names, Source.first, named])) ran
  have computed := op.run_code m w (t.store target (t.register target) ++ tail) (t.register target)
    (t.fetch operand none).1 e
  rw [Image.runBlock_append_of_next m w computed] at ran
  exact .assign ready source (b := 0) brings.value (by simp [Source.second])
    (by simp [notZero, Source.value]) ran

/-- A copy brings the value of its operand into the register. -/
theorem Ready.brings_copy (ready : t.Ready s) {dest : Register} (notZero : dest ≠ zeroRegister)
    {operand : String} (bound : ∀ name ∈ Stmt.copiedNames operand, t.Bound name)
    (ran : m.runBlock w tail ((t.copyInto dest (Operand.ofString operand)).map Op.node ++ rest) c =
      some (e, flow)) :
    ∃ d, (∀ name ∈ Stmt.copiedNames operand, c.at? (t.home name) = some (d.reg dest)) ∧
      m.runBlock w tail rest d = some (e, flow) := by
  unfold Stmt.copiedNames at bound ⊢
  cases sort : Operand.ofString operand with
  | name name =>
    simp only [sort, Operand.names, List.flatMap_cons, List.flatMap_nil, List.append_nil] at bound ⊢
    simp only [sort, copyInto, List.map_append, List.append_assoc] at ran
    obtain ⟨d, brings, ran⟩ := ready.brings bound ran
    unfold moveCode at ran
    split at ran
    next =>
      obtain ⟨_, moved, ran⟩ := Image.runBlock_straight m w rfl ran
      cases moved
      exact ⟨_, fun name named => by rw [brings.value name named, Content.reg_setReg_self _ _ notZero],
        ran⟩
    next same =>
      have here : (t.fetch name none).1 = dest := by simpa using same
      exact ⟨d, fun name named => by rw [brings.value name named, here], ran⟩
  | _ =>
    simp only [sort, copyInto] at ran
    obtain ⟨d, _, ran⟩ := Image.runBlock_straight m w rfl ran
    exact ⟨d, by simp [Operand.names], ran⟩

theorem Ready.works_copy {target operand : String} {operand1 operator operand2 : Option String}
    (ready : t.Ready (.assign target operand1 operator operand2))
    (source : (Stmt.assign target operand1 operator operand2).source? = some (.copy operand))
    (ran : m.runBlock w tail (t.copyCode target operand) c = some (d, flow)) :
    t.Works w (.assign target operand1 operator operand2) c d flow := by
  have names := Stmt.names_assign t.symbols source
  rw [Stmt.fetched_of_source t.symbols source] at names
  have notZero := (ready.bound target (by simp [names])).notZero
  rw [copyCode] at ran
  obtain ⟨e, first, ran⟩ := ready.brings_copy notZero
    (fun name named => ready.bound name (by simp [names, Source.first, named])) ran
  exact .assign ready source (b := 0) first (by simp [Source.second]) rfl ran

theorem Ready.works_relation {condition target left right : String} {operand2 operator : Option String}
    {op : BinaryOp} (ready : t.Ready (.branch condition target operand2 operator))
    (apart : t.registers.Apart)
    (source : (Stmt.branch condition target operand2 operator).source? = some (.binary op left right))
    (ran : m.runBlock w tail (t.relationCode left right target op) c = some (d, flow)) :
    t.Works w (.branch condition target operand2 operator) c d flow := by
  have names := Stmt.names_branch t.symbols condition target operand2 operator
  rw [Stmt.fetched_of_source t.symbols source] at names
  simp only [relationCode, List.append_assoc] at ran
  obtain ⟨e, first, second, _, ran⟩ := ready.brings_pair apart (by simp [names, Source.first])
    (by simp [names, Source.second]) ran
  rintro _ works
  cases source.symm.trans works
  refine ⟨_, _, first, second, fun notZero => ?_⟩
  obtain ⟨lo, computed⟩ := op.run_code m w ([(Op.bnez t.config.scratch0 target).node] ++ tail)
    (t.fetch left (some t.config.scratch0)).1 (t.fetch right (some t.config.scratch1)).1 notZero e
  rw [Image.runBlock_append_of_next m w computed, run_bnez, Content.reg_setLo,
    Content.reg_setReg_self _ _ notZero] at ran
  cases ran
  rfl

theorem Ready.works_test {condition target operand : String} {operand2 operator : Option String}
    (ready : t.Ready (.branch condition target operand2 operator))
    (source : (Stmt.branch condition target operand2 operator).source? = some (.test operand))
    (ran : m.runBlock w tail ((t.fetch operand (some t.config.scratch0)).2.map Op.node ++
      [(Op.bnez (t.fetch operand (some t.config.scratch0)).1 target).node]) c = some (d, flow)) :
    t.Works w (.branch condition target operand2 operator) c d flow := by
  have names := Stmt.names_branch t.symbols condition target operand2 operator
  rw [Stmt.fetched_of_source t.symbols source] at names
  obtain ⟨e, brings, ran⟩ := ready.brings
    (fun name named => ready.bound name (by simp [names, Source.first, named])) ran
  rw [run_bnez] at ran
  cases ran
  rintro _ works
  cases source.symm.trans works
  exact ⟨_, 0, brings.value, by simp [Source.second], fun _ => rfl⟩

/-! ### Console and calls -/

theorem Supplies.brings {ops : List Op} {fetched named : List String}
    (supplies : t.Supplies ops fetched named) (ready : t.Ready s)
    (bound : ∀ name ∈ named, t.Bound name)
    (ran : m.runBlock w tail (ops.map Op.node ++ rest) c = some (e, flow)) :
    ∃ d, (∀ name ∈ fetched, c.at? (t.home name) = some (d.reg argumentRegister)) ∧ d.out = c.out ∧
      m.runBlock w tail rest d = some (e, flow) := by
  have notZero : argumentRegister ≠ zeroRegister := by decide
  cases supplies with
  | literal loads =>
    rcases loads with ⟨value, rfl⟩ | ⟨label, rfl⟩
    · obtain ⟨d, done, ran⟩ := Image.runBlock_straight m w rfl ran
      exact ⟨d, by simp, Image.exec_out m w rfl done, ran⟩
    · obtain ⟨d, done, ran⟩ := Image.runBlock_straight m w rfl ran
      exact ⟨d, by simp, Image.exec_out m w rfl done, ran⟩
  | cell backed =>
    obtain ⟨d, done, ran⟩ := Image.runBlock_straight m w rfl ran
    obtain ⟨_, cell, isLabel, present, rfl, _⟩ := Image.exec_load m w done
    cases isLabel
    refine ⟨c.setReg argumentRegister cell.value, ?_, rfl, ran⟩
    simp [home, backed, Content.at?, present, notZero]
  | fetch spare moved =>
    rw [List.map_append, List.append_assoc] at ran
    obtain ⟨d, brings, ran⟩ := ready.brings bound ran
    rcases moved with rfl | ⟨rfl, here⟩
    · obtain ⟨_, done, ran⟩ := Image.runBlock_straight m w rfl ran
      cases done
      exact ⟨d.setReg argumentRegister _,
        fun name named => by rw [brings.value name named, Content.reg_setReg_self _ _ notZero],
        brings.out, ran⟩
    · exact ⟨d, fun name named => by rw [brings.value name named, here], brings.out, ran⟩

/-- A service that was asked for is the one that is run. -/
theorem toNat_service (service : Lower.Service) (c : Content) :
    ((c.setReg resultRegister (BitVec.ofInt 32 service.number)).reg resultRegister).toNat =
      service.number := by
  rw [Content.reg_setReg_self _ _ (by decide)]
  cases service <;> decide

/-- Services that print show what the argument register holds. -/
theorem run_output {service : Lower.Service} {output : Output}
    (shown : service.output? (c.reg argumentRegister) = some output)
    (ran : m.runBlock w tail [(serviceCode service).node, Op.syscall.node] c = some (d, flow)) :
    flow = .next ∧ d.out = c.out ++ [output] := by
  have argument : (c.setReg resultRegister (BitVec.ofInt 32 service.number)).reg argumentRegister =
      c.reg argumentRegister := Content.reg_setReg_of_ne _ _ (by decide)
  rw [run_service, Image.service, toNat_service, argument] at ran
  cases service with
  | printInt | printString | printChar =>
    cases shown
    cases ran
    exact ⟨rfl, rfl⟩
  | _ => cases shown

theorem Ready.works_print {value : String} (ready : t.Ready (.print value))
    (ran : m.runBlock w tail (t.printCode value) c = some (d, flow)) :
    t.Works w (.print value) c d flow := by
  rw [printCode] at ran
  have prepares := ready.prepares value
  generalize (t.prepareCode value).1 = ops at prepares ran
  generalize (t.prepareCode value).2 = service at prepares ran
  rintro _ works
  cases works
  -- A float is shown from the coprocessor, everything else from the argument register.
  cases prepares with
  | argument supplies shown =>
    obtain ⟨e, first, out, ran⟩ := supplies.brings ready ready.bound ran
    obtain ⟨next, output⟩ := run_output (shown _) ran
    exact ⟨_, 0, first, by simp [Source.second], next, by rw [output, out]; rfl⟩
  | float fetched named shown =>
    rw [List.map_append, List.append_assoc] at ran
    have bound : ∀ name ∈ Stmt.printedNames t.symbols value, t.Bound name := ready.bound
    rw [named] at bound
    obtain ⟨e, brings, ran⟩ := ready.brings bound ran
    simp only [List.map_cons, List.map_nil, List.cons_append, List.nil_append] at ran
    obtain ⟨_, done, ran⟩ := Image.runBlock_straight m w rfl ran
    cases done
    rw [run_service, Image.service, toNat_service] at ran
    cases ran
    have first : ∀ name ∈ (Source.shown value).first t.symbols,
        c.at? (t.home name) = some (e.reg (t.fetch value (some t.config.scratch0)).1) := by
      rw [Source.first, fetched]
      exact brings.value
    refine ⟨_, 0, first, by simp [Source.second], rfl, ?_⟩
    rw [shown, ← brings.out]
    rfl

theorem run_input (m : Image) (w : World) (tail : List Node) (c : Content) :
    ∃ d, m.runBlock w tail [(serviceCode .readInt).node, Op.syscall.node] c = some (d, .next) ∧
      d.reg resultRegister = c.input 0 := by
  refine ⟨{ (c.setReg resultRegister 5).setReg resultRegister (c.input 0) with
    input := fun n => c.input (n + 1) }, ?_,
    Content.reg_setReg_self (c.setReg resultRegister 5) (c.input 0) (by decide)⟩
  rw [run_service, Image.service, toNat_service]
  rfl

theorem Ready.works_read {target : String} (ready : t.Ready (.read target))
    (ran : m.runBlock w tail (t.readCode target) c = some (d, flow)) :
    t.Works w (.read target) c d flow := by
  obtain ⟨e, typed, value⟩ := run_input m w (t.store target resultRegister ++ tail) c
  rw [readCode, Image.runBlock_append_of_next m w typed] at ran
  rintro _ works
  cases works
  exact ⟨0, 0, by simp [Source.first], by simp [Source.second],
    ready.delivers_store rfl value (by simp [Stmt.isAssignment]) ran⟩

/-- A call that comes back has called a function outside of the listing; one that does not has only
    left its return address. -/
theorem run_call {block : List Node} {function : String}
    (ran : m.runBlock w tail ((Op.jal function).node :: block) c = some (d, flow)) :
    m.runBlock w tail block (w.outside function c) = some (d, flow) ∨
      flow ≠ .next ∧ ∃ v, d = c.setReg linkRegister v := by
  rw [Image.runBlock_node, Image.exec] at ran
  cases there : m.from? function with
  | none =>
    rw [there] at ran
    exact .inl ran
  | some nodes =>
    rw [there] at ran
    cases ran
    exact .inr ⟨by simp, _, rfl⟩

theorem run_release {count : Option Int}
    (ran : m.runBlock w tail (t.releaseCode count ++ rest) c = some (e, flow)) :
    ∃ d, d.reg resultRegister = c.reg resultRegister ∧ m.runBlock w tail rest d = some (e, flow) := by
  rcases t.releaseCode_cases count with none | ⟨n, one⟩
  · rw [none] at ran
    exact ⟨c, rfl, ran⟩
  · rw [one] at ran
    obtain ⟨_, done, ran⟩ := Image.runBlock_straight m w rfl ran
    cases done
    exact ⟨c.setReg stackPointer _, Content.reg_setReg_of_ne _ _ (by decide), ran⟩

theorem runBlock_callCode (t : Tables) (function : String) (count : Option Int)
    (target rawCount : Option String) :
    m.runBlock w tail (t.callCode function count target rawCount) c =
      m.runBlock w tail ((Op.jal function).node :: (t.releaseCode count ++ t.resultCode target)) c := by
  unfold callCode countRemark
  split
  · simp only [List.cons_append, List.nil_append]
    rfl
  · simp only [List.cons_append, List.nil_append]

/-- A call of a function outside of the listing delivers its result, and any other call is only
    left. -/
theorem Ready.call_cases {function : String} {count : Option Int} {target rawCount : Option String}
    (ready : t.Ready (.call function count target rawCount))
    (ran : m.runBlock w tail (t.callCode function count target rawCount) c = some (d, flow)) :
    (flow = .next ∧ ∀ home ∈ t.written (.call function count target rawCount),
        d.at? home = some (t.kept ((w.outside function c).reg resultRegister) home)) ∨
      flow ≠ .next ∧ ∃ v, d = c.setReg linkRegister v := by
  rw [runBlock_callCode] at ran
  rcases run_call ran with ran | jumps
  · left
    obtain ⟨e, value, ran⟩ := run_release ran
    unfold resultCode at ran
    cases given : Stmt.given target with
    | none =>
      rw [given] at ran
      cases ran
      simp [written, Stmt.target?, given]
    | some name =>
      rw [given] at ran
      exact ready.delivers_store given value (by simp [Stmt.isAssignment]) ran
  · exact .inr jumps

theorem Ready.works_call {function : String} {count : Option Int} {target rawCount : Option String}
    (ready : t.Ready (.call function count target rawCount))
    (ran : m.runBlock w tail (t.callCode function count target rawCount) c = some (d, flow)) :
    t.Works w (.call function count target rawCount) c d flow := by
  rintro _ works
  cases works
  refine ⟨0, 0, by simp [Source.first], by simp [Source.second], fun next => ?_⟩
  rcases ready.call_cases ran with ⟨_, delivered⟩ | ⟨jumps, _⟩
  · exact delivered
  · exact absurd next jumps

/-- The code of every statement works on the values at the homes of its operands. -/
theorem Ready.works (ready : t.Ready s) (apart : t.registers.Apart)
    (ran : m.runBlock w tail (t.code s) c = some (d, flow)) : t.Works w s c d flow := by
  have coded := t.coded s
  generalize t.code s = nodes at coded ran
  cases coded with
  | idle source still =>
    rintro _ works
    cases source.symm.trans works
  | goto target =>
    rintro _ works
    cases works
  | binary source => exact ready.works_binary apart source ran
  | unary source => exact ready.works_unary source ran
  | copy source => exact ready.works_copy source ran
  | relation source => exact ready.works_relation apart source ran
  | test source => exact ready.works_test source ran
  | print value => exact ready.works_print ran
  | read target => exact ready.works_read ran
  | call function count target rawCount => exact ready.works_call ran

end Tables

end MipsLowering
