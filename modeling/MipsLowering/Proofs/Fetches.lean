import MipsLowering.Proofs.ByteMachine
import MipsLowering.Proofs.Demands
import MipsLowering.Proofs.Frame

/-! # Where operands are fetched

`Tables.fetches` cuts the code of a statement at each of its operands, into the operations that bring the operand to a
register and the lines around them (`Tables.lines_of_mem_fetches`).  There are several ways to fetch, but whichever it
is, a scalar that has a cell is loaded from there with the width of its type (`Tables.loadsCell_of_mem_fetches`), and
no use of it goes without a fetch (`Stmt.Uses.exists_fetch`).  On the other side, a line that stores to a label belongs
to a statement that writes the name, and stores to the cell of a scalar with the width of its type
(`Tables.storesCell_of_mem_codeFrom`). -/

namespace MipsLowering

-- The class of an operand is only used through the theorems about it.
seal Operand.ofString

/-! ## Cuts -/

/-- A place in the code of a statement where an operand is brought to a register. -/
structure Fetch where
  front : List Node
  /-- The operand, in the class under which it is fetched. -/
  operand : Operand
  ops : List Op
  /-- Where the lines behind find the operand. -/
  register : Register
  back : List Node

def Fetch.lines (f : Fetch) : List Node :=
  f.front ++ f.ops.map Op.node ++ f.back

namespace Tables

variable (t : Tables)

/-- A fetch into a wanted register, or into that of a name. -/
def fetchOf (front : List Node) (operand : String) (wanted : Option Register) (back : Register → List Node) : Fetch :=
  let fetched := t.fetch operand wanted
  ⟨front, .ofFetched operand, fetched.2, fetched.1, back fetched.1⟩

/-- The fetches of two operands, one after the other. -/
def pairFetches (left right : String) (back : Register → Register → List Node) : List Fetch :=
  let first := t.fetch left (some t.config.scratch0)
  let second := t.fetch right (some t.config.scratch1)
  [t.fetchOf [] left (some t.config.scratch0) fun r => second.2.map Op.node ++ back r second.1,
    t.fetchOf (first.2.map Op.node) right (some t.config.scratch1) fun r => back first.1 r]

/-- The fetch of the index of an element. -/
def indexFetch (array index : String) (back : List Node) : Fetch :=
  t.fetchOf [(Op.la t.config.addressRegister array).node] index (some t.config.indexRegister) fun r =>
    [(Op.li t.config.scratch0 (toString (t.symbols.elementSize array))).node,
      (Op.alu .mul t.config.indexRegister r t.config.scratch0).node,
      (Op.alu .addu t.config.addressRegister t.config.addressRegister t.config.indexRegister).node] ++ back

/-- The fetch of what is printed. -/
def printFetch (value : String) : Fetch :=
  let shown (service : Lower.Service) : List Node := [(serviceCode service).node, Op.syscall.node]
  if isVariableName value && !t.symbols.contains value then
    ⟨[], .text value, [.la argumentRegister (t.literal .string value)], argumentRegister, shown .printString⟩
  else
    match t.symbols.operandType value with
    | .float => t.fetchOf [] value (some t.config.scratch0) fun r =>
        (Op.mtc1 r floatArgumentRegister).node :: shown .printFloat
    | type => ⟨[], .ofString value, t.argumentCode value (.ofString value), argumentRegister, shown (.forType type)⟩

/-- The fetches of arguments that are pushed one after the other. -/
def pushFetches (front back : List Node) : List String → List Fetch
  | [] => []
  | argument :: rest =>
    t.fetchOf front argument (some t.config.scratch0) (fun r =>
      [(Op.aluImm .addiu stackPointer stackPointer (-t.config.wordSize)).node,
        (Op.store .word r (.base stackPointer)).node] ++ (rest.flatMap t.pushCode).map Op.node ++ back) ::
      pushFetches (front ++ (t.pushCode argument).map Op.node) back rest

/-- The fetch of what is returned. -/
def returnFetch (operand : String) : Fetch :=
  match Operand.ofString operand with
  | .immediate constant =>
    ⟨[], .immediate constant, [.li resultRegister constant], resultRegister, [(Op.jr linkRegister).node]⟩
  | _ =>
    let fetched := t.fetch operand (some resultRegister)
    ⟨[], .ofFetched operand, fetched.2 ++ moveCode resultRegister fetched.1, resultRegister,
      [(Op.jr linkRegister).node]⟩

/-- The places where a statement that is lowered from a state fetches its operands. -/
def fetches (p : Pass) : Stmt → List Fetch
  | .branch condition target operand2 operator =>
    match Stmt.given operator, Stmt.given operand2 with
    | some symbol, some right =>
      match BinaryOp.ofSymbol? symbol with
      | some op =>
        t.pairFetches condition right fun first second =>
          (op.code t.config.scratch0 first second).map (·.op.node) ++ [(Op.bnez t.config.scratch0 target).node]
      | none => []
    | _, _ => [t.fetchOf [] condition (some t.config.scratch0) fun r => [(Op.bnez r target).node]]
  | .assign target operand1 operator operand2 =>
    match operator, operand2 with
    | some symbol, some right =>
      match BinaryOp.ofSymbol? symbol with
      | some op =>
        t.pairFetches (operand1.getD "") right fun first second =>
          (op.code (t.register target) first second).map (·.op.node) ++ t.store target (t.register target)
      | none => []
    | some symbol, none =>
      match UnaryOp.ofSymbol? symbol with
      | some op =>
        [t.fetchOf [] (operand1.getD "") none fun r =>
          (op.code (t.register target) r).map (·.op.node) ++ t.store target (t.register target)]
      | none => []
    | none, _ =>
      [⟨[], .ofString (operand1.getD ""), t.copyInto (t.register target) (.ofString (operand1.getD "")),
        t.register target, t.store target (t.register target)⟩]
  | .arrayLoad target array index =>
    [t.indexFetch array index ((Op.load (t.symbols.elementType array).width (t.register target)
      (.base t.config.addressRegister)).node :: t.store target (t.register target))]
  | .arrayStore array index value =>
    let fetched := t.fetch value (some t.config.scratch0)
    let store (r : Register) : List Node :=
      [(Op.store (t.symbols.elementType array).width r (.base t.config.addressRegister)).node]
    [t.indexFetch array index (fetched.2.map Op.node ++ store fetched.1),
      t.fetchOf ((t.elementCode array index).map Op.node) value (some t.config.scratch0) store]
  | .zeroFill array start stop =>
    let first := t.fetch start (some t.config.indexRegister)
    let last := t.fetch stop (some t.config.scratch1)
    let loop := t.fillLoop array (p.labels.generate "arr_pad" ["", "_end"]).1
    let base := (Op.la t.config.addressRegister array).node
    let placed (r : Register) : List Node := (moveCode t.config.indexRegister r ++ t.cursorCode array).map Op.node
    [t.fetchOf [base] start (some t.config.indexRegister) fun r => placed r ++ last.2.map Op.node ++ loop last.1,
      t.fetchOf (base :: first.2.map Op.node ++ placed first.1) stop (some t.config.scratch1) loop]
  | .print value => [t.printFetch value]
  | .call function count target rawCount =>
    ({ t with symbols := p.symbols } : Tables).pushFetches
      (queueRemark function count target rawCount p.params.length)
      ([(Op.jal function).node] ++ t.releaseCode (some (count.getD p.params.length)) ++ t.resultCode target)
      (pushed p.params count)
  | .ret value => (Stmt.given value).toList.map t.returnFetch
  | _ => []

theorem printFetch_cases (value : String) :
    (∃ back, t.printFetch value =
      ⟨[], .text value, [.la argumentRegister (t.literal .string value)], argumentRegister, back⟩) ∨
    (∃ back, t.printFetch value = t.fetchOf [] value (some t.config.scratch0) back) ∨
    ∃ back, t.printFetch value =
      ⟨[], .ofString value, t.argumentCode value (.ofString value), argumentRegister, back⟩ := by
  unfold printFetch
  split
  · exact .inl ⟨_, rfl⟩
  · split
    · exact .inr (.inl ⟨_, rfl⟩)
    · exact .inr (.inr ⟨_, rfl⟩)

variable {t} {f : Fetch}

theorem lines_of_mem_pushFetches {front back : List Node} {arguments : List String}
    (member : f ∈ t.pushFetches front back arguments) :
    f.lines = front ++ (arguments.flatMap t.pushCode).map Op.node ++ back := by
  induction arguments generalizing front with
  | nil => cases member
  | cons argument rest ih =>
    rcases List.mem_cons.mp member with rfl | later
    · simp [fetchOf, Fetch.lines, pushCode]
    · rw [ih later]
      simp

theorem lines_of_mem_pairFetches {left right : String} {back : Register → Register → List Node}
    (member : f ∈ t.pairFetches left right back) :
    f.lines = (t.fetch left (some t.config.scratch0)).2.map Op.node ++
      (t.fetch right (some t.config.scratch1)).2.map Op.node ++
      back (t.fetch left (some t.config.scratch0)).1 (t.fetch right (some t.config.scratch1)).1 := by
  simp only [pairFetches, List.mem_cons, List.not_mem_nil, or_false] at member
  rcases member with rfl | rfl
  · simp [fetchOf, Fetch.lines]
  · simp [fetchOf, Fetch.lines]

theorem lines_printFetch (value : String) : (t.printFetch value).lines = t.printCode value := by
  simp only [printFetch, printCode, prepareCode]
  split
  · rfl
  · cases t.symbols.operandType value <;> simp [fetchOf, Fetch.lines]

theorem lines_returnFetch {value : Option String} {operand : String} (given : Stmt.given value = some operand) :
    (t.returnFetch operand).lines = (t.returnCode value).map Op.node := by
  simp only [returnCode, given, returnFetch]
  cases Operand.ofString operand <;> simp [Fetch.lines]

/-- A fetch is a cut through the code of its statement. -/
theorem lines_of_mem_fetches {p : Pass} {s : Stmt} (member : f ∈ t.fetches p s) : f.lines = t.codeFrom p s := by
  cases s with
  | branch condition target operand2 operator =>
    simp only [fetches, codeFrom, code, branchCode] at member ⊢
    cases given : Stmt.given operator with
    | none =>
      rw [given] at member
      obtain rfl := List.mem_singleton.mp member
      rfl
    | some symbol =>
      cases given' : Stmt.given operand2 with
      | none =>
        rw [given, given'] at member
        obtain rfl := List.mem_singleton.mp member
        rfl
      | some right =>
        cases known : BinaryOp.ofSymbol? symbol with
        | none =>
          simp only [given, given', known] at member
          cases member
        | some op =>
          simp only [given, given', known] at member
          simp only [lines_of_mem_pairFetches member, known, relationCode, List.append_assoc]
  | assign target operand1 operator operand2 =>
    simp only [fetches, codeFrom, code, assignCode] at member ⊢
    split at member
    next symbol right =>
      cases known : BinaryOp.ofSymbol? symbol with
      | none =>
        simp only [known] at member
        cases member
      | some op =>
        simp only [known] at member ⊢
        simp only [lines_of_mem_pairFetches member, binaryCode, List.append_assoc]
    next symbol =>
      cases known : UnaryOp.ofSymbol? symbol with
      | none =>
        simp only [known] at member
        cases member
      | some op =>
        simp only [known] at member ⊢
        obtain rfl := List.mem_singleton.mp member
        simp [fetchOf, Fetch.lines, unaryCode]
    next =>
      obtain rfl := List.mem_singleton.mp member
      simp [Fetch.lines, copyCode]
  | arrayLoad target array index =>
    obtain rfl := List.mem_singleton.mp member
    simp [indexFetch, fetchOf, Fetch.lines, codeFrom, arrayLoadCode, elementCode]
  | arrayStore array index value =>
    simp only [fetches, List.mem_cons, List.not_mem_nil, or_false] at member
    rcases member with rfl | rfl
    · simp [indexFetch, fetchOf, Fetch.lines, codeFrom, arrayStoreCode, elementCode]
    · simp [fetchOf, Fetch.lines, codeFrom, arrayStoreCode]
  | zeroFill array start stop =>
    simp only [fetches, List.mem_cons, List.not_mem_nil, or_false] at member
    rcases member with rfl | rfl
    · simp [fetchOf, Fetch.lines, codeFrom, fillCode]
    · simp [fetchOf, Fetch.lines, codeFrom, fillCode]
  | print value =>
    obtain rfl := List.mem_singleton.mp member
    exact lines_printFetch value
  | call function count target rawCount =>
    rw [lines_of_mem_pushFetches member]
    simp [codeFrom, passCode]
  | ret value =>
    obtain ⟨operand, given, rfl⟩ := List.mem_map.mp member
    rw [Option.mem_toList] at given
    exact lines_returnFetch given
  | _ => cases member

end Tables

/-! ## Scalars that have a cell -/

/-- The cell of a name is loaded with a width, and what was loaded is moved to where it is needed. -/
def Fetch.LoadsCell (f : Fetch) (name : String) (width : Width) : Prop :=
  ∃ r, r ≠ zeroRegister ∧ f.register ≠ zeroRegister ∧
    f.ops = .load width r (.label name) :: Tables.moveCode f.register r

namespace Tables

variable {t : Tables} {name : String} {e : Symbol} (cell : t.symbols.cell? name = some e)
  (scalar : e.isArray = false)

include cell scalar

theorem fetch_of_scalar {operand : String} (sort : Operand.ofFetched operand = .name name) (wanted : Option Register) :
    t.fetch operand wanted = (t.register name, [.load e.type.width (t.register name) (.label name)]) := by
  simp [fetch_of_ofFetched sort, load, cell, scalar]

variable (draws : t.registers.DrawsOn t.config) {f : Fetch}

include draws

theorem loadsCell_fetchOf {front : List Node} {operand : String} {wanted : Option Register}
    {back : Register → List Node} (named : (t.fetchOf front operand wanted back).operand = .name name) :
    (t.fetchOf front operand wanted back).LoadsCell name e.type.width := by
  have fetched := fetch_of_scalar cell scalar named wanted
  have notZero := register_ne_zeroRegister draws name
  refine ⟨t.register name, notZero, ?_, ?_⟩
  · simpa [fetchOf, fetched] using notZero
  · simp [fetchOf, fetched, moveCode]

theorem loadsCell_pairFetches {left right : String} {back : Register → Register → List Node}
    (member : f ∈ t.pairFetches left right back) (named : f.operand = .name name) :
    f.LoadsCell name e.type.width := by
  simp only [pairFetches, List.mem_cons, List.not_mem_nil, or_false] at member
  rcases member with rfl | rfl
  · exact loadsCell_fetchOf cell scalar draws named
  · exact loadsCell_fetchOf cell scalar draws named

theorem loadsCell_pushFetches {front back : List Node} {arguments : List String}
    (member : f ∈ t.pushFetches front back arguments) (named : f.operand = .name name) :
    f.LoadsCell name e.type.width := by
  induction arguments generalizing front with
  | nil => cases member
  | cons argument rest ih =>
    rcases List.mem_cons.mp member with rfl | later
    · exact loadsCell_fetchOf cell scalar draws named
    · exact ih later

theorem loadsCell_printFetch {value : String} (named : (t.printFetch value).operand = .name name) :
    (t.printFetch value).LoadsCell name e.type.width := by
  rcases t.printFetch_cases value with ⟨back, cut⟩ | ⟨back, cut⟩ | ⟨back, cut⟩
  · rw [cut] at named
    cases named
  · rw [cut] at named ⊢
    exact loadsCell_fetchOf cell scalar draws named
  · rw [cut] at named ⊢
    have sort : Operand.ofString value = .name name := named
    obtain ⟨entry, inMemory⟩ := Option.filter_eq_some_iff.mp cell
    have notZero : argumentRegister ≠ zeroRegister := by decide
    refine ⟨argumentRegister, notZero, notZero, ?_⟩
    simp [sort, argumentCode, entry, Option.filter_some, inMemory, scalar, moveCode]

theorem loadsCell_returnFetch {operand : String} (named : (t.returnFetch operand).operand = .name name) :
    (t.returnFetch operand).LoadsCell name e.type.width := by
  unfold returnFetch at named ⊢
  generalize Operand.ofString operand = sort at named ⊢
  cases sort with
  | immediate constant => cases named
  | _ =>
    have notZero : resultRegister ≠ zeroRegister := by decide
    refine ⟨t.register name, register_ne_zeroRegister draws name, notZero, ?_⟩
    simp [fetch_of_scalar cell scalar named]

/-- Whatever a statement does with a scalar that has a cell, it loads the scalar from there with the width of its
    type. -/
theorem loadsCell_of_mem_fetches {p : Pass} (cell' : p.symbols.cell? name = some e) {s : Stmt}
    (member : f ∈ t.fetches p s) (named : f.operand = .name name) : f.LoadsCell name e.type.width := by
  cases s with
  | branch condition target operand2 operator =>
    simp only [fetches] at member
    split at member
    · split at member
      · exact loadsCell_pairFetches cell scalar draws member named
      · cases member
    · obtain rfl := List.mem_singleton.mp member
      exact loadsCell_fetchOf cell scalar draws named
  | assign target operand1 operator operand2 =>
    simp only [fetches] at member
    split at member
    · split at member
      · exact loadsCell_pairFetches cell scalar draws member named
      · cases member
    · split at member
      · obtain rfl := List.mem_singleton.mp member
        exact loadsCell_fetchOf cell scalar draws named
      · cases member
    · obtain rfl := List.mem_singleton.mp member
      have sort : Operand.ofString (operand1.getD "") = .name name := named
      obtain same := Operand.eq_of_ofString_name sort
      rw [← same] at sort
      refine ⟨t.register name, register_ne_zeroRegister draws name, register_ne_zeroRegister draws target, ?_⟩
      simp [← same, sort, copyInto, fetch_of_scalar cell scalar (Operand.ofFetched_of_name sort)]
  | arrayLoad target array index =>
    obtain rfl := List.mem_singleton.mp member
    exact loadsCell_fetchOf cell scalar draws named
  | arrayStore array index value | zeroFill array index value =>
    simp only [fetches, List.mem_cons, List.not_mem_nil, or_false] at member
    rcases member with rfl | rfl
    · exact loadsCell_fetchOf cell scalar draws named
    · exact loadsCell_fetchOf cell scalar draws named
  | print value =>
    obtain rfl := List.mem_singleton.mp member
    exact loadsCell_printFetch cell scalar draws named
  | call function count target rawCount =>
    exact loadsCell_pushFetches (t := { t with symbols := p.symbols }) cell' scalar draws member named
  | ret value =>
    obtain ⟨operand, -, rfl⟩ := List.mem_map.mp member
    exact loadsCell_returnFetch cell scalar draws named
  | _ => cases member

end Tables

/-- A statement works with the value of a name, if these arguments are queued. -/
inductive Stmt.Uses (queue : List String) (name : String) : Stmt → Prop where
  | copy (target : String) (right : Option String) : Uses queue name (.assign target (some name) none right)
  | unary (target : String) {symbol : String} (known : (UnaryOp.ofSymbol? symbol).isSome = true) :
      Uses queue name (.assign target (some name) (some symbol) none)
  | binary (target : String) {left : Option String} {symbol right : String}
      (known : (BinaryOp.ofSymbol? symbol).isSome = true) (either : left = some name ∨ right = name) :
      Uses queue name (.assign target left (some symbol) (some right))
  | condition (target : String) {right operator : Option String} (plain : given operator = none ∨ given right = none) :
      Uses queue name (.branch name target right operator)
  | relation (target : String) {left symbol : String} {right operator : Option String} {operand : String}
      (operated : given operator = some symbol) (compared : given right = some operand)
      (known : (BinaryOp.ofSymbol? symbol).isSome = true) (either : left = name ∨ operand = name) :
      Uses queue name (.branch left target right operator)
  | index (target array : String) : Uses queue name (.arrayLoad target array name)
  | element (array : String) {index value : String} (either : index = name ∨ value = name) :
      Uses queue name (.arrayStore array index value)
  | bound (array : String) {start stop : String} (either : start = name ∨ stop = name) :
      Uses queue name (.zeroFill array start stop)
  | print : Uses queue name (.print name)
  | argument (function : String) {count : Option Int} (target rawCount : Option String)
      (passed : name ∈ Tables.pushed queue count) : Uses queue name (.call function count target rawCount)
  | ret {value : Option String} (returned : given value = some name) : Uses queue name (.ret value)

theorem Tables.exists_pairFetch {t : Tables} {left right operand : String} {back : Register → Register → List Node}
    (either : left = operand ∨ right = operand) :
    ∃ f ∈ t.pairFetches left right back, f.operand = .ofFetched operand := by
  rcases either with rfl | rfl
  · exact ⟨_, List.mem_cons_self, rfl⟩
  · exact ⟨_, List.mem_cons_of_mem _ List.mem_cons_self, rfl⟩

theorem Tables.exists_pushFetch {t : Tables} {front back : List Node} {arguments : List String} {argument : String}
    (member : argument ∈ arguments) :
    ∃ f ∈ t.pushFetches front back arguments, f.operand = .ofFetched argument := by
  induction arguments generalizing front with
  | nil => cases member
  | cons first rest ih =>
    rcases List.mem_cons.mp member with rfl | later
    · exact ⟨_, List.mem_cons_self, rfl⟩
    · obtain ⟨f, inside, same⟩ := ih later
      exact ⟨f, List.mem_cons_of_mem _ inside, same⟩

/-- A name that is known is fetched wherever its value is used. -/
theorem Stmt.Uses.exists_fetch {p : Pass} {name : String} {s : Stmt} (uses : s.Uses p.params name)
    (sort : Operand.ofString name = .name name) {t : Tables} (known : t.symbols.contains name = true) :
    ∃ f ∈ t.fetches p s, f.operand = .name name := by
  have fetched : Operand.ofFetched name = .name name := Operand.ofFetched_of_name sort
  cases uses with
  | copy target right => exact ⟨_, List.mem_singleton.mpr rfl, sort⟩
  | unary target known =>
    obtain ⟨op, known⟩ := Option.isSome_iff_exists.mp known
    simp only [Tables.fetches, known]
    exact ⟨_, List.mem_singleton.mpr rfl, fetched⟩
  | binary target known either =>
    obtain ⟨op, known⟩ := Option.isSome_iff_exists.mp known
    simp only [Tables.fetches, known]
    rw [← fetched]
    exact Tables.exists_pairFetch (either.imp_left (by rintro rfl; rfl))
  | condition target plain =>
    refine ⟨t.fetchOf [] name (some t.config.scratch0) fun r => [(Op.bnez r target).node], ?_, fetched⟩
    simp only [Tables.fetches]
    split
    next operated compared => simp [operated, compared] at plain
    next => exact List.mem_singleton.mpr rfl
  | relation target operated compared known either =>
    obtain ⟨op, known⟩ := Option.isSome_iff_exists.mp known
    simp only [Tables.fetches, operated, compared, known]
    rw [← fetched]
    exact Tables.exists_pairFetch either
  | index target array => exact ⟨_, List.mem_singleton.mpr rfl, fetched⟩
  | element array either | bound array either =>
    rcases either with rfl | rfl
    · exact ⟨_, List.mem_cons_self, fetched⟩
    · exact ⟨_, List.mem_cons_of_mem _ List.mem_cons_self, fetched⟩
  | print =>
    refine ⟨_, List.mem_singleton.mpr rfl, ?_⟩
    simp only [Tables.printFetch, known, Bool.not_true, Bool.and_false, Bool.false_eq_true, if_false]
    split
    · exact fetched
    · exact sort
  | argument function target rawCount passed =>
    obtain ⟨f, member, same⟩ := Tables.exists_pushFetch passed
    exact ⟨f, member, same.trans fetched⟩
  | ret returned =>
    simp only [Tables.fetches, returned, Option.toList_some, List.map_cons, List.map_nil]
    refine ⟨_, List.mem_singleton.mpr rfl, ?_⟩
    simp only [Tables.returnFetch, sort]
    exact fetched

/-! ## Stores to cells -/

/-- The name to which a statement gives a value. -/
def Stmt.written? : Stmt → Option String
  | .assign target _ _ _ | .arrayLoad target _ _ | .read target => some target
  | .call _ _ target _ => given target
  | _ => none

/-- The label to which a line stores. -/
def Node.stores? : Node → Option String
  | .instr i => i.op.stores?
  | _ => none

namespace Tables

variable {t : Tables}

/-- A line stores to the cell of a scalar with the width of its type. -/
def StoresCell (t : Tables) (name : String) (node : Node) : Prop :=
  ∃ e r, t.symbols.cell? name = some e ∧ e.isArray = false ∧ node = (Op.store e.type.width r (.label name)).node

theorem stores?_fetch (operand : String) (wanted : Option Register) :
    ∀ op ∈ (t.fetch operand wanted).2, op.stores? = none := by
  unfold fetch
  cases Operand.ofString (Text.stripped operand) with
  | name name =>
    simp only [fetchAs, load]
    split
    · simp
    · split <;> simp [Op.stores?]
  | _ => simp [fetchAs, Op.stores?]

theorem stores?_moveCode (dest source : Register) : ∀ op ∈ moveCode dest source, op.stores? = none := by
  unfold moveCode
  split <;> simp [Op.stores?]

theorem stores?_copyInto (dest : Register) (operand : Operand) :
    ∀ op ∈ t.copyInto dest operand, op.stores? = none := by
  cases operand with
  | name name => exact List.forall_mem_append.mpr ⟨stores?_fetch _ _, stores?_moveCode _ _⟩
  | _ => simp [copyInto, Op.stores?]

theorem stores?_elementCode (array index : String) : ∀ op ∈ t.elementCode array index, op.stores? = none := by
  simp only [elementCode, List.forall_mem_append]
  exact ⟨⟨by simp [Op.stores?], stores?_fetch _ _⟩, by simp [Op.stores?]⟩

theorem stores?_prepareCode (value : String) : ∀ op ∈ (t.prepareCode value).1, op.stores? = none := by
  have argument : ∀ operand, ∀ op ∈ t.argumentCode value operand, op.stores? = none := by
    intro operand
    cases operand with
    | immediate => simp [argumentCode, Op.stores?]
    | float | text => exact List.forall_mem_append.mpr ⟨stores?_fetch _ _, stores?_moveCode _ _⟩
    | name name =>
      simp only [argumentCode]
      split
      · simp [Op.stores?]
      · exact List.forall_mem_append.mpr ⟨stores?_fetch _ _, by simp [Op.stores?]⟩
  unfold prepareCode
  split
  · simp [Op.stores?]
  · split
    · exact List.forall_mem_append.mpr ⟨stores?_fetch _ _, by simp [Op.stores?]⟩
    · exact argument _

theorem stores?_nodes {ops : List Op} (silent : ∀ op ∈ ops, op.stores? = none) :
    ∀ node ∈ ops.map Op.node, node.stores? = none := by
  simpa [Node.stores?, Op.node] using silent

theorem stores?_instrs {is : List Instr} (silent : ∀ i ∈ is, i.op.stores? = none) :
    ∀ node ∈ is.map (·.op.node), node.stores? = none := by
  simpa [Node.stores?, Op.node] using silent

theorem stores?_branchCode (condition target : String) (operand2 operator : Option String) :
    ∀ node ∈ t.branchCode condition target operand2 operator, node.stores? = none := by
  unfold branchCode
  split
  · split
    next op _ =>
      simp only [relationCode, List.forall_mem_append]
      exact ⟨⟨⟨stores?_nodes (stores?_fetch _ _), stores?_nodes (stores?_fetch _ _)⟩,
        stores?_instrs fun i inside => (op.sets_code _ _ _ i inside).1⟩, by simp [Node.stores?, Op.node, Op.stores?]⟩
    next => simp [Node.stores?]
  · exact List.forall_mem_append.mpr ⟨stores?_nodes (stores?_fetch _ _), by simp [Node.stores?, Op.node, Op.stores?]⟩

theorem stores?_arrayStoreCode (array index value : String) :
    ∀ op ∈ t.arrayStoreCode array index value, op.stores? = none := by
  simp only [arrayStoreCode, List.forall_mem_append]
  exact ⟨⟨stores?_elementCode _ _, stores?_fetch _ _⟩, by simp [Op.stores?]⟩

-- The loop stores through its cursor, so it names no label either.
theorem stores?_fillCode (array start stop loop : String) :
    ∀ node ∈ t.fillCode array start stop loop, node.stores? = none := by
  simp only [fillCode, fillLoop, List.forall_mem_append]
  refine ⟨stores?_nodes ?_, by simp [Node.stores?, Op.node, Op.stores?]⟩
  simp only [List.cons_append, List.forall_mem_cons, List.forall_mem_append, cursorCode]
  exact ⟨rfl, ⟨⟨stores?_fetch _ _, stores?_moveCode _ _⟩, by simp [Op.stores?]⟩, stores?_fetch _ _⟩

theorem stores?_returnCode (value : Option String) : ∀ op ∈ t.returnCode value, op.stores? = none := by
  unfold returnCode
  split
  · simp [Op.stores?]
  · split
    · simp [Op.stores?]
    · simp only [List.forall_mem_append]
      exact ⟨⟨stores?_fetch _ _, stores?_moveCode _ _⟩, by simp [Op.stores?]⟩

theorem stores?_printCode (value : String) : ∀ node ∈ t.printCode value, node.stores? = none :=
  List.forall_mem_append.mpr ⟨stores?_nodes (stores?_prepareCode _),
    by simp [Node.stores?, Op.node, Op.stores?, serviceCode]⟩

theorem stores?_pushCode (arguments : List String) : ∀ op ∈ arguments.flatMap t.pushCode, op.stores? = none := by
  intro op member
  obtain ⟨argument, -, inside⟩ := List.mem_flatMap.mp member
  refine List.forall_mem_append.mpr ⟨stores?_fetch _ _, ?_⟩ op inside
  simp [Op.stores?]

theorem stores?_releaseCode (count : Option Int) : ∀ node ∈ t.releaseCode count, node.stores? = none := by
  rcases t.releaseCode_cases count with none | ⟨n, single⟩
  · simp [none]
  · simp [single, Node.stores?, Op.node, Op.stores?]

theorem stores?_queueRemark (function : String) (count : Option Int) (target rawCount : Option String) (queued : Nat) :
    ∀ node ∈ queueRemark function count target rawCount queued, node.stores? = none := by
  unfold queueRemark
  split <;> simp [Node.stores?]

section

variable {target name : String} {r : Register} {node : Node} {front : List Node}

/-- Behind lines that store to no label a value is written to the cell of its name. -/
theorem storesCell_of_mem_append (silent : ∀ node ∈ front, node.stores? = none)
    (member : node ∈ front ++ t.store target r) (stores : node.stores? = some name) :
    target = name ∧ t.StoresCell name node := by
  rcases List.mem_append.mp member with member | member
  · rw [silent node member] at stores
    cases stores
  · unfold store at member
    split at member
    next => cases member
    next e cell =>
      split at member
      next =>
        obtain rfl := List.mem_singleton.mp member
        cases stores
      next scalar =>
        obtain rfl := List.mem_singleton.mp member
        cases stores
        exact ⟨rfl, e, r, cell, by simpa using scalar, rfl⟩

theorem storesCell_of_mem_assignCode {operand1 operator operand2 : Option String}
    (member : node ∈ t.assignCode target operand1 operator operand2) (stores : node.stores? = some name) :
    target = name ∧ t.StoresCell name node := by
  unfold assignCode at member
  split at member
  · split at member
    next op _ =>
      refine storesCell_of_mem_append ?_ member stores
      simp only [List.forall_mem_append]
      exact ⟨⟨stores?_nodes (stores?_fetch _ _), stores?_nodes (stores?_fetch _ _)⟩,
        stores?_instrs fun i inside => (op.sets_code _ _ _ i inside).1⟩
    next =>
      obtain rfl := List.mem_singleton.mp member
      cases stores
  · split at member
    next op _ =>
      refine storesCell_of_mem_append ?_ member stores
      simp only [List.forall_mem_append]
      exact ⟨stores?_nodes (stores?_fetch _ _), stores?_instrs fun i inside => (op.sets_code _ _ i inside).1⟩
    next =>
      obtain rfl := List.mem_singleton.mp member
      cases stores
  · exact storesCell_of_mem_append (stores?_nodes (stores?_copyInto _ _)) member stores

/-- Everything up to the result of a call is silent. -/
theorem storesCell_of_mem_passCode {symbols : SymbolTable} {queue : List String} {function : String}
    {count : Option Int} {result rawCount : Option String}
    (member : node ∈ t.passCode symbols queue function count result rawCount) (stores : node.stores? = some name) :
    Stmt.given result = some name ∧ t.StoresCell name node := by
  have silent : ∀ node ∈ queueRemark function count result rawCount queue.length ++
      ((pushed queue count).flatMap ({ t with symbols := symbols } : Tables).pushCode).map Op.node ++
      [(Op.jal function).node] ++ t.releaseCode (some (count.getD queue.length)), node.stores? = none := by
    simp only [List.forall_mem_append]
    exact ⟨⟨⟨stores?_queueRemark _ _ _ _ _, stores?_nodes (stores?_pushCode _)⟩,
      by simp [Node.stores?, Op.node, Op.stores?]⟩, stores?_releaseCode _⟩
  simp only [passCode, resultCode] at member
  cases given : Stmt.given result with
  | none =>
    rw [given, List.append_nil] at member
    rw [silent node member] at stores
    cases stores
  | some target =>
    rw [given] at member
    obtain ⟨rfl, cell⟩ := storesCell_of_mem_append silent member stores
    exact ⟨rfl, cell⟩

/-- Only a statement that writes a name stores to its label, and only to the cell of a scalar. -/
theorem storesCell_of_mem_codeFrom {p : Pass} {s : Stmt} (member : node ∈ t.codeFrom p s)
    (stores : node.stores? = some name) : s.written? = some name ∧ t.StoresCell name node := by
  have silent : ∀ {code : List Node} {P : Prop}, (∀ node ∈ code, node.stores? = none) → node ∈ code → P := by
    intro code P silent member
    rw [silent node member] at stores
    cases stores
  cases s with
  | assign target operand1 operator operand2 =>
    obtain ⟨rfl, cell⟩ := storesCell_of_mem_assignCode member stores
    exact ⟨rfl, cell⟩
  | arrayLoad target array index =>
    have front : ∀ op ∈ t.elementCode array index ++ [.load (t.symbols.elementType array).width (t.register target)
        (.base t.config.addressRegister)], op.stores? = none :=
      List.forall_mem_append.mpr ⟨stores?_elementCode _ _, by simp [Op.stores?]⟩
    obtain ⟨rfl, cell⟩ := storesCell_of_mem_append (stores?_nodes front) member stores
    exact ⟨rfl, cell⟩
  | call function count target rawCount => exact storesCell_of_mem_passCode member stores
  | read target =>
    obtain ⟨rfl, cell⟩ :=
      storesCell_of_mem_append (by simp [Node.stores?, Op.node, Op.stores?, serviceCode]) member stores
    exact ⟨rfl, cell⟩
  | branch condition target operand2 operator => exact silent (stores?_branchCode _ _ _ _) member
  | arrayStore array index value => exact silent (stores?_nodes (stores?_arrayStoreCode _ _ _)) member
  | zeroFill array start stop => exact silent (stores?_fillCode _ _ _ _) member
  | ret value => exact silent (stores?_nodes (stores?_returnCode _)) member
  | print value => exact silent (stores?_printCode _) member
  | goto | label | comment | malformed | unsupported | foreign =>
    exact silent (by simp [codeFrom, code, Node.stores?, Op.node, Op.stores?]) member
  | declare | declareArray | param => cases member

end

end Tables

end MipsLowering
