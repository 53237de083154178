import Mathlib.Data.List.Basic
import MipsLowering.Proofs.StatementCode

/-! # Strides and widths of array accesses

The code of an array access multiplies the index by the size of an element, and then reads or writes one
element; a fill moves its cursor on by that size.  Size and width come from two questions to the table of
symbols: one takes the type of whatever has the name, the other only that of an array.  `line_strides` says
for which entries the two differ.

The code is looked at as a list of operations.  What stands between the product and the access is plain
(`Op.isPlain`), so that it can be skipped (`Op.pairs_append`). -/

namespace MipsLowering

/-! ## What code shows -/

namespace Op

/-- The number of bytes that an operation reads or writes at the address in a register. -/
def accessed? : Op → Option Nat
  | .load width _ (.base _) | .store width _ (.base _) => some width.bytes
  | _ => none

/-- The constant by which the second of two operations multiplies, if the first has just loaded it. -/
def factor? : Op × Op → Option String
  | (.li loaded value, .alu .mul _ _ factor) => if loaded = factor then some value else none
  | _ => none

/-- How far the second of two operations moves on the address at which the first writes. -/
def advance? : Op × Op → Option Int
  | (.store _ _ (.base cursor), .aluImm .addiu target source step) =>
    if target = cursor ∧ source = cursor then some step else none
  | _ => none

/-- What a view shows of the operations that come one after the other. -/
def pairs {α : Type} (view : Op × Op → Option α) (ops : List Op) : List α :=
  (ops.zip ops.tail).filterMap view

def accesses (ops : List Op) : List Nat :=
  ops.filterMap accessed?

def factors (ops : List Op) : List String :=
  pairs factor? ops

def advances (ops : List Op) : List Int :=
  pairs advance? ops

def isProduct : Op → Bool
  | .alu .mul _ _ _ => true
  | _ => false

def isStep : Op → Bool
  | .aluImm _ _ _ _ => true
  | _ => false

/-- Neither a product, nor a sum with a constant, nor an access by way of a register. -/
def isPlain (op : Op) : Bool :=
  !op.isProduct && !op.isStep && op.accessed?.isNone

theorem factor?_eq_none {op : Op} (other : op.isProduct = false) (before : Op) : factor? (before, op) = none := by
  unfold factor?
  split
  next same =>
    cases same
    cases other
  next => rfl

theorem advance?_eq_none {op : Op} (other : op.isStep = false) (before : Op) : advance? (before, op) = none := by
  unfold advance?
  split
  next same =>
    cases same
    cases other
  next => rfl

section

variable {α : Type} {view : Op × Op → Option α}

theorem pairs_cons_cons (op next : Op) (rest : List Op) :
    pairs view (op :: next :: rest) = (view (op, next)).toList ++ pairs view (next :: rest) := by
  cases shown : view (op, next) <;> simp [pairs, shown]

/-- Operations that a view does not show behind any other can be skipped in front of another such. -/
theorem pairs_append {front rest : List Op} {op : Op}
    (hidden : ∀ next ∈ front ++ [op], ∀ before, view (before, next) = none) :
    pairs view (front ++ op :: rest) = pairs view (op :: rest) := by
  induction front with
  | nil => rfl
  | cons first front ih =>
    have shorter := ih fun next member => hidden next (List.mem_cons_of_mem first member)
    rw [← shorter]
    cases front with
    | nil =>
      have skipped := hidden op (by simp) first
      rw [List.singleton_append, pairs_cons_cons, skipped]
      rfl
    | cons second front =>
      have skipped := hidden second (by simp) first
      rw [List.cons_append, List.cons_append, pairs_cons_cons, skipped]
      rfl

theorem pairs_cons_eq_nil {rest : List Op} (hidden : ∀ next ∈ rest, ∀ before, view (before, next) = none)
    (op : Op) : pairs view (op :: rest) = [] := by
  induction rest generalizing op with
  | nil => rfl
  | cons next rest ih =>
    rw [pairs_cons_cons, hidden next List.mem_cons_self op,
      ih (fun later member => hidden later (List.mem_cons_of_mem next member)) next]
    rfl

end

/-! ### Accesses -/

theorem isPlain_iff {op : Op} :
    op.isPlain = true ↔ op.isProduct = false ∧ op.isStep = false ∧ op.accessed? = none := by
  simp [isPlain, and_assoc]

/-- Operations that are all plain. -/
def Plain (ops : List Op) : Prop :=
  ∀ op ∈ ops, op.isPlain = true

theorem Plain.nil : Plain [] :=
  List.forall_mem_nil _

theorem Plain.cons {op : Op} {ops : List Op} (plain : Plain ops) (first : op.isPlain = true) : Plain (op :: ops) :=
  List.forall_mem_cons.mpr ⟨first, plain⟩

theorem Plain.append {ops more : List Op} (first : Plain ops) (second : Plain more) : Plain (ops ++ more) :=
  List.forall_mem_append.mpr ⟨first, second⟩

theorem isProduct_of_accessed? {op : Op} {bytes : Nat} (accesses : op.accessed? = some bytes) :
    op.isProduct = false ∧ op.isStep = false := by
  unfold accessed? at accesses
  split at accesses
  · exact ⟨rfl, rfl⟩
  · exact ⟨rfl, rfl⟩
  · cases accesses

/-- Code shows one factor, one access, and by how much it moves the address on behind it. -/
structure Shows (ops : List Op) (stride bytes : Nat) (isFill : Bool) : Prop where
  factors : Op.factors ops = [toString stride]
  accesses : Op.accesses ops = [bytes]
  advances : Op.advances ops = if isFill then [(stride : Int)] else []

section

variable {front middle back rest : List Op} {loaded target source : Register} {stride bytes : Nat}

theorem accesses_append : accesses (front ++ rest) = accesses front ++ accesses rest :=
  List.filterMap_append

theorem accesses_of_plain (plain : Plain front) : accesses front = [] := by
  rw [accesses, List.filterMap_eq_nil_iff]
  intro op member
  exact (isPlain_iff.mp (plain op member)).2.2

/-- What code shows is seen from the product on. -/
theorem shows_of_product {isFill : Bool} (plain : Plain front)
    (once : ∀ op ∈ rest, op.isProduct = false) (accessed : accesses rest = [bytes])
    (advanced : advances (.alu .mul target source loaded :: rest) = if isFill then [(stride : Int)] else []) :
    Shows (front ++ .li loaded (toString stride) :: .alu .mul target source loaded :: rest) stride bytes isFill where
  factors := by
    have skipped : ∀ next ∈ front ++ [.li loaded (toString stride)], ∀ before, factor? (before, next) = none := by
      intro next member before
      apply factor?_eq_none
      rcases List.mem_append.mp member with inFront | last
      · exact (isPlain_iff.mp (plain next inFront)).1
      · rw [List.mem_singleton.mp last]
        rfl
    have shown : factor? (.li loaded (toString stride), .alu .mul target source loaded) = some (toString stride) :=
      if_pos rfl
    have nothing := pairs_cons_eq_nil (fun next member => factor?_eq_none (once next member))
      (.alu .mul target source loaded)
    rw [Op.factors, pairs_append skipped, pairs_cons_cons, shown, nothing]
    rfl
  accesses := by
    have nothing : Op.accesses (front ++ [.li loaded (toString stride), .alu .mul target source loaded]) = [] := by
      rw [accesses_append, accesses_of_plain plain]
      rfl
    rw [List.append_cons, List.append_cons, List.append_assoc front, accesses_append, List.singleton_append, nothing,
      accessed]
    rfl
  advances := by
    have skipped : ∀ next ∈ (front ++ [.li loaded (toString stride)]) ++ [.alu .mul target source loaded],
        ∀ before, advance? (before, next) = none := by
      intro next member before
      apply advance?_eq_none
      simp only [List.mem_append, List.mem_singleton] at member
      rcases member with (inFront | rfl) | rfl
      · exact (isPlain_iff.mp (plain next inFront)).2.1
      · rfl
      · rfl
    rw [List.append_cons, Op.advances, pairs_append skipped]
    exact advanced

theorem shows_access {access : Op} (inFront : Plain front)
    (between : Plain middle) (behind : Plain back)
    (accessing : access.accessed? = some bytes) :
    Shows (front ++ .li loaded (toString stride) :: .alu .mul target source loaded :: (middle ++ access :: back))
      stride bytes false := by
  obtain ⟨noProduct, noStep⟩ := isProduct_of_accessed? accessing
  have quiet : ∀ op ∈ middle ++ access :: back, op.isProduct = false ∧ op.isStep = false := by
    intro op member
    have cases : op.isPlain = true ∨ op = access := by
      simp only [List.mem_append, List.mem_cons] at member
      rcases member with inMiddle | rfl | inBack
      · exact .inl (between op inMiddle)
      · exact .inr rfl
      · exact .inl (behind op inBack)
    rcases cases with plain | rfl
    · exact ⟨(isPlain_iff.mp plain).1, (isPlain_iff.mp plain).2.1⟩
    · exact ⟨noProduct, noStep⟩
  refine shows_of_product inFront (fun op member => (quiet op member).1) ?_ ?_
  · rw [accesses_append, accesses_of_plain between, accesses, List.filterMap_cons_some accessing, ← accesses,
      accesses_of_plain behind]
    rfl
  · exact pairs_cons_eq_nil (fun op member => advance?_eq_none (quiet op member).2) _

theorem shows_fill {cursor index last : Register} {width : Width} {loop exit : String}
    (inFront : Plain front) (between : Plain middle) :
    Shows (front ++ .li loaded (toString stride) :: .alu .mul target source loaded ::
      (middle ++ [.beq index last exit, .store width zeroRegister (.base cursor),
        .aluImm .addiu cursor cursor stride, .aluImm .addiu index index 1, .j loop])) stride width.bytes true := by
  have quiet : Plain (middle ++ [Op.beq index last exit]) := between.append (Plain.nil.cons rfl)
  refine shows_of_product inFront ?_ ?_ ?_
  · intro op member
    simp only [List.mem_append, List.mem_cons, List.not_mem_nil, or_false] at member
    rcases member with inMiddle | rfl | rfl | rfl | rfl | rfl
    · exact (isPlain_iff.mp (between op inMiddle)).1
    all_goals rfl
  · rw [accesses_append, accesses_of_plain between]
    rfl
  · have skipped : ∀ next ∈ (Op.alu .mul target source loaded :: (middle ++ [Op.beq index last exit])) ++
        [.store width zeroRegister (.base cursor)], ∀ before, advance? (before, next) = none := by
      intro next member before
      apply advance?_eq_none
      rw [List.mem_append, List.mem_cons, List.mem_singleton] at member
      rcases member with (rfl | inMiddle) | rfl
      · rfl
      · exact (isPlain_iff.mp (quiet next inMiddle)).2.1
      · rfl
    have shown : advance? (.store width zeroRegister (.base cursor), .aluImm .addiu cursor cursor stride) =
        some (stride : Int) := if_pos ⟨rfl, rfl⟩
    rw [List.append_cons, ← List.cons_append, Op.advances, pairs_append skipped, pairs_cons_cons, shown]
    rfl

end

end Op

/-! ## The code of statements -/

/-- The operation on a line. -/
def Node.op? : Node → Option Op
  | .instr i => some i.op
  | _ => none

theorem Node.filterMap_op?_bare (nodes : List Node) : (nodes.map bare).filterMap op? = nodes.filterMap op? := by
  rw [List.filterMap_map]
  congr 1
  funext node
  cases node <;> rfl

theorem Node.filterMap_op?_node (ops : List Op) : (ops.map Op.node).filterMap op? = ops := by
  rw [List.filterMap_map]
  exact List.filterMap_some

namespace Tables

variable (t : Tables)

theorem plain_load (name : String) (register : Register) : Op.Plain (t.load name register) := by
  intro op member
  unfold load at member
  split at member
  · cases member
  · split at member
    all_goals
      rw [List.mem_singleton.mp member]
      rfl

theorem plain_fetch (operand : String) (wanted : Option Register) :
    Op.Plain (t.fetch operand wanted).2 := by
  intro op member
  unfold fetch at member
  cases sort : Operand.ofString (Text.stripped operand) with
  | name name =>
    rw [sort] at member
    exact t.plain_load name _ op member
  | immediate | float | text =>
    rw [sort] at member
    rw [List.mem_singleton.mp member]
    rfl

theorem plain_moveCode (dest source : Register) : Op.Plain (moveCode dest source) := by
  intro op member
  unfold moveCode at member
  split at member
  · rw [List.mem_singleton.mp member]
    rfl
  · cases member

theorem plain_store (name : String) (register : Register) :
    Op.Plain ((t.store name register).filterMap Node.op?) := by
  intro op member
  unfold store at member
  split at member
  · cases member
  · split at member
    · cases member
    · rw [List.mem_singleton.mp member]
      rfl

variable (array : String)

theorem shows_arrayStoreCode (index value : String) :
    Op.Shows (t.arrayStoreCode array index value) (t.symbols.elementSize array)
      (t.symbols.elementType array).width.bytes false := by
  have code : t.arrayStoreCode array index value =
      (.la t.config.addressRegister array :: (t.fetch index (some t.config.indexRegister)).2) ++
        .li t.config.scratch0 (toString (t.symbols.elementSize array)) ::
        .alu .mul t.config.indexRegister (t.fetch index (some t.config.indexRegister)).1 t.config.scratch0 ::
        ((.alu .addu t.config.addressRegister t.config.addressRegister t.config.indexRegister ::
            (t.fetch value (some t.config.scratch0)).2) ++
          [.store (t.symbols.elementType array).width (t.fetch value (some t.config.scratch0)).1
            (.base t.config.addressRegister)]) := by
    simp [arrayStoreCode, elementCode]
  rw [code]
  exact Op.shows_access ((t.plain_fetch _ _).cons rfl) ((t.plain_fetch _ _).cons rfl) .nil rfl

theorem shows_arrayLoadCode (target index : String) :
    Op.Shows ((t.arrayLoadCode target array index).filterMap Node.op?) (t.symbols.elementSize array)
      (t.symbols.elementType array).width.bytes false := by
  have code : (t.arrayLoadCode target array index).filterMap Node.op? =
      (.la t.config.addressRegister array :: (t.fetch index (some t.config.indexRegister)).2) ++
        .li t.config.scratch0 (toString (t.symbols.elementSize array)) ::
        .alu .mul t.config.indexRegister (t.fetch index (some t.config.indexRegister)).1 t.config.scratch0 ::
        ([.alu .addu t.config.addressRegister t.config.addressRegister t.config.indexRegister] ++
          .load (t.symbols.elementType array).width (t.register target) (.base t.config.addressRegister) ::
          (t.store target (t.register target)).filterMap Node.op?) := by
    rw [arrayLoadCode, List.filterMap_append, Node.filterMap_op?_node]
    simp [elementCode]
  rw [code]
  exact Op.shows_access ((t.plain_fetch _ _).cons rfl) (Op.Plain.nil.cons rfl) (t.plain_store _ _) rfl

theorem shows_fillCode (start stop loop : String) :
    Op.Shows ((t.fillCode array start stop loop).filterMap Node.op?) (t.symbols.elementSize array)
      (t.symbols.elementType array).width.bytes true := by
  have code : (t.fillCode array start stop loop).filterMap Node.op? =
      (.la t.config.addressRegister array :: ((t.fetch start (some t.config.indexRegister)).2 ++
          moveCode t.config.indexRegister (t.fetch start (some t.config.indexRegister)).1)) ++
        .li t.config.scratch0 (toString (t.symbols.elementSize array)) ::
        .alu .mul t.config.scratch0 t.config.indexRegister t.config.scratch0 ::
        ((.alu .addu t.config.addressRegister t.config.addressRegister t.config.scratch0 ::
            (t.fetch stop (some t.config.scratch1)).2) ++
          [.beq t.config.indexRegister (t.fetch stop (some t.config.scratch1)).1 (loop ++ "_end"),
            .store (t.symbols.elementType array).width zeroRegister (.base t.config.addressRegister),
            .aluImm .addiu t.config.addressRegister t.config.addressRegister (t.symbols.elementSize array),
            .aluImm .addiu t.config.indexRegister t.config.indexRegister 1, .j loop]) := by
    rw [fillCode, List.filterMap_append, Node.filterMap_op?_node]
    simp [cursorCode, fillLoop]
    rfl
  rw [code]
  exact Op.shows_fill (((t.plain_fetch _ _).append (plain_moveCode _ _)).cons rfl) ((t.plain_fetch _ _).cons rfl)

end Tables

/-- The array of which a statement reads or writes elements. -/
def Stmt.indexed? : Stmt → Option String
  | .arrayLoad _ array _ | .arrayStore array _ _ | .zeroFill array _ _ => some array
  | _ => none

def Stmt.isFill : Stmt → Bool
  | .zeroFill _ _ _ => true
  | _ => false

namespace SymbolTable

/-- A read does not change how its array is looked at, not even if it is the first to name it. -/
theorem elementSize_note_self (symbols : SymbolTable) (target array : String) :
    (symbols.note target (symbols.elementType array)).elementSize array = symbols.elementSize array := by
  unfold note
  cases absent : symbols.lookup? target with
  | some old => rfl
  | none =>
    by_cases same : target = array
    · subst same
      simp [elementSize, elementType, lookup?_add, absent, Symbol.elementSize]
    · simp [elementSize, lookup?_add, same]

/-- The two questions to the table have different answers for a char that is no array, and only for it. -/
theorem elementSize_eq_or (symbols : SymbolTable) (name : String) :
    symbols.elementSize name = (symbols.elementType name).width.bytes ∧
        (∀ s, symbols.lookup? name = some s → s.type = .char → s.isArray = true) ∨
      symbols.elementSize name = 1 ∧ (symbols.elementType name).width.bytes = 4 ∧
        ∃ s, symbols.lookup? name = some s ∧ s.type = .char ∧ s.isArray = false := by
  unfold elementSize elementType
  cases symbols.lookup? name with
  | none => exact .inl ⟨rfl, fun _ found => nomatch found⟩
  | some s =>
    have size : ((some s).map Symbol.elementSize).getD ValueType.int.size = s.type.width.bytes := rfl
    rw [size]
    dsimp only
    cases isArray : s.isArray with
    | true => exact .inl ⟨rfl, fun _ found _ => Option.some.inj found ▸ isArray⟩
    | false =>
      cases type : s.type with
      | char => exact .inr ⟨rfl, rfl, s, rfl, type, isArray⟩
      | int | float | bool | string | unknown =>
        refine .inl ⟨rfl, fun other found isChar => ?_⟩
        rw [← Option.some.inj found, type] at isChar
        cases isChar

end SymbolTable

namespace Lower

theorem shows_stmt {s : Stmt} {array : String} (indexed : s.indexed? = some array) {p q : Pass}
    (empty : p.text = []) (ran : (stmt s).run p = .ok () q) :
    Op.Shows (q.text.filterMap Node.op?) (p.symbols.elementSize array)
      (p.symbols.elementType array).width.bytes s.isFill := by
  cases s with
  | arrayStore array index value =>
    cases indexed
    obtain ⟨nodes, lays, settled⟩ := lays_arrayStore ran
    have shows := q.tables.shows_arrayStoreCode array index value
    rw [← Node.filterMap_op?_node (q.tables.arrayStoreCode _ _ _), ← settled _ q.fits_tables,
      Node.filterMap_op?_bare] at shows
    rw [lays.text, empty, ← lays.symbols]
    exact shows
  | arrayLoad target array index =>
    cases indexed
    obtain ⟨nodes, lays, settled⟩ := lays_arrayLoad ran
    have shows := q.tables.shows_arrayLoadCode array target index
    rw [← settled _ q.fits_tables, Node.filterMap_op?_bare] at shows
    rw [q.fits_tables.symbols, lays.symbols, p.symbols.elementSize_note_self, p.symbols.elementType_note_self] at shows
    rw [lays.text, empty]
    exact shows
  | zeroFill array start stop =>
    cases indexed
    obtain ⟨labels, nodes, lays, settled⟩ := lays_zeroFill ran
    have shows := q.tables.shows_fillCode array start stop (p.labels.generate "arr_pad" ["", "_end"]).1
    rw [← settled _ q.fits_tables, Node.filterMap_op?_bare] at shows
    rw [q.fits_tables.symbols, lays.symbols] at shows
    rw [lays.text, empty]
    exact shows
  | _ => cases indexed

end Lower

theorem run_of_mem_traceFrom {program : Program} {p : Pass} {s : TraceStep} (member : s ∈ traceFrom p program)
    (sound : s.fault = none) : (Lower.line s.line).run s.before = .ok () s.after := by
  induction program generalizing p with
  | nil => cases member
  | cons l rest ih =>
    cases ran : (Lower.line l).run p with
    | ok _ q =>
      simp only [traceFrom, Pass.perform, ran, List.mem_cons] at member
      rcases member with rfl | later
      · exact ran
      · exact ih later
    | error fault q =>
      simp only [traceFrom, Pass.perform, ran, List.mem_cons] at member
      rcases member with rfl | later
      · cases sound
      · exact ih later

/-- Whatever state a pass has come to, the code of a statement on elements of `array` shows one stride, by which
    it scales the index and moves on the cursor of a fill, and one access.  The stride is the number of bytes
    accessed, except where `array` is a char that is no array: there the stride is one byte, and the access is to
    a word. -/
theorem traceProgram_strides {config : Config} {program : Program} {s : TraceStep} {array : String}
    (member : s ∈ (traceProgram config program).1) (sound : s.fault = none)
    (indexed : s.stmt.indexed? = some array) :
    ∃ stride bytes : Nat,
      Op.Shows (s.nodes.filterMap Node.op?) stride bytes s.stmt.isFill ∧
      (stride = bytes ∧
          (∀ e, s.before.symbols.lookup? array = some e → e.type = .char → e.isArray = true) ∨
        stride = 1 ∧ bytes = 4 ∧
          ∃ e, s.before.symbols.lookup? array = some e ∧ e.type = .char ∧ e.isArray = false) := by
  obtain ⟨r, own, lowered, final, bare⟩ := Lower.run_line_ok (run_of_mem_traceFrom member sound)
  have nodes : s.nodes = own := by
    rw [TraceStep.nodes, final]
    exact List.drop_left
  have shows := Lower.shows_stmt indexed rfl lowered
  rw [← Node.filterMap_op?_bare, ← bare, Node.filterMap_op?_bare, ← nodes] at shows
  exact ⟨_, _, shows, s.before.symbols.elementSize_eq_or array⟩

/-- A fill of an array of chars. -/
def clearsChars : Program :=
  Program.ofStmts [.declareArray "b" 5 (some "char") false, .zeroFill "b" "0" "3"]

theorem clearsChars_strides :
    ∃ s stride, (traceProgram (Config.standard false) clearsChars).1[1]? = some s ∧ s.fault = none ∧
      s.stmt.indexed? = some "b" ∧ Op.Shows (s.nodes.filterMap Node.op?) stride stride true := by
  have step : (traceProgram (Config.standard false) clearsChars).1[1]?.map (fun s =>
      (s.fault, s.stmt, s.before.symbols.lookup? "b")) =
      some (none, .zeroFill "b" "0" "3", some ⟨"b", .array, .char, 5, true⟩) := by
    decide +kernel
  obtain ⟨s, found, step⟩ := Option.map_eq_some_iff.mp step
  simp only [Prod.mk.injEq] at step
  obtain ⟨sound, stmt, entry⟩ := step
  have indexed : s.stmt.indexed? = some "b" := by rw [stmt]; rfl
  obtain ⟨stride, bytes, shows, ⟨rfl, -⟩ | ⟨-, -, e, found', -, scalar⟩⟩ :=
    traceProgram_strides (List.mem_of_getElem? found) sound indexed
  · rw [stmt] at shows
    exact ⟨s, stride, found, sound, indexed, shows⟩
  · rw [entry] at found'
    cases found'
    cases scalar

/-- An element of a char that is no array is read. -/
def readsCharScalar : Program :=
  Program.ofStmts [.declare "c" (some "char") false, .arrayLoad "x" "c" "1"]

/-- The index is scaled by one byte, and a word is read. -/
theorem readsCharScalar_strides :
    (traceProgram (Config.standard false) readsCharScalar).1[1]?.map (fun s =>
      (s.fault, s.stmt.indexed?, Op.factors (s.nodes.filterMap Node.op?),
        Op.accesses (s.nodes.filterMap Node.op?))) =
      some (none, some "c", ["1"], [4]) := by
  decide +kernel

end MipsLowering
