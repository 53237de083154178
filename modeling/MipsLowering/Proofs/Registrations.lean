import Mathlib.Algebra.Group.Int.Defs
import Mathlib.Data.List.Nodup
import MipsLowering.Proofs.DataLayout

/-! # Registrations and the layout of cells

Names are entered into the table of symbols by declarations of scalars and arrays, and by notes on names that
are assigned.  The first declaration of a name asks for a cell.  Whatever the calls and their order, the
data section keeps count of the bytes in step with the assembler: its cells are those that `layOut` lays out
by the location counter, with padding exactly before the arrays of words that would begin off a word boundary
(`register_layout`).

A declaration fails where the directive of its array has a number with too many digits.  Then the name is in
the table, the padding is laid out, and there is no cell. -/

namespace MipsLowering

/-! ## Calls -/

/-- A call that enters a name into the table of symbols. -/
inductive Registration where
  | declare (name : String) (type : ValueType)
  | declareArray (name : String) (type : ValueType) (length : Int)
  | note (name : String) (type : ValueType)
  deriving Repr, DecidableEq

namespace Registration

def enter : Registration → Emit Unit
  | .declare name type => Emit.declare name type
  | .declareArray name type length => Emit.declareArray name type length
  | .note name type => Emit.note name type

/-- The symbol for whose cell a call asks. -/
def entry? : Registration → Option Symbol
  | .declare name type => some ⟨name, .scalar, type, 0, true⟩
  | .declareArray name type length => some ⟨name, .array, type, length, true⟩
  | .note _ _ => none

/-- The symbols that calls enter: what the first declaration of each name says. -/
def symbols (calls : List Registration) : List Symbol :=
  (calls.filterMap entry?).eraseDupsBy (·.name == ·.name)

end Registration

/-- The state behind calls.  Whoever makes them goes on behind one that has failed. -/
def Pass.register (p : Pass) (calls : List Registration) : Pass :=
  calls.foldl (fun p call => (p.perform call.enter).2) p

/-! ## What is laid out -/

/-- The directives of a symbol behind `counter` bytes.  Padding comes before an array of words that would
    begin off a word boundary, and there is a cell if its numbers can be written. -/
def Symbol.lines (s : Symbol) (counter : Nat) : List Directive :=
  (if s.isArray ∧ s.type.width = .word ∧ counter % 4 ≠ 0 then [paddingDirective] else []) ++
    if s.isWritable then [s.directive] else []

/-- The directives of symbols, the first of which comes behind `counter` bytes. -/
def layOut (counter : Nat) : List Symbol → List Directive
  | [] => []
  | s :: rest => s.lines counter ++ layOut (assembledEnd counter (s.lines counter)) rest

theorem layOut_append (counter : Nat) (first second : List Symbol) :
    layOut counter (first ++ second) =
      layOut counter first ++ layOut (assembledEnd counter (layOut counter first)) second := by
  induction first generalizing counter with
  | nil => rfl
  | cons s rest ih => simp only [List.cons_append, layOut, ih, List.append_assoc, assembledEnd_append]

theorem layOut_concat (counter : Nat) (symbols : List Symbol) (s : Symbol) :
    layOut counter (symbols ++ [s]) =
      layOut counter symbols ++ s.lines (assembledEnd counter (layOut counter symbols)) := by
  simp only [layOut_append, layOut, List.append_nil]

theorem mem_layOut {counter : Nat} {symbols : List Symbol} {d : Directive} (member : d ∈ layOut counter symbols) :
    d = paddingDirective ∨ ∃ s ∈ symbols, s.isWritable = true ∧ d = s.directive := by
  induction symbols generalizing counter with
  | nil => cases member
  | cons s rest ih =>
    simp only [layOut, Symbol.lines, List.mem_append, List.mem_ite_nil_right, List.mem_singleton] at member
    rcases member with (⟨-, padding⟩ | ⟨writable, cell⟩) | later
    · exact .inl padding
    · exact .inr ⟨s, List.mem_cons_self, writable, cell⟩
    · rcases ih later with padding | ⟨s', member, cell⟩
      · exact .inl padding
      · exact .inr ⟨s', List.mem_cons_of_mem s member, cell⟩

/-- The cell of a symbol begins at a multiple of the size of its elements. -/
theorem Symbol.exists_fits_lines (s : Symbol) (counter : Nat) (writable : s.isWritable = true) :
    ∃ b ∈ assemble counter (s.lines counter), s.Fits b := by
  unfold lines
  rw [if_pos writable, assemble_append]
  refine ⟨_, List.mem_append_right _ List.mem_cons_self, rfl, ?_, s.stop_directive _⟩
  obtain ⟨name, kind, type, length, inMemory⟩ := s
  -- Words and floats align themselves, and before the space for an array of words there is padding if need be.
  cases kind with
  | scalar =>
    cases type with
    | char => exact Nat.mod_one _
    | int | float | bool | string | unknown => exact alignWord_mod _
  | array =>
    simp only [directive, Storage.start, isArray, ValueType.size]
    cases type.width with
    | byte => exact Nat.mod_one _
    | word =>
      by_cases aligned : counter % 4 = 0
      · simp [aligned, assembledEnd, Width.bytes]
      · simp [aligned, assembledEnd, paddingDirective, Storage.stop, Width.bytes, alignWord_mod]

/-- A symbol whose directive cannot be written has no cell, as the names of symbols differ. -/
theorem label_ne_of_mem_layOut {counter : Nat} {symbols : List Symbol} {s : Symbol} {d : Directive}
    (distinct : (symbols.map Symbol.name).Nodup) (member : s ∈ symbols) (unwritable : s.isWritable = false)
    (listed : d ∈ layOut counter symbols) : d.label ≠ some s.name := by
  intro labelled
  rcases mem_layOut listed with rfl | ⟨other, inside, writable, rfl⟩
  · cases labelled
  · have same : other = s := by
      apply List.inj_on_of_nodup_map distinct inside member
      rw [other.label_directive] at labelled
      exact Option.some.inj labelled
    rw [same, unwritable] at writable
    cases writable

theorem exists_fits_layOut {counter : Nat} {symbols : List Symbol} {s : Symbol} (member : s ∈ symbols)
    (writable : s.isWritable = true) : ∃ b ∈ assemble counter (layOut counter symbols), s.Fits b := by
  induction symbols generalizing counter with
  | nil => cases member
  | cons s' rest ih =>
    simp only [layOut, assemble_append, List.mem_append]
    rcases List.mem_cons.mp member with rfl | later
    · obtain ⟨b, inside, fits⟩ := s.exists_fits_lines counter writable
      exact ⟨b, .inl inside, fits⟩
    · obtain ⟨b, inside, fits⟩ := ih later
      exact ⟨b, .inr inside, fits⟩

/-! ### From another base -/

theorem alignWord_add {base : Nat} (aligned : base % 4 = 0) (offset : Nat) :
    alignWord (base + offset) = base + alignWord offset := by
  unfold alignWord
  omega

theorem Storage.stop_add {base : Nat} (aligned : base % 4 = 0) (offset : Nat) (s : Storage) :
    s.stop (base + offset) = base + s.stop offset := by
  cases s with
  | word | float => simp only [stop, alignWord_add aligned, Nat.add_assoc]
  | alignWord => exact alignWord_add aligned offset
  | byte | space | asciiz => simp only [stop, Nat.add_assoc]
  | other => rfl

theorem assembledEnd_add {base : Nat} (aligned : base % 4 = 0) (offset : Nat) (directives : List Directive) :
    assembledEnd (base + offset) directives = base + assembledEnd offset directives := by
  induction directives generalizing offset with
  | nil => rfl
  | cons d rest ih =>
    calc assembledEnd (base + offset) (d :: rest) = assembledEnd (d.storage.stop (base + offset)) rest := rfl
      _ = base + assembledEnd (d.storage.stop offset) rest := by rw [d.storage.stop_add aligned, ih]

theorem Symbol.lines_add {base : Nat} (aligned : base % 4 = 0) (counter : Nat) (s : Symbol) :
    s.lines (base + counter) = s.lines counter := by
  have same : (base + counter) % 4 = counter % 4 := by omega
  rw [lines, lines, same]

theorem layOut_add {base : Nat} (aligned : base % 4 = 0) (counter : Nat) (symbols : List Symbol) :
    layOut (base + counter) symbols = layOut counter symbols := by
  induction symbols generalizing counter with
  | nil => rfl
  | cons s rest ih => rw [layOut, layOut, s.lines_add aligned, assembledEnd_add aligned, ih]

/-! ## The count of bytes -/

namespace DataSection

theorem cells_enter (d : DataSection) (s : Symbol) : (d.enter s).cells = d.cells ++ s.lines d.offset := by
  have padding : (d.align s).cells = d.cells ++
      if s.isArray ∧ s.type.width = .word ∧ d.offset % 4 ≠ 0 then [paddingDirective] else [] := by
    have moves : alignWord d.offset = d.offset ↔ d.offset % 4 = 0 := by
      unfold alignWord
      omega
    simp only [align]
    cases s.type.width with
    | byte => simp
    | word => simp [moves]
  rw [Symbol.lines, ← List.append_assoc, ← padding, enter]
  split
  · rfl
  · rw [List.append_nil]

theorem counted_enter {d : DataSection} (counted : assembledEnd 0 d.cells = d.offset) (s : Symbol) :
    assembledEnd 0 (d.enter s).cells = (d.enter s).offset := by
  unfold enter
  split
  next writable =>
    obtain ⟨_, _, _, _, _, counted⟩ := assemble_append_align (s := s) counted
    exact counted
  next unwritable =>
    -- Only the cell of an array is not written, and space does not align itself.
    have space : s.directive.storage.start (assembledEnd 0 (d.align s).cells) =
        assembledEnd 0 (d.align s).cells := by
      obtain ⟨name, kind, type, length, inMemory⟩ := s
      cases kind with
      | scalar => exact absurd rfl unwritable
      | array => rfl
    rw [← space, start_directive counted]

end DataSection

/-! ## Entering symbols -/

namespace Registration

variable {call : Registration} {s : Symbol} {p : Pass}

/-- A call that asks for a cell gives one, and what it makes of a name without a cell is the symbol. -/
theorem exists_giveCell (asks : call.entry? = some s) (opens : p.symbols.Open) :
    ∃ make, call.enter = Emit.declared (·.giveCell s.name make) ∧
      (p.symbols.cell? s.name = none → make (p.symbols.lookup? s.name) = s) := by
  cases call with
  | note name type => cases asks
  | declareArray name type length =>
    cases asks
    exact ⟨fun _ => ⟨name, .array, type, length, true⟩, rfl, fun _ => rfl⟩
  | declare name type =>
    cases asks
    refine ⟨SymbolTable.declaredEntry name type, rfl, fun new => ?_⟩
    dsimp only at new ⊢
    cases entry : p.symbols.lookup? name with
    | none => rfl
    | some old =>
      -- It makes no difference that the name was assigned to before.
      have unbacked : old.inMemory = false := by simpa [SymbolTable.cell?, entry] using new
      rw [opens name old entry unbacked]
      rfl

theorem perform_enter_of_isSome (asks : call.entry? = some s) (opens : p.symbols.Open)
    (known : (p.symbols.cell? s.name).isSome = true) : p.perform call.enter = (.ok (), p) := by
  obtain ⟨make, gives, -⟩ := exists_giveCell asks opens
  rw [← SymbolTable.isInMemory_eq_cell?] at known
  rw [Pass.perform, gives, Emit.run_giveCell_of_backed s.name make known]

theorem inMemory_of_entry? (asks : call.entry? = some s) : s.inMemory = true := by
  cases call with
  | note => cases asks
  | declare | declareArray => cases asks; rfl

theorem perform_enter_of_none (asks : call.entry? = some s) (opens : p.symbols.Open)
    (new : p.symbols.cell? s.name = none) :
    ∃ table, p.perform call.enter =
        (if s.isWritable then .ok () else .error (.numeral .write),
          { p with symbols := table, data := p.data.enter s }) ∧
      table.Open ∧ table.cell? = Function.update p.symbols.cell? s.name (some s) := by
  obtain ⟨make, gives, makes⟩ := exists_giveCell asks opens
  have made := makes new
  have named : (make (p.symbols.lookup? s.name)).name = s.name := by rw [made]
  have backed : (make (p.symbols.lookup? s.name)).inMemory = true := by rw [made, inMemory_of_entry? asks]
  have unbacked : p.symbols.isInMemory s.name = false := by
    rw [SymbolTable.isInMemory_eq_cell?, new]
    rfl
  have ran := Emit.run_giveCell_of_unbacked s.name make unbacked made
  have entries := SymbolTable.cell?_giveCell named backed
  rw [unbacked] at entries
  rw [made] at entries
  refine ⟨_, ?_, opens.giveCell named backed, entries⟩
  rw [Pass.perform, gives, ran]
  cases s.isWritable <;> rfl

end Registration

/-! ## Calls one after another -/

/-- Whether a call behind others fails: it declares a new name, and its directive cannot be written. -/
def Registration.fails (call : Registration) (done : List Registration) : Bool :=
  call.entry?.any fun s => !s.isWritable && !(done.filterMap entry?).any (·.name == s.name)

/-- The state behind the calls `done`. -/
structure Pass.Registered (p : Pass) (done : List Registration) : Prop where
  opens : p.symbols.Open
  entries : ∀ name, p.symbols.cell? name = (done.filterMap Registration.entry?).find? (·.name == name)
  counted : assembledEnd 0 p.data.cells = p.data.offset
  cells : p.data.cells = layOut 0 (Registration.symbols done)

namespace Pass.Registered

variable {p : Pass} {done : List Registration} {call : Registration} {s : Symbol}

theorem symbols_concat (registered : p.Registered done) (asks : call.entry? = some s) :
    Registration.symbols (done ++ [call]) =
      Registration.symbols done ++ if (p.symbols.cell? s.name).isSome then [] else [s] := by
  have known : (done.filterMap Registration.entry?).any (s.name == ·.name) =
      (p.symbols.cell? s.name).isSome := by
    rw [registered.entries, List.isSome_find?]
    congr 1
    funext other
    rw [Bool.beq_comm]
  rw [Registration.symbols, List.filterMap_append, List.filterMap_cons_some asks, List.filterMap_nil,
    eraseDupsBy_concat Symbol.name, known, Registration.symbols]

theorem fails_eq (registered : p.Registered done) (asks : call.entry? = some s) :
    call.fails done = (!s.isWritable && !(p.symbols.cell? s.name).isSome) := by
  rw [Registration.fails, asks, registered.entries, List.isSome_find?, Option.any_some]

theorem note (registered : p.Registered done) (name : String) (type : ValueType) :
    Registered { p with symbols := p.symbols.note name type } (done ++ [Registration.note name type]) := by
  have asked : (done ++ [Registration.note name type]).filterMap Registration.entry? =
      done.filterMap Registration.entry? := by
    rw [List.filterMap_append]
    exact List.append_nil _
  refine ⟨(MinorStep.note p name type).opens registered.opens, fun other => ?_, registered.counted, ?_⟩
  · rw [asked, SymbolTable.cell?_note, registered.entries]
  · rw [Registration.symbols, asked]
    exact registered.cells

theorem perform_declaration (registered : p.Registered done) (asks : call.entry? = some s) :
    (p.perform call.enter).1 = (if call.fails done then .error (.numeral .write) else .ok ()) ∧
      (p.perform call.enter).2.Registered (done ++ [call]) := by
  have entries := find?_entries_concat asks done
  have symbols := registered.symbols_concat asks
  rw [registered.fails_eq asks]
  -- A name that has a cell keeps it, and nothing else changes; a new name is entered whether the call fails or not.
  cases cell : p.symbols.cell? s.name with
  | some old =>
    have known : (p.symbols.cell? s.name).isSome = true := by rw [cell]; rfl
    rw [Registration.perform_enter_of_isSome asks registered.opens known]
    refine ⟨by simp, registered.opens, fun name => ?_, registered.counted, ?_⟩
    · rw [entries, ← registered.entries]
      by_cases same : s.name = name
      · simp [← same, cell]
      · simp [same]
    · rw [symbols, if_pos known, List.append_nil, registered.cells]
  | none =>
    obtain ⟨table, performed, opens, updated⟩ := Registration.perform_enter_of_none asks registered.opens cell
    rw [performed]
    refine ⟨?_, opens, fun name => ?_, DataSection.counted_enter registered.counted s, ?_⟩
    · cases s.isWritable <;> rfl
    · rw [entries, ← registered.entries, updated]
      by_cases same : s.name = name
      · simp [← same, cell]
      · simp [same, Function.update_of_ne (Ne.symm same)]
    · have lacks : ¬ (p.symbols.cell? s.name).isSome = true := by simp [cell]
      rw [symbols, if_neg lacks, layOut_concat, ← registered.cells, registered.counted]
      exact p.data.cells_enter s

/-- A call fails or not as the calls before it say, and the account goes on behind it. -/
theorem perform_enter (registered : p.Registered done) (call : Registration) :
    (p.perform call.enter).1 = (if call.fails done then .error (.numeral .write) else .ok ()) ∧
      (p.perform call.enter).2.Registered (done ++ [call]) := by
  cases call with
  | note name type => exact ⟨rfl, registered.note name type⟩
  | declare | declareArray => exact registered.perform_declaration rfl

theorem register (registered : p.Registered done) (calls : List Registration) :
    (p.register calls).Registered (done ++ calls) := by
  induction calls generalizing p done with
  | nil => simpa [Pass.register] using registered
  | cons call rest ih => simpa [Pass.register] using ih (registered.perform_enter call).2

end Pass.Registered

theorem Pass.registered_start (config : Config) (calls : List Registration) :
    ((Pass.start config).register calls).Registered calls := by
  have start : (Pass.start config).Registered [] := by
    refine ⟨fun _ _ found => ?_, fun _ => rfl, rfl, rfl⟩
    cases found
  exact start.register calls

/-- Whatever names are entered, from a base that is a multiple of the word size:

    * the section counts the bytes as the assembler does, and its cells are those that the location counter
      calls for, padding included;
    * the entry of a name is what its first declaration says;
    * the cell of a symbol lies in the section, has room for the symbol and begins at a multiple of the size of
      its elements, and there is none if the numbers of its directive have too many digits;
    * cells of different symbols have no byte in common;
    * a further call fails if it is the first to declare its name and the directive cannot be written, and
      succeeds otherwise. -/
theorem register_layout (config : Config) (calls : List Registration) {base : Nat} (aligned : base % 4 = 0) :
    let p := (Pass.start config).register calls
    assembledEnd base p.data.cells = base + p.data.offset ∧
    p.data.cells = layOut base (Registration.symbols calls) ∧
    (∀ name, p.symbols.cell? name = (calls.filterMap Registration.entry?).find? (·.name == name)) ∧
    (∀ s ∈ Registration.symbols calls, s.isWritable = true →
      ∃ b ∈ assemble base p.data.cells, s.Fits b ∧ base ≤ b.start ∧ b.stop ≤ base + p.data.offset) ∧
    (∀ s ∈ Registration.symbols calls, s.isWritable = false → ∀ d ∈ p.data.cells, d.label ≠ some s.name) ∧
    (∀ b ∈ assemble base p.data.cells, ∀ c ∈ assemble base p.data.cells,
      b.directive.label ≠ c.directive.label → b.stop ≤ c.start ∨ c.stop ≤ b.start) ∧
    ∀ call : Registration,
      (p.perform call.enter).1 = if call.fails calls then .error (.numeral .write) else .ok () := by
  intro p
  have registered : p.Registered calls := Pass.registered_start config calls
  -- The section counts from zero, and a multiple of the word size moves all cells alike.
  have counted : assembledEnd base p.data.cells = base + p.data.offset := by
    rw [← registered.counted]
    exact assembledEnd_add aligned 0 p.data.cells
  have cells : p.data.cells = layOut base (Registration.symbols calls) :=
    registered.cells.trans (layOut_add aligned 0 _).symm
  refine ⟨counted, cells, registered.entries, ?_, ?_, ?_, ?_⟩
  · intro s member writable
    obtain ⟨b, inside, fits⟩ := exists_fits_layOut member writable
    rw [← cells] at inside
    obtain ⟨lower, -, upper⟩ := bounds_of_mem_assemble inside
    exact ⟨b, inside, fits, lower, counted ▸ upper⟩
  · intro s member unwritable d listed
    rw [cells] at listed
    exact label_ne_of_mem_layOut (nodup_eraseDupsBy Symbol.name _) member unwritable listed
  · intro b first c second differs
    exact apart_of_mem_assemble first second differs
  · intro call
    exact (registered.perform_enter call).1

/-- Bytes, a word, and arrays, one of which has a length below zero.  The name `t` is assigned to before it is
    declared, and it is declared twice. -/
def mixedCalls : List Registration :=
  [.note "t" .int, .declare "c" .char, .declareArray "f" .float (-2), .declare "t" .char,
    .declareArray "d" .char 5, .declare "t" .float, .declare "x" .int]

/-- There is padding before `f`, and `x` aligns itself. -/
theorem mixedCalls_layout :
    0x10010000 % 4 = 0 ∧
    ((Pass.start (.standard false)).register mixedCalls).data.cells =
      layOut 0x10010000 (Registration.symbols mixedCalls) ∧
    (assemble 0x10010000 (layOut 0x10010000 (Registration.symbols mixedCalls))).map
        (fun b => (b.directive.label, b.start, b.stop)) =
      [(some "c", 0x10010000, 0x10010001), (none, 0x10010001, 0x10010004), (some "f", 0x10010004, 0x10010008),
        (some "t", 0x10010008, 0x10010009), (some "d", 0x10010009, 0x1001000e),
        (some "x", 0x10010010, 0x10010014)] := by
  have aligned : 0x10010000 % 4 = 0 := rfl
  refine ⟨aligned, ?_, by decide +kernel⟩
  exact (register_layout (.standard false) mixedCalls aligned).2.1

/-- A byte, and behind it words whose bytes have a number of more than 4300 digits. -/
def overlongCalls : List Registration :=
  [.declare "c" .char, .declareArray "a" .int (5 * 10 ^ 4299)]

/-- The array is in the table, and there is padding for it, but it has no cell. -/
theorem overlongCalls_lack_cell :
    ((Pass.start (.standard false)).register overlongCalls).symbols.isInMemory "a" = true ∧
    ((Pass.start (.standard false)).register overlongCalls).data.cells =
      [⟨some "c", .byte, none⟩, paddingDirective] := by
  decide +kernel

end MipsLowering
