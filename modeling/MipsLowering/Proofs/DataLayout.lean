import Mathlib.Data.List.Pairwise
import MipsLowering.Proofs.Cells

/-! # Where the assembler puts data

The assembler goes through the directives of the data section from the first to the last.  Words and
floats begin at the next multiple of four, everything else begins where the directive before it ends.

A `Block` is a directive with the bytes that it takes, counted from the beginning of the section, and
`assemble` lays out a list of directives.  The data section of a pass keeps its own count of the bytes;
`Ledger.Placed` says that the count is right, that the cell of every symbol has room for the symbol, and
that it begins at a multiple of the size of an element. -/

namespace MipsLowering

theorem le_alignWord (offset : Nat) : offset ≤ alignWord offset :=
  Nat.le_add_right _ _

theorem alignWord_mod (offset : Nat) : alignWord offset % 4 = 0 := by
  unfold alignWord
  omega

namespace Storage

/-- Where a directive begins if the bytes before it end at `offset`. -/
def start (offset : Nat) : Storage → Nat
  | .word | .float _ => MipsLowering.alignWord offset
  | _ => offset

/-- Where a directive ends if the bytes before it end at `offset`. -/
def stop (offset : Nat) : Storage → Nat
  | .word | .float _ => MipsLowering.alignWord offset + 4
  | .byte => offset + 1
  | .space bytes => offset + bytes
  | .asciiz text => offset + text.utf8ByteSize + 1
  | .alignWord => MipsLowering.alignWord offset
  | .other _ _ => offset

theorem le_start (offset : Nat) (s : Storage) : offset ≤ s.start offset := by
  cases s with
  | word | float => exact le_alignWord offset
  | _ => exact Nat.le_refl offset

theorem start_le_stop (offset : Nat) (s : Storage) : s.start offset ≤ s.stop offset := by
  cases s with
  | alignWord => exact le_alignWord offset
  | _ => simp only [start, stop]; omega

end Storage

/-- A directive with the bytes that it takes. -/
structure Block where
  directive : Directive
  start : Nat
  stop : Nat
  deriving Repr, DecidableEq

/-- The blocks of directives, the first of which comes behind `offset` bytes. -/
def assemble (offset : Nat) : List Directive → List Block
  | [] => []
  | d :: rest =>
    ⟨d, d.storage.start offset, d.storage.stop offset⟩ :: assemble (d.storage.stop offset) rest

/-- Where the last of some directives ends. -/
def assembledEnd (offset : Nat) (directives : List Directive) : Nat :=
  directives.foldl (fun offset d => d.storage.stop offset) offset

theorem assemble_append (offset : Nat) (first second : List Directive) :
    assemble offset (first ++ second) =
      assemble offset first ++ assemble (assembledEnd offset first) second := by
  induction first generalizing offset with
  | nil => rfl
  | cons d rest ih => rw [List.cons_append, assemble, ih]; rfl

theorem assembledEnd_append (offset : Nat) (first second : List Directive) :
    assembledEnd offset (first ++ second) = assembledEnd (assembledEnd offset first) second :=
  List.foldl_append

theorem le_assembledEnd (offset : Nat) (directives : List Directive) :
    offset ≤ assembledEnd offset directives := by
  induction directives generalizing offset with
  | nil => exact Nat.le_refl offset
  | cons d rest ih =>
    calc offset ≤ d.storage.start offset := d.storage.le_start offset
      _ ≤ d.storage.stop offset := d.storage.start_le_stop offset
      _ ≤ assembledEnd (d.storage.stop offset) rest := ih _

theorem directive_mem_of_mem_assemble {offset : Nat} {directives : List Directive} {b : Block}
    (member : b ∈ assemble offset directives) : b.directive ∈ directives := by
  induction directives generalizing offset with
  | nil => cases member
  | cons d rest ih =>
    rcases List.mem_cons.mp member with rfl | later
    · exact List.mem_cons_self
    · exact List.mem_cons_of_mem d (ih later)

theorem bounds_of_mem_assemble {offset : Nat} {directives : List Directive} {b : Block}
    (member : b ∈ assemble offset directives) :
    offset ≤ b.start ∧ b.start ≤ b.stop ∧ b.stop ≤ assembledEnd offset directives := by
  induction directives generalizing offset with
  | nil => cases member
  | cons d rest ih =>
    have start := d.storage.le_start offset
    have stop := d.storage.start_le_stop offset
    rcases List.mem_cons.mp member with rfl | later
    · exact ⟨start, stop, le_assembledEnd _ rest⟩
    · obtain ⟨lower, ordered, upper⟩ := ih later
      exact ⟨Nat.le_trans start (Nat.le_trans stop lower), ordered, upper⟩

/-- A block ends before the next one begins. -/
theorem pairwise_assemble (offset : Nat) (directives : List Directive) :
    (assemble offset directives).Pairwise (·.stop ≤ ·.start) := by
  induction directives generalizing offset with
  | nil => exact .nil
  | cons d rest ih => exact .cons (fun b later => (bounds_of_mem_assemble later).1) (ih _)

/-- Blocks with different labels have no byte in common. -/
theorem apart_of_mem_assemble {offset : Nat} {directives : List Directive} {b c : Block}
    (first : b ∈ assemble offset directives) (second : c ∈ assemble offset directives)
    (differs : b.directive.label ≠ c.directive.label) : b.stop ≤ c.start ∨ c.stop ≤ b.start := by
  have symmetric : Std.Symm fun b c : Block => b.stop ≤ c.start ∨ c.stop ≤ b.start := ⟨fun _ _ => Or.symm⟩
  have apart : (assemble offset directives).Pairwise
      fun b c => b.stop ≤ c.start ∨ c.stop ≤ b.start :=
    (pairwise_assemble offset directives).imp Or.inl
  exact apart.forall first second fun same => differs (congrArg (·.directive.label) same)

/-! ## Cells of symbols -/

/-- The block of a directive is the cell of a symbol: it begins at a multiple of the size of an element
    and has room for the symbol. -/
structure Symbol.Fits (s : Symbol) (b : Block) : Prop where
  directive : b.directive = s.directive
  aligned : b.start % s.type.size = 0
  room : b.stop = b.start + s.sizeBytes

theorem Symbol.Fits.stop_of_scalar {s : Symbol} {b : Block} (fits : s.Fits b) (scalar : s.isArray = false) :
    b.stop = b.start + s.type.size := by
  have kind : s.kind = .scalar := by
    cases kind : s.kind with
    | scalar => rfl
    | array => simp [Symbol.isArray, kind] at scalar
  rw [fits.room, Symbol.sizeBytes, kind]
  rfl

/-- The cells are where the count of the section says that they are. -/
structure Ledger.Placed (g : Ledger) : Prop where
  counted : assembledEnd 0 g.data.cells = g.data.offset
  absent : ∀ name, g.cell? name = none → ∀ b ∈ assemble 0 g.data.cells, b.directive.label ≠ some name
  present : ∀ name s, g.cell? name = some s →
    ∃ b, (assemble 0 g.data.cells).find? (·.directive.label == some name) = some b ∧ s.Fits b

/-- What the assembler takes for the cell of a symbol is the size of the symbol. -/
theorem Symbol.stop_directive (s : Symbol) (offset : Nat) :
    s.directive.storage.stop offset = s.directive.storage.start offset + s.sizeBytes := by
  obtain ⟨name, kind, type, length, inMemory⟩ := s
  cases kind with
  | scalar => cases type <;> rfl
  | array => rfl

namespace DataSection

variable {d : DataSection} {s : Symbol}

theorem offset_align_mod (d : DataSection) (s : Symbol) : (d.align s).offset % s.type.size = 0 := by
  unfold align ValueType.size
  cases s.type.width with
  | byte => exact Nat.mod_one _
  | word => exact alignWord_mod _

/-- A cell begins where the count says, by its own alignment or behind padding. -/
theorem start_directive (counted : assembledEnd 0 d.cells = d.offset) :
    s.directive.storage.start (assembledEnd 0 (d.align s).cells) = (d.align s).offset := by
  obtain ⟨name, kind, type, length, inMemory⟩ := s
  cases kind with
  | scalar =>
    have cells : (d.align ⟨name, .scalar, type, length, inMemory⟩).cells = d.cells := by
      simp [align, Symbol.isArray]
    rw [cells, counted]
    cases type <;> rfl
  | array =>
    simp only [Symbol.directive, Storage.start, align, assembledEnd_append, counted]
    cases type.width with
    | byte => simp [assembledEnd]
    | word =>
      by_cases aligned : alignWord d.offset = d.offset
      · simp [assembledEnd, aligned]
      · simp [assembledEnd, aligned, Symbol.isArray, paddingDirective, Storage.stop]

/-- The blocks that a symbol adds: padding, if there is any, and its cell. -/
theorem assemble_append_align (counted : assembledEnd 0 d.cells = d.offset) :
    ∃ padding cell, assemble 0 ((d.align s).append s).cells = assemble 0 d.cells ++ padding ++ [cell] ∧
      (∀ b ∈ padding, b.directive.label = none) ∧ s.Fits cell ∧
      assembledEnd 0 ((d.align s).append s).cells = ((d.align s).append s).offset := by
  have start := start_directive (s := s) counted
  have stop := s.stop_directive (assembledEnd 0 (d.align s).cells)
  rw [start] at stop
  obtain ⟨padding, cells, unlabelled⟩ : ∃ padding, (d.align s).cells = d.cells ++ padding ∧
      ∀ b ∈ assemble (assembledEnd 0 d.cells) padding, b.directive.label = none := by
    refine ⟨_, rfl, fun b member => ?_⟩
    have listed := directive_mem_of_mem_assemble member
    rw [List.mem_ite_nil_right, List.mem_singleton] at listed
    rw [listed.2]
    rfl
  refine ⟨assemble (assembledEnd 0 d.cells) padding,
    ⟨s.directive, (d.align s).offset, (d.align s).offset + s.sizeBytes⟩, ?_, unlabelled,
    ⟨rfl, d.offset_align_mod s, rfl⟩, ?_⟩
  · rw [append, assemble_append, ← assemble_append 0 d.cells, ← cells, assemble, start, stop]
    rfl
  · rw [append, assembledEnd_append]
    exact stop

end DataSection

namespace Ledger

variable {g : Ledger}

theorem Placed.give (placed : g.Placed) (s : Symbol) : (g.give s).Placed := by
  have entries : ∀ name, (g.give s).cell? name =
      (g.cell? name).or (if s.name = name then some s else none) := cell?_give s
  cases known : g.cell? s.name with
  | some old =>
    have same : g.give s = g := by simp [Ledger.give, known]
    rw [same]
    exact placed
  | none =>
    -- A new cell stands behind its padding at the end of the section, and nothing before it moves.
    have data : (g.give s).data = (g.data.align s).append s := by simp [Ledger.give, known]
    obtain ⟨padding, cell, blocks, unlabelled, fits, counted⟩ :=
      DataSection.assemble_append_align (s := s) placed.counted
    have labelled : cell.directive.label = some s.name := by rw [fits.directive, s.label_directive]
    rw [← data] at blocks counted
    refine ⟨counted, ?_, ?_⟩
    -- A name that is still without a cell is the label of no block, neither of the old ones nor of the new ones.
    · intro name missing b member
      rw [entries, Option.or_eq_none_iff] at missing
      rw [blocks, List.mem_append, List.mem_append, List.mem_singleton] at member
      rcases member with (old | new) | rfl
      · exact placed.absent name missing.1 b old
      · simp [unlabelled b new]
      · simpa [labelled] using missing.2
    -- The block of a name is the first with its label, which for the new name is the last of all.
    · intro name e found
      rw [entries, Option.or_eq_some_iff] at found
      rw [blocks, List.append_assoc, List.find?_append]
      rcases found with old | ⟨new, given⟩
      · obtain ⟨b, old, fits⟩ := placed.present name e old
        exact ⟨b, by rw [old, Option.some_or], fits⟩
      · obtain ⟨rfl, rfl⟩ : s.name = name ∧ s = e := by simpa using given
        have before : (assemble 0 g.data.cells).find? (·.directive.label == some s.name) = none := by
          simpa using placed.absent s.name new
        have between : padding.find? (·.directive.label == some s.name) = none := by
          rw [List.find?_eq_none]
          intro b member
          simp [unlabelled b member]
        exact ⟨cell, by simp [before, between, List.find?_append, labelled], fits⟩

theorem Placed.after (placed : g.Placed) (s : Stmt) : (g.after s).Placed := by
  have recorded : (g.record s).Placed := by
    constructor
    · rw [g.data_record s]
      exact placed.counted
    · rw [g.data_record s, g.cell?_record s]
      exact placed.absent
    · rw [g.data_record s, g.cell?_record s]
      exact placed.present
  unfold Ledger.after
  cases s.entry? with
  | none => exact recorded
  | some e => exact recorded.give e

theorem Placed.foldl (placed : g.Placed) (stmts : List Stmt) : (stmts.foldl Ledger.after g).Placed := by
  induction stmts generalizing g with
  | nil => exact placed
  | cons s rest ih => exact ih (placed.after s)

end Ledger

/-! ## Sections -/

namespace DataSection

/-- The first block with a label. -/
def block? (d : DataSection) (label : String) : Option Block :=
  (assemble 0 d.directives).find? (·.directive.label == some label)

/-- The bytes that the section takes. -/
def size (d : DataSection) : Nat :=
  assembledEnd 0 d.directives

end DataSection

/-- The cell of a symbol is the first block with its name. -/
theorem block?_of_cell? {config : Config} {program part : Program} {q : Pass}
    (ran : (Lower.lines part).run (Pass.ready config program) = .ok () q) {name : String} {s : Symbol}
    (cell : q.symbols.cell? name = some s) : ∃ b, q.data.block? name = some b ∧ s.Fits b := by
  have start : (Pass.ready config program).ledger.Placed := by
    constructor
    · rfl
    · intro name _ b member
      cases member
    · intro name s found
      cases found
  have placed := start.foldl (part.map Line.stmt)
  rw [← (Lower.ledger_lines ran (Pass.ready_opens config program)).1] at placed
  obtain ⟨b, found, fits⟩ := placed.present name s cell
  refine ⟨b, ?_, fits⟩
  rw [DataSection.block?, DataSection.directives, assemble_append, List.find?_append]
  exact Option.or_eq_some_iff.mpr (.inl found)

end MipsLowering
