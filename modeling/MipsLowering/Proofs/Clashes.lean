import MipsLowering.Proofs.Cells
import MipsLowering.Proofs.DataGrowth
import MipsLowering.Proofs.Targets

/-! # Labels that stand twice in a listing

Besides the labels that a program brings along, a listing has labels that are made for it: those of the
literals, those of the loops, and the entry.  The made ones are all different, but only the loops are kept
clear of the labels of the program, and nothing is kept clear of the names of its symbols.
`lowerProgram_made_labels` says when a made label stands in the listing a second time. -/

namespace MipsLowering

/-! ## Labels of cells -/

section

variable {α β : Type} [BEq β] [LawfulBEq β] (key : α → β)

/-- Every key is kept when all but the first of each are dropped. -/
theorem mem_map_eraseDupsBy (as : List α) (k : β) :
    k ∈ (as.eraseDupsBy (key · == key ·)).map key ↔ k ∈ as.map key := by
  cases as with
  | nil => rfl
  | cons first rest =>
    rw [List.eraseDupsBy_cons, List.map_cons, List.mem_cons, mem_map_eraseDupsBy, List.map_cons,
      List.mem_cons]
    by_cases same : k = key first
    · simp [same]
    · simp only [same, false_or, List.mem_map, List.mem_filter]
      constructor
      · rintro ⟨a, ⟨member, _⟩, rfl⟩
        exact ⟨a, member, rfl⟩
      · rintro ⟨a, member, rfl⟩
        exact ⟨a, ⟨member, by simpa using same⟩, rfl⟩
termination_by as.length
decreasing_by exact Nat.lt_succ_of_le (List.length_filter_le _ _)

end

namespace DataSection

variable {d e : DataSection}

/-- Padding has no label. -/
def Padded (d : DataSection) : Prop :=
  ∀ cell ∈ d.cells, cell.isStorage = false → cell.label = none

theorem Padded.step (step : d.Step e) (padded : d.Padded) : e.Padded := by
  cases step with
  | pool kind written =>
    intro cell member
    rw [d.cells_intern] at member
    exact padded cell member
  | cell s =>
    intro cell member unstored
    simp only [append, align, List.mem_append, List.mem_singleton] at member
    rcases member with (old | padding) | rfl
    · exact padded cell old unstored
    · rw [List.mem_ite_nil_right, List.mem_singleton] at padding
      rw [padding.2]
      rfl
    · rw [s.isStorage_directive] at unstored
      cases unstored

theorem Padded.filterMap_label (padded : d.Padded) :
    d.cells.filterMap Directive.label = (d.cells.filter Directive.isStorage).filterMap Directive.label := by
  rw [List.filterMap_filter]
  apply List.filterMap_congr
  intro cell member
  cases stored : cell.isStorage with
  | true => rfl
  | false => simp [padded cell member stored]

theorem filterMap_label_directives (d : DataSection) :
    d.directives.filterMap Directive.label =
      d.cells.filterMap Directive.label ++ d.literals.map Literal.label := by
  have labelled : ∀ l : Literal, l.directive.label = some l.label := by
    intro l
    unfold Literal.directive
    split <;> rfl
  rw [directives, List.filterMap_append, List.filterMap_map]
  congr 1
  rw [← List.filterMap_eq_map]
  exact congrArg (d.literals.filterMap ·) (funext labelled)

end DataSection

/-- The labels of the cells are the names for which statements ask a cell. -/
theorem mem_cell_labels {config : Config} {program : Program} {q : Pass}
    (ran : (Lower.lines program).run (Pass.ready config program) = .ok () q) {label : String} :
    label ∈ q.data.cells.filterMap Directive.label ↔
      ∃ l ∈ program, ∃ s, l.stmt.entry? = some s ∧ s.name = label := by
  -- Padding has no label, so it does not matter where the cells were aligned.
  have padded : q.data.Padded := (Lower.grows_data_lines ran).keeps DataSection.Padded.step (by
    intro cell member
    cases member)
  have keys := mem_map_eraseDupsBy Directive.label (program.filterMap (·.stmt.directive?)) (some label)
  rw [padded.filterMap_label, (cells_lines ran).1]
  constructor
  · intro member
    obtain ⟨cell, kept, named⟩ := List.mem_filterMap.mp member
    obtain ⟨cell, asked, named⟩ := List.mem_map.mp (keys.mp (List.mem_map.mpr ⟨cell, kept, named⟩))
    obtain ⟨l, inProgram, asks⟩ := List.mem_filterMap.mp asked
    rw [Stmt.directive?_eq] at asks
    obtain ⟨s, entry, rfl⟩ := Option.map_eq_some_iff.mp asks
    rw [s.label_directive] at named
    exact ⟨l, inProgram, s, entry, Option.some.inj named⟩
  · rintro ⟨l, inProgram, s, entry, rfl⟩
    have asks : l.stmt.directive? = some s.directive := by rw [Stmt.directive?_eq, entry]; rfl
    have asked : s.directive ∈ program.filterMap (·.stmt.directive?) :=
      List.mem_filterMap.mpr ⟨l, inProgram, asks⟩
    obtain ⟨cell, kept, named⟩ := List.mem_map.mp
      (keys.mpr (List.mem_map.mpr ⟨s.directive, asked, s.label_directive⟩))
    exact List.mem_filterMap.mpr ⟨cell, kept, named⟩

/-! ## Made labels -/

/-- The labels that are made for a listing whose loops have the numbers `numbers`. -/
def Pass.madeLabels (p : Pass) (numbers : List Nat) : List String :=
  p.data.literals.map Literal.label ++ numbers.flatMap loopLabels ++ [p.config.entryLabel]

/-- The labels that a listing defines, in its data part and in its text part. -/
def Pass.listingLabels (p : Pass) : List String :=
  p.data.directives.filterMap Directive.label ++ p.labelLines

theorem Literal.head?_label (l : Literal) :
    l.label.toList.head? = some 's' ∨ l.label.toList.head? = some 'f' := by
  cases kind : l.kind <;> simp [Literal.label, LiteralKind.label, kind]

theorem head?_of_mem_loopLabels {numbers : List Nat} {label : String}
    (looped : label ∈ numbers.flatMap loopLabels) : label.toList.head? = some 'a' := by
  obtain ⟨n, -, member⟩ := List.mem_flatMap.mp looped
  simp only [loopLabels, List.mem_cons, List.not_mem_nil, or_false] at member
  rcases member with rfl | rfl <;> simp [LabelTable.numbered]

/-- Made labels are told apart by their first character, and within a kind by their numbers. -/
theorem Pass.nodup_madeLabels {p : Pass} {numbers : List Nat} (numbered : p.data.Numbered)
    (ascending : numbers.Pairwise (· < ·)) (entry : p.config.entryLabel = "main") :
    (p.madeLabels numbers).Nodup := by
  have first : ("main" : String).toList.head? = some 'm' := by decide
  have literals : (p.data.literals.map Literal.label ++ numbers.flatMap loopLabels).Nodup := by
    apply numbered.nodup_labels.append (nodup_loopLabels ascending)
    intro label pooled looped
    obtain ⟨l, -, rfl⟩ := List.mem_map.mp pooled
    have starts := l.head?_label
    rw [head?_of_mem_loopLabels looped] at starts
    simp at starts
  apply literals.append (List.nodup_singleton _)
  intro label made isEntry
  obtain rfl := List.mem_singleton.mp isEntry
  rw [entry] at made
  rcases List.mem_append.mp made with pooled | looped
  · obtain ⟨l, -, same⟩ := List.mem_map.mp pooled
    have starts := l.head?_label
    rw [same, first] at starts
    simp at starts
  · have starts := head?_of_mem_loopLabels looped
    rw [first] at starts
    simp at starts

/-! ## Listings -/

/-- The labels of a listing are those that its program brings along, and the made ones. -/
theorem Pass.listingLabels_perm {p : Pass} {stmts : List Stmt} {numbers : List Nat}
    (placed : p.text.filterMap Node.label? = Stmt.labelLines stmts numbers)
    (counted : numbers.length = stmts.countP Stmt.isZeroFill) :
    p.listingLabels.Perm
      ((p.data.cells.filterMap Directive.label ++ stmts.filterMap Stmt.definedLabel?) ++
        p.madeLabels numbers) := by
  have lines : p.labelLines.Perm
      (stmts.filterMap Stmt.definedLabel? ++ (numbers.flatMap loopLabels ++ [p.config.entryLabel])) := by
    rw [Pass.labelLines, placed, ← List.append_assoc]
    exact ((Stmt.labelLines_perm counted).cons _).trans (List.perm_append_singleton _ _).symm
  rw [Pass.listingLabels, DataSection.filterMap_label_directives, Pass.madeLabels, List.append_assoc,
    List.append_assoc, List.append_assoc]
  apply List.Perm.append_left
  exact (lines.append_left _).trans (List.perm_append_comm_assoc _ _ _)

theorem count_append_eq_one_iff {first second : List String} {label : String} (once : second.Nodup)
    (member : label ∈ second) : (first ++ second).count label = 1 ↔ label ∉ first := by
  rw [List.count_append, List.count_eq_one_of_mem once member, Nat.add_eq_right, List.count_eq_zero]

/-- The labels that are made for a listing are all different, and the loops keep clear of the labels of
    the program.  A made label stands in the listing once unless it is the name of a symbol that has a cell
    or a label of the program. -/
theorem lowerProgram_made_labels {config : Config} {program : Program} {listing : String} {p : Pass}
    (entry : config.entryLabel = "main") (lowered : lowerProgram config program = (.ok listing, p)) :
    ∃ numbers : List Nat,
      p.text.filterMap Node.label? = Stmt.labelLines (program.map Line.stmt) numbers ∧
      numbers.length = (program.map Line.stmt).countP Stmt.isZeroFill ∧
      (p.madeLabels numbers).Nodup ∧
      (∀ label ∈ numbers.flatMap loopLabels, ∀ l ∈ program, l.stmt.namedLabel? ≠ some label) ∧
      ∀ label ∈ p.madeLabels numbers,
        p.listingLabels.count label = 1 ↔
          (∀ l ∈ program, ∀ s, l.stmt.entry? = some s → s.name ≠ label) ∧
            ∀ l ∈ program, l.stmt.definedLabel? ≠ some label := by
  obtain ⟨q, ran, -, labels, settings, data⟩ := lowerProgram_views lowered
  obtain ⟨numbers, accounts⟩ := accounts_lines ran
  have placed : p.text.filterMap Node.label? = Stmt.labelLines (program.map Line.stmt) numbers :=
    labels.trans accounts.placed
  have numbered : p.data.Numbered := by
    rw [data]
    exact (Lower.grows_data_lines ran).keeps DataSection.Numbered.step DataSection.numbered_empty
  have once := Pass.nodup_madeLabels numbered accounts.ascending (settings ▸ entry)
  refine ⟨numbers, placed, accounts.counted, once, ?_, ?_⟩
  · intro label looped l member names
    exact accounts.fresh label looped (List.mem_filterMap.mpr ⟨l, member, names⟩)
  · intro label made
    rw [(Pass.listingLabels_perm placed accounts.counted).count_eq, count_append_eq_one_iff once made,
      List.mem_append, not_or, data, mem_cell_labels ran, List.filterMap_map]
    apply and_congr
    · simp
    · simp

/-- A program with a loop and two literals, and with labels of its own that look like made ones. -/
def keepsApart : Program :=
  Program.ofStmts
    [.declareArray "a" 4 (some "int") false,
      .label "arr_pad_0",
      .label "str_lit_1",
      .print "\"hi\"",
      .zeroFill "a" "0" "2",
      .assign "x" (some "1.5") none none]

theorem keepsApart_made_labels :
    ∃ listing p, lowerProgram (Config.standard false) keepsApart = (.ok listing, p) ∧
      ∃ numbers, p.madeLabels numbers =
          ["str_lit_0", "flt_lit_0", "arr_pad_1", "arr_pad_1_end", "main"] ∧
        ∀ label ∈ p.madeLabels numbers, p.listingLabels.count label = 1 := by
  have runs : (lowerProgram (Config.standard false) keepsApart).1.isOk = true ∧
      (lowerProgram (Config.standard false) keepsApart).2.text.filterMap Node.label? =
        ["arr_pad_0", "str_lit_1", "arr_pad_1", "arr_pad_1_end"] ∧
      (lowerProgram (Config.standard false) keepsApart).2.madeLabels [1] =
        ["str_lit_0", "flt_lit_0", "arr_pad_1", "arr_pad_1_end", "main"] := by
    decide +kernel
  cases lowered : lowerProgram (Config.standard false) keepsApart with
  | mk result p =>
    rw [lowered] at runs
    obtain ⟨succeeded, lines, made⟩ := runs
    cases result with
    | error => cases succeeded
    | ok listing =>
      obtain ⟨numbers, placed, counted, -, -, once⟩ := lowerProgram_made_labels rfl lowered
      obtain ⟨n, rfl⟩ := List.length_eq_one_iff.mp counted
      -- The only loop has the number that its line shows.
      obtain rfl : n = 1 := by
        have line : LabelTable.numbered "arr_pad" n = LabelTable.numbered "arr_pad" 1 :=
          congrArg (·.getD 2 "") (placed.symm.trans lines)
        exact LabelTable.numbered_inj line
      have clear : ∀ label ∈ ["str_lit_0", "flt_lit_0", "arr_pad_1", "arr_pad_1_end", "main"],
          (∀ l ∈ keepsApart, ∀ s, l.stmt.entry? = some s → s.name ≠ label) ∧
            ∀ l ∈ keepsApart, l.stmt.definedLabel? ≠ some label := by
        decide +kernel
      exact ⟨listing, p, rfl, [1], made, fun label member =>
        (once label member).mpr (clear label (made ▸ member))⟩

/-- A label has two lines in the listing of statements. -/
def StandsTwice (label : String) (stmts : List Stmt) : Prop :=
  (lowerProgram (Config.standard false) (Program.ofStmts stmts)).1.isOk = true ∧
  (lowerProgram (Config.standard false) (Program.ofStmts stmts)).2.listingLabels.count label = 2

/-- A literal, a loop and the entry get labels that a program has, or names of its symbols. -/
theorem made_label_stands_twice :
    StandsTwice "str_lit_0" [.label "str_lit_0", .print "\"hi\""] ∧
    StandsTwice "flt_lit_0" [.label "flt_lit_0", .assign "x" (some "1.5") none none] ∧
    StandsTwice "main" [.label "main"] ∧
    StandsTwice "arr_pad_0" [.declare "arr_pad_0" (some "int") false,
      .declareArray "a" 4 (some "int") false, .zeroFill "a" "0" "2"] := by
  unfold StandsTwice
  decide +kernel

end MipsLowering
